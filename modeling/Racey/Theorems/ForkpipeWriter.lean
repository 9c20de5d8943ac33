import Racey.ForkpipeWriter
import Racey.Theorems.Mix

/-! Whatever its calls of `write` return, a writer's `num` is below `PRIME1` and not negative where it chooses a pipe. -/

namespace Racey.Forkpipe

variable {c : Config} {num : ℤ} {k : ℕ} {p q : List ℤ × ℤ} {ks : List ℕ}

theorem canonical_mixInt (num j : ℤ) : Canonical (mixInt num j) := canonical_signed_mix _ _

/-! ### The loop over the buffer -/

/-- `k * PRIME1` is an `int` for every `k` that the loop over `buffer` comes to. -/
theorem mulInt_prime1 (hk : k < 16) : mulInt k prime1 = some (k * prime1) := by
  refine if_pos ?_
  have hprime : (prime1 : ℤ) = 103072243 := rfl
  rw [IsInt, hprime]
  omega

theorem storeOne_eq (hk : k < 16) : storeOne num k = some (mixInt (mixInt num (k * prime1)) (prime2 / (k + 1))) := by
  rw [storeOne, mulInt_prime1 hk]
  rfl

theorem storeAll_eq (hks : ∀ k ∈ ks, k < 16) : storeAll p ks = some (ks.foldl fillOne p) := by
  induction ks generalizing p with
  | nil => rfl
  | cons k ks ih =>
    rw [storeAll, storeOne_eq (hks k List.mem_cons_self)]
    exact ih fun j hj => hks j (List.mem_cons_of_mem k hj)

/-- The loop over `buffer` is defined, and does what `fill` says. -/
theorem storeAll_range : storeAll ([], num) (List.range 16) = some (fill num) :=
  storeAll_eq fun _ hk => List.mem_range.mp hk

theorem canonical_foldl (h : ∀ x ∈ p.1, Canonical x) : ∀ x ∈ (ks.foldl fillOne p).1, Canonical x := by
  induction ks generalizing p with
  | nil => exact h
  | cons k ks ih =>
    refine ih fun x hx => ?_
    rcases List.mem_append.mp hx with hx | hx
    · exact h x hx
    · rw [List.mem_singleton.mp hx]
      exact canonical_mixInt _ _

theorem canonical_message (num : ℤ) : ∀ x ∈ (message num).buffer, Canonical x := canonical_foldl (by simp)

theorem canonical_foldl_last : Canonical ((ks ++ [k]).foldl fillOne p).2 := by
  rw [List.foldl_append]
  exact canonical_mixInt _ _

theorem canonical_fill (num : ℤ) : Canonical (fill num).2 := by
  have hlast : List.range 16 = List.range 15 ++ [15] := List.range_succ
  rw [fill, hlast]
  exact canonical_foldl_last

/-! ### The choice of a pipe -/

theorem targetInt_eq (hn : 0 < c.numProcs) (h : Canonical num) : targetInt c num = some (target c num : ℤ) := by
  have hne : (c.numProcs : ℤ) ≠ 0 := Int.natCast_ne_zero.mpr hn.ne'
  have hrem : 0 ≤ num.tmod c.numProcs := Int.tmod_nonneg _ h.1
  rw [targetInt, remInt, if_neg hne, Option.map_some, target, Nat.cast_succ, Int.toNat_of_nonneg hrem]

theorem target_opened (hn : 0 < c.numProcs) (h : Canonical num) : 1 ≤ target c num ∧ target c num ≤ c.numProcs := by
  have hlt : num.tmod c.numProcs < c.numProcs := Int.tmod_lt_of_pos _ (Int.natCast_pos.mpr hn)
  have hrem : 0 ≤ num.tmod c.numProcs := Int.tmod_nonneg _ h.1
  refine ⟨Nat.le_add_left 1 _, ?_⟩
  show (num.tmod c.numProcs).toNat + 1 ≤ c.numProcs
  omega

/-! ### The main loop -/

/-- A pass sends the message of `num` to the pipe that `fill` has led to, and goes on with what `write` returned mixed in. -/
theorem writerLoop_succ (hn : 0 < c.numProcs) (r : ℕ → ℤ) (left i : ℕ) (num : ℤ) :
    writerLoop c r (left + 1) i num = (writerLoop c r left (i + 1) (mixInt (fill num).2 (r i))).map
      (⟨target c (fill num).2, (message num).buffer⟩ :: ·) := by
  rw [writerLoop, storeAll_range, Option.bind_some, targetInt_eq hn (canonical_fill num), Option.bind_some]
  rfl

/-- A call of `write` for an existing pipe, with a buffer full of mixes. -/
structure WriteCall.Valid (c : Config) (w : WriteCall) : Prop where
  target : 1 ≤ w.target ∧ w.target ≤ c.numProcs
  buffer : ∀ x ∈ w.buffer, Canonical x

theorem writerLoop_valid (hn : 0 < c.numProcs) (r : ℕ → ℤ) (left i : ℕ) (num : ℤ) :
    ∃ ws, writerLoop c r left i num = some ws ∧ ws.length = left ∧ ∀ w ∈ ws, w.Valid c := by
  induction left generalizing i num with
  | zero => exact ⟨[], rfl, rfl, fun w hw => by cases hw⟩
  | succ left ih =>
    obtain ⟨ws, hws, hlength, hvalid⟩ := ih (i + 1) (mixInt (fill num).2 (r i))
    refine ⟨_, by rw [writerLoop_succ hn, hws]; rfl, congrArg (· + 1) hlength, fun w hw => ?_⟩
    rcases List.mem_cons.mp hw with rfl | hw
    · obtain ⟨h1, hle⟩ := target_opened hn (canonical_fill num)
      exact ⟨⟨Int.ofNat_le.mpr h1, Int.ofNat_le.mpr hle⟩, canonical_message num⟩
    · exact hvalid w hw

/-- Whatever the calls of `write` return, errors included, nothing in `WriterProcess` is undefined: `k * PRIME1` does not
    overflow; there is a call for each of the `MaxLoop` passes, to one of the pipes 1 to `NumProcs`; and the integers in the
    buffer lie in 0 to `PRIME1 - 1`. -/
theorem writerProcess_valid (hn : 0 < c.numProcs) (threadId : ℕ) (r : ℕ → ℤ) :
    (∀ k : ℕ, k < 16 → mulInt k prime1 = some (k * prime1)) ∧
      ∃ ws, writerProcess c threadId r = some ws ∧ ws.length = c.maxLoop ∧
        ∀ w ∈ ws, (1 ≤ w.target ∧ w.target ≤ c.numProcs) ∧ ∀ x ∈ w.buffer, 0 ≤ x ∧ x < prime1 := by
  obtain ⟨ws, hws, hlength, hvalid⟩ := writerLoop_valid hn r c.maxLoop 0 (signed (sigInit threadId))
  exact ⟨fun k hk => mulInt_prime1 hk, ws, hws, hlength, fun w hw => ⟨(hvalid w hw).target, (hvalid w hw).buffer⟩⟩

/-- Both calls of a writer among 32 fail. -/
theorem writerProcess_valid_failing : ∃ ws, writerProcess ⟨32, 2⟩ 5 (fun _ => -1) = some ws ∧ ws.length = 2 ∧
    ∀ w ∈ ws, 1 ≤ w.target ∧ w.target ≤ 32 := by
  obtain ⟨-, ws, hws, hlength, hvalid⟩ := writerProcess_valid (c := ⟨32, 2⟩) (by decide) 5 fun _ => -1
  exact ⟨ws, hws, hlength, fun w hw => (hvalid w hw).1⟩

end Racey.Forkpipe
