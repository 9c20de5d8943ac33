import Racey.Mix

/-! The mix function stays below `PRIME1`, conversions between `int` and `unsigned` lose nothing there, and
    the result loops of the programs read every result but the last: they stop below `NumProcs`, while the
    threads are numbered from 1 to `NumProcs`. -/

namespace Racey

/-! ### Words -/

theorem mix_lt (i j : ℕ) : mix i j < prime1 := Nat.mod_lt _ (by decide)

/-- Storing an `unsigned` in an `int` and reading it back changes nothing. -/
theorem unsigned_signed {n : ℕ} (h : n < 4294967296) : unsigned (signed n) = n := by
  unfold unsigned signed
  split <;> omega

/-- What a thread stores in a cell of `m` after a `mix` is what the next load of it gives. -/
theorem unsigned_signed_mix (i j : ℕ) : unsigned (signed (mix i j)) = mix i j :=
  unsigned_signed ((mix_lt i j).trans (by decide))

theorem signed_eq {n : ℕ} (h : n < prime1) : signed n = n := if_pos (h.trans (by decide))

theorem unsigned_eq {x : ℤ} (h0 : 0 ≤ x) (h : x < prime1) : (unsigned x : ℤ) = x := by
  have hlt : x < 4294967296 := h.trans (by decide)
  rw [unsigned, Int.emod_eq_of_lt h0 hlt, Int.toNat_of_nonneg h0]

/-- The value of an `int` lies in 0 to `PRIME1 - 1`. -/
def Canonical (x : ℤ) : Prop := 0 ≤ x ∧ x < prime1

theorem canonical_signed {n : ℕ} (h : n < prime1) : Canonical (signed n) := by
  rw [signed_eq h]
  exact ⟨Int.natCast_nonneg n, Int.ofNat_lt.mpr h⟩

theorem canonical_signed_mix (i j : ℕ) : Canonical (signed (mix i j)) := canonical_signed (mix_lt i j)

/-! ### What the result loops read -/

theorem mixSig_congr {n : ℕ} {sig sig' : ℕ → ℕ} (hn : 0 < n) (h : ∀ i < n, sig i = sig' i) :
    mixSig n sig = mixSig n sig' := by
  unfold mixSig
  rw [h 0 hn]
  refine List.foldl_ext _ _ _ fun acc i hi => ?_
  rw [h i (by simp only [List.mem_range'_1] at hi; omega)]

namespace Readfile

theorem mixSig_congr {n : ℕ} {num num' : ℕ → ℤ} (hn : 0 < n) (h : ∀ i < n, num i = num' i) :
    mixSig n num = mixSig n num' :=
  Racey.mixSig_congr hn fun i hi => by simp only [storeHashes, h i hi]

end Readfile

namespace Forkpipe

/-- A loop that may return early depends on its body at the indices it runs over. -/
theorem foldlM_congr {α β : Type*} {f g : β → α → Option β} :
    ∀ {l : List α} {acc : β}, (∀ acc, ∀ i ∈ l, f acc i = g acc i) → l.foldlM f acc = l.foldlM g acc
  | [], _, _ => rfl
  | i :: l, acc, h => by
    rw [List.foldlM_cons, List.foldlM_cons, h acc i List.mem_cons_self]
    exact Option.bind_congr fun b _ => foldlM_congr fun acc k hk => h acc k (List.mem_cons_of_mem _ hk)

theorem collect_congr {n : ℕ} {f g : ℕ → Output} (h : ∀ i < n, f i = g i) : collect n f = collect n g :=
  foldlM_congr fun acc i hi => by rw [h i (by simp only [List.mem_range'_1] at hi; omega)]

theorem mixSig_congr {n : ℕ} {num num' : ℕ → ℤ} (h : ∀ i < n, num i = num' i) : mixSig n num = mixSig n num' :=
  collect_congr fun i hi => by rw [h i hi]

end Forkpipe

/-! ### Which results the signature reflects -/

/-- Entry `t` of a table of results is reflected in `value`: two tables of results below `PRIME1` that
    differ in entry `t` only have different values. -/
def Reflected {β : Type*} (value : (ℕ → ℕ) → β) (t : ℕ) : Prop :=
  ∃ a b : ℕ → ℕ, (∀ i, a i < prime1) ∧ (∀ i, b i < prime1) ∧ (∀ i, i ≠ t → a i = b i) ∧ value a ≠ value b

theorem not_reflected {β : Type*} {value : (ℕ → ℕ) → β} {t : ℕ}
    (h : ∀ a b : ℕ → ℕ, (∀ i, i ≠ t → a i = b i) → value a = value b) : ¬Reflected value t := by
  rintro ⟨a, b, -, -, hab, hne⟩
  exact hne (h a b hab)

def spike (t : ℕ) : ℕ → ℕ := fun i => if i = t then 1 else 0

theorem reflected_of_spike {β : Type*} {value : (ℕ → ℕ) → β} {t : ℕ} (h : value (spike t) ≠ value fun _ => 0) :
    Reflected value t := by
  have pos : 0 < prime1 := by decide
  refine ⟨spike t, fun _ => 0, fun i => ?_, fun _ => pos, fun i hi => if_neg hi, h⟩
  unfold spike
  split <;> decide

/-- From 1, mixing in zeros does not lead back to 0 within the 32 passes that `main` can make: the one
    entry of a spike is never forgotten. -/
theorem mixSig_spike : ∀ n < 33, ∀ t < n, 1 ≤ t → mixSig n (spike t) ≠ mixSig n fun _ => 0 := by
  decide +kernel

theorem readfile_mixSig_spike : ∀ n < 33, ∀ t < n, 1 ≤ t →
    Readfile.mixSig n (fun i => spike t i) ≠ Readfile.mixSig n fun _ => 0 := by
  decide +kernel

theorem forkpipe_mixSig_spike : ∀ n < 33, ∀ t < n, 1 ≤ t →
    Forkpipe.mixSig n (fun i => spike t i) ≠ Forkpipe.mixSig n fun _ => 0 := by
  decide +kernel

/-- The signature reflects exactly the results of the threads numbered below `NumProcs`: in racey-basic
    and the programs with its result loop, in racey-readfile, and in racey-forkpipe. -/
theorem signature_reflects_iff {c : Config} (hc : c.Accepted) {t : ℕ} (h1 : 1 ≤ t) (ht : t ≤ c.numProcs) :
    (Reflected (mixSig c.numProcs) t ↔ t < c.numProcs) ∧
    (Reflected (fun num => Readfile.mixSig c.numProcs fun i => num i) t ↔ t < c.numProcs) ∧
    (Reflected (fun num => Forkpipe.mixSig c.numProcs fun i => num i) t ↔ t < c.numProcs) := by
  have hn := hc.numProcs_le
  -- The last thread: no pass of a result loop reads entry `NumProcs`.
  have last : ¬t < c.numProcs → ∀ a b : ℕ → ℕ, (∀ i, i ≠ t → a i = b i) → ∀ i < c.numProcs, a i = b i :=
    fun hlt a b hab i hi => hab i (by omega)
  refine ⟨⟨fun h => ?_, fun h => ?_⟩, ⟨fun h => ?_, fun h => ?_⟩, ⟨fun h => ?_, fun h => ?_⟩⟩
  · by_contra hlt
    exact not_reflected (fun a b hab => mixSig_congr hc.numProcs_pos (last hlt a b hab)) h
  · exact reflected_of_spike (mixSig_spike _ (by omega) t h h1)
  · by_contra hlt
    exact not_reflected (fun a b hab => Readfile.mixSig_congr hc.numProcs_pos fun i hi => by
      rw [last hlt a b hab i hi]) h
  · exact reflected_of_spike (readfile_mixSig_spike _ (by omega) t h h1)
  · by_contra hlt
    exact not_reflected (fun a b hab => Forkpipe.mixSig_congr fun i hi => by rw [last hlt a b hab i hi]) h
  · exact reflected_of_spike (forkpipe_mixSig_spike _ (by omega) t h h1)

theorem signature_reflects_two_of_three :
    (Reflected (mixSig 3) 2 ↔ 2 < 3) ∧ (Reflected (fun num => Readfile.mixSig 3 fun i => num i) 2 ↔ 2 < 3) ∧
      (Reflected (fun num => Forkpipe.mixSig 3 fun i => num i) 2 ↔ 2 < 3) :=
  signature_reflects_iff (c := ⟨3, 1⟩) ⟨by decide, by decide, by decide⟩ (by decide) (by decide)

theorem last_thread_not_reflected : ¬Reflected (mixSig 2) 2 ∧
    ¬Reflected (fun num => Readfile.mixSig 2 fun i => num i) 2 ∧
    ¬Reflected (fun num => Forkpipe.mixSig 2 fun i => num i) 2 := by
  refine ⟨not_reflected fun a b hab => ?_, not_reflected fun a b hab => ?_, not_reflected fun a b hab => ?_⟩
  · exact mixSig_congr (by decide) fun i hi => hab i (by omega)
  · exact Readfile.mixSig_congr (by decide) fun i hi => by rw [hab i (by omega)]
  · exact Forkpipe.mixSig_congr fun i hi => by rw [hab i (by omega)]

end Racey
