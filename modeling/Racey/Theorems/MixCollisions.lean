import Mathlib.Data.Int.Range
import Racey.Lib.Residues
import Racey.Theorems.Guarded

/-! Which arguments `mix` does not tell apart. Among the numbers below `PRIME1`, those that `mix` takes to
    one value lie apart by multiples of `PRIME1` in the 32-bit words, and few such distances are short
    enough. Hence two conflicting updates of a cell leave a trace of their order: the first arguments that
    could hide it are an odd distance apart, and so belong to different cells. -/

namespace Racey

variable {a b i i' j j' v : ℕ}

/-- The inverse of `PRIME2` modulo `2^32`. -/
def prime2Inv : ℤ := 3650688751

theorem prime2_mul_inv : prime2 * prime2Inv ≡ 1 [ZMOD (4294967296 : ℕ)] := by decide +kernel

/-! ### Distances -/

/-- The distances below `PRIME1` between first arguments: of the multiples `k * PRIME1` with `k` at most
    `2^32 / PRIME1`, only the last one wraps to so short a distance. -/
theorem left_distance : ∀ k : ℤ, -41 ≤ k → k ≤ 41 → k * prime1 * 1 % (4294967296 : ℕ) < prime1 →
    k * prime1 * 1 % (4294967296 : ℕ) = 0 ∨ k * prime1 * 1 % (4294967296 : ℕ) = 69005333 := by
  decide +kernel

theorem right_distance : ∀ k : ℤ, -41 ≤ k → k ≤ 41 → k * prime1 * prime2Inv % (4294967296 : ℕ) < prime1 →
    k * prime1 * prime2Inv % (4294967296 : ℕ) = 0 ∨ k * prime1 * prime2Inv % (4294967296 : ℕ) = 34871655 ∨
      k * prime1 * prime2Inv % (4294967296 : ℕ) = 69743310 := by
  decide +kernel

theorem quotient_bounds {k : ℤ} (hk : k.natAbs ≤ 4294967296 / prime1) : -41 ≤ k ∧ k ≤ 41 := by
  have h41 : 4294967296 / prime1 = 41 := by decide
  rw [h41] at hk
  omega

theorem prime1_lt : prime1 < 4294967296 := by decide

theorem mix_left_distance (h : i < i') (hi : i' < prime1) (he : mix i j = mix i' j) : i' - i = 69005333 := by
  have hone : ((1 : ℕ) : ℤ) * 1 ≡ 1 [ZMOD (4294967296 : ℕ)] := rfl
  have he' : (j * prime2 + i * 1) % 4294967296 % prime1 = (j * prime2 + i' * 1) % 4294967296 % prime1 := by
    rw [mul_one, mul_one, Nat.add_comm _ i, Nat.add_comm _ i']
    exact he
  obtain ⟨k, hk, hd⟩ := Residues.exists_difference hone h.le (hi.trans prime1_lt) he'
  have hlt : ((i' - i : ℕ) : ℤ) < prime1 := by omega
  rw [hd] at hlt
  obtain ⟨hlo, hhi⟩ := quotient_bounds hk
  rcases left_distance k hlo hhi hlt with h0 | h1
  · omega
  · omega

theorem mix_right_distance (h : j < j') (hj : j' < prime1) (he : mix i j = mix i j') :
    j' - j = 34871655 ∨ j' - j = 69743310 := by
  obtain ⟨k, hk, hd⟩ := Residues.exists_difference prime2_mul_inv h.le (hj.trans prime1_lt) he
  have hlt : ((j' - j : ℕ) : ℤ) < prime1 := by omega
  rw [hd] at hlt
  obtain ⟨hlo, hhi⟩ := quotient_bounds hk
  rcases right_distance k hlo hhi hlt with h0 | h1 | h2
  · omega
  · exact .inl (by omega)
  · exact .inr (by omega)

/-! ### Collisions -/

/-- Below `PRIME1`, a value is hit by at most three second arguments and by at most two first arguments;
    the distances between them are fixed. -/
theorem mix_collisions : (∀ i j j', j < j' → j' < prime1 → mix i j = mix i j' → j' - j = 34871655 ∨ j' - j = 69743310) ∧
    (∀ i v, ((Finset.range prime1).filter fun j => mix i j = v).card ≤ 3) ∧
    (∀ j i i', i < i' → i' < prime1 → mix i j = mix i' j → i' - i = 4294967296 % prime1) ∧
    (∀ j v, ((Finset.range prime1).filter fun i => mix i j = v).card ≤ 2) ∧ 4294967296 % prime1 = 69005333 := by
  have hmod : 4294967296 % prime1 = 69005333 := by decide
  refine ⟨fun i j j' => mix_right_distance, fun i v => ?_, fun j i i' h hi he => ?_, fun j v => ?_, hmod⟩
  · refine Residues.card_le_of_differences (D := {34871655, 69743310}) fun x hx y hy hxy => ?_
    simp only [Finset.mem_filter, Finset.mem_range] at hx hy
    rw [Finset.mem_insert, Finset.mem_singleton]
    exact mix_right_distance hxy hy.1 (hx.2.trans hy.2.symm)
  · rw [hmod]
    exact mix_left_distance h hi he
  · refine Residues.card_le_of_differences (D := {69005333}) fun x hx y hy hxy => ?_
    simp only [Finset.mem_filter, Finset.mem_range] at hx hy
    exact Finset.mem_singleton.mpr (mix_left_distance hxy hy.1 (hx.2.trans hy.2.symm))

/-- The distances are met: three second arguments, and two first arguments, with one value. -/
theorem mix_collisions_met : (mix 0 0 = mix 0 34871655 ∧ mix 0 0 = mix 0 69743310 ∧
      (34871655 - 0 = 34871655 ∨ 34871655 - 0 = 69743310)) ∧
    mix 0 41 = mix 69005333 41 ∧ 69005333 - 0 = 4294967296 % prime1 :=
  ⟨⟨by decide, by decide, mix_collisions.1 0 0 34871655 (by decide) (by decide) (by decide)⟩, by decide,
    mix_collisions.2.2.1 41 0 69005333 (by decide) (by decide) (by decide)⟩

/-! ### The order of two updates of a cell -/

/-- Two second critical sections on the cell with value `v`: what they leave in the two entries of `sig` and in
    the cell is not the same in both orders. -/
theorem mix_orders_differ (ha : a < prime1) (hb : b < prime1) (hne : a ≠ b) (hcell : a % maxElem = b % maxElem) :
    (mix a v, mix b (mix a v), mix b (mix a v)) ≠ (mix a (mix b v), mix b v, mix a (mix b v)) := by
  intro h
  obtain ⟨h1, h2, h3⟩ : mix a v = mix a (mix b v) ∧ mix b (mix a v) = mix b v ∧
      mix b (mix a v) = mix a (mix b v) := by simpa only [Prod.mk.injEq] using h
  -- Whoever comes second leaves what the other leaves when first, so the two agree on `v` itself.
  have hab : mix a v = mix b v := by rw [h1, ← h3, h2]
  unfold maxElem at hcell
  rcases Nat.lt_or_gt_of_ne hne with hlt | hlt
  · have hodd : b - a = 69005333 := mix_left_distance hlt hb hab
    omega
  · have hodd : a - b = 69005333 := mix_left_distance hlt ha hab.symm
    omega

namespace Guarded

variable {c : Config} (mem : Memory) {s : State} {t u : ℕ}

/-- A whole update by thread `t`: its second critical section, from `lockItem(index2)` on, and the store to
    `sig[threadId]`. -/
def update (t : ℕ) : List ℕ := List.replicate 6 t

/-- What two updates by `t` and `u` leave: their entries of `sig`, and cell `index2`. -/
def State.left (t u index2 : ℕ) (s : State) : ℕ × ℕ × ℕ := (s.mem.sig t, s.mem.sig u, unsigned (s.mem.m index2))

theorem run_update (hrun : Running c t s) (hpc : (s.thread t).pc = .lockItem2 a)
    (hfree : s.locks (a % maxElem % nlock) = none) : (machine c mem).run (update t) s = some
      { thread := Function.update s.thread t ⟨(s.thread t).i + 1, .lockItem1⟩
        mem :=
          { sig := Function.update s.mem.sig t (mix a (unsigned (s.mem.m (a % maxElem))))
            m := Function.update s.mem.m (a % maxElem) (signed (mix a (unsigned (s.mem.m (a % maxElem))))) }
        locks := s.locks } := by
  obtain ⟨h1, h2, h3⟩ := hrun
  have hunlock : Function.update (Function.update s.locks (a % maxElem % nlock) (some t)) (a % maxElem % nlock) none =
      s.locks := by
    rw [Function.update_idem, Function.update_eq_self_iff, hfree]
  simp [update, List.replicate, Machine.run, machine, step, Running, State.goto, lockItem, unlockItem, h1, h2, h3, hpc,
    hfree, hunlock]

/-- One update after the other, first by `t` and then by `u`, where both use the cell with value `v`. -/
theorem run_updates (htu : t ≠ u) (ht : Running c t s) (hu : Running c u s) (hta : (s.thread t).pc = .lockItem2 a)
    (hub : (s.thread u).pc = .lockItem2 b) (hfree : s.locks (a % maxElem % nlock) = none)
    (hcell : a % maxElem = b % maxElem) (hv : unsigned (s.mem.m (a % maxElem)) = v) :
    ∃ x, (machine c mem).run (update t ++ update u) s = some x ∧
      x.left t u (a % maxElem) = (mix a v, mix b (mix a v), mix b (mix a v)) := by
  have hfirst := run_update mem ht hta hfree
  rw [hv] at hfirst
  rw [Machine.run_append, hfirst, Option.bind_some, run_update mem (a := b)]
  · refine ⟨_, rfl, ?_⟩
    simp [State.left, ← hcell, htu, unsigned_signed_mix]
  · simpa [Running, Function.update_of_ne htu.symm] using hu
  · simpa [Function.update_of_ne htu.symm] using hub
  · rw [← hcell]
    exact hfree

/-- Two threads about to enter their second critical sections on one cell, with different values of `num`, leave
    a trace of the order in which they go. -/
theorem update_order_left (htu : t ≠ u) (ht : Running c t s) (hu : Running c u s)
    (hta : (s.thread t).pc = .lockItem2 a) (hub : (s.thread u).pc = .lockItem2 b) (ha : a < prime1)
    (hb : b < prime1) (hv : v < prime1) (hne : a ≠ b) (hcell : a % maxElem = b % maxElem)
    (hm : s.mem.m (a % maxElem) = signed v) (hfree : s.locks (a % maxElem % nlock) = none) :
    ∃ x y, (machine c mem).run (update t ++ update u) s = some x ∧
      (machine c mem).run (update u ++ update t) s = some y ∧
      x.left t u (a % maxElem) = (mix a v, mix b (mix a v), mix b (mix a v)) ∧
      y.left t u (a % maxElem) = (mix a (mix b v), mix b v, mix a (mix b v)) ∧
      x.left t u (a % maxElem) ≠ y.left t u (a % maxElem) := by
  have hword : unsigned (s.mem.m (a % maxElem)) = v := by
    rw [hm]
    exact unsigned_signed (hv.trans prime1_lt)
  obtain ⟨x, hx, hxl⟩ := run_updates mem htu ht hu hta hub hfree hcell hword
  obtain ⟨y, hy, hyl⟩ := run_updates mem htu.symm hu ht hub hta (hcell ▸ hfree) hcell.symm (hcell ▸ hword)
  have hyl' : y.left t u (a % maxElem) = (mix a (mix b v), mix b v, mix a (mix b v)) := by
    simp only [State.left, Prod.mk.injEq] at hyl ⊢
    rw [hcell]
    exact ⟨hyl.2.1, hyl.1, hyl.2.2⟩
  refine ⟨x, y, hx, hy, hxl, hyl', ?_⟩
  rw [hxl, hyl']
  exact mix_orders_differ ha hb hne hcell

/-- Threads 1 and 2 before their second critical sections, with 0 and 64 in `num`. -/
def twoUpdates : State := ⟨fun t => ⟨0, .lockItem2 (if t = 1 then 0 else 64)⟩, Memory.init, fun _ => none⟩

theorem update_order_left_two :
    ∃ x y, (machine ⟨2, 1⟩ Memory.init).run (update 1 ++ update 2) twoUpdates = some x ∧
      (machine ⟨2, 1⟩ Memory.init).run (update 2 ++ update 1) twoUpdates = some y ∧
      x.left 1 2 (0 % maxElem) = (mix 0 0, mix 64 (mix 0 0), mix 64 (mix 0 0)) ∧
      y.left 1 2 (0 % maxElem) = (mix 0 (mix 64 0), mix 64 0, mix 0 (mix 64 0)) ∧
      x.left 1 2 (0 % maxElem) ≠ y.left 1 2 (0 % maxElem) :=
  update_order_left Memory.init (by decide) (by decide) (by decide) rfl rfl (by decide) (by decide) (by decide) (by decide)
    (by decide) (by decide) rfl

end Guarded

end Racey
