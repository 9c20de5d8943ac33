import Mathlib.Order.Interval.Finset.Nat
import Racey.Futex

/-! `main`'s group loop gives each group a range of consecutive threads, disjoint from the other groups. -/

namespace Racey.Futex

variable {n f i j k t : ℕ}

/-- The loop sets the next `min left (n + 1 - k)` threads. -/
theorem fill_eq (n left size k : ℕ) (threads : ℕ → Bool) : fill n left size k threads =
    (size + min left (n + 1 - k), k + min left (n + 1 - k),
      fun j => threads j || decide (k ≤ j ∧ j < k + min left (n + 1 - k))) := by
  induction left generalizing size k threads with
  | zero =>
    simp only [fill, Nat.zero_min, Nat.add_zero, Prod.mk.injEq, true_and]
    funext j
    have : ¬ (k ≤ j ∧ j < k) := by omega
    simp [this]
  | succ left ih =>
    simp only [fill]
    split
    · rename_i hk
      have hmin : min (left + 1) (n + 1 - k) = min left (n + 1 - (k + 1)) + 1 := by omega
      rw [ih, hmin]
      simp only [Prod.mk.injEq]
      refine ⟨by omega, by omega, ?_⟩
      funext j
      by_cases hj : j = k
      · subst hj
        simp
      · have : (k + 1 ≤ j ∧ j < k + 1 + min left (n + 1 - (k + 1))) ↔
            (k ≤ j ∧ j < k + (min left (n + 1 - (k + 1)) + 1)) := by omega
        simp only [Function.update_of_ne hj, this]
    · rename_i hk
      have hmin : min (left + 1) (n + 1 - k) = 0 := by omega
      rw [hmin]
      simp only [Nat.add_zero, Prod.mk.injEq, true_and]
      funext j
      have : ¬ (k ≤ j ∧ j < k) := by omega
      simp [this]

def groupLength (n f k : ℕ) : ℕ := min ((if n < f then k + n else k + n / f) - k) (n + 1 - k)

theorem makeGroup_eq : makeGroup n f k =
    { owner := -(groupLength n f k : ℤ), round := 0, threads := fun j => decide (k ≤ j ∧ j < k + groupLength n f k),
      begin := k, stop := k + groupLength n f k } := by
  simp only [makeGroup, fill_eq, Nat.zero_add, Bool.false_or]
  rfl

theorem groupStart_succ : groupStart n f (i + 1) = groupStart n f i + groupLength n f (groupStart n f i) := by
  rw [groupStart, makeGroup_eq]

theorem groupStart_pos : 0 < groupStart n f i := by
  induction i with
  | zero => exact Nat.one_pos
  | succ i ih =>
    rw [groupStart_succ]
    omega

theorem groupStart_le : groupStart n f i ≤ n + 1 := by
  induction i with
  | zero => exact Nat.le_add_left 1 n
  | succ i ih =>
    rw [groupStart_succ, groupLength]
    omega

theorem groupStart_mono (h : i ≤ j) : groupStart n f i ≤ groupStart n f j := by
  induction h with
  | refl => exact Nat.le_refl _
  | step _ ih =>
    rw [groupStart_succ]
    omega

@[simp] theorem groups_begin : (groups n f i).begin = groupStart n f i := by rw [groups, makeGroup_eq]

@[simp] theorem groups_stop : (groups n f i).stop = groupStart n f (i + 1) := by
  rw [groupStart_succ, groups, makeGroup_eq]

theorem groups_owner : (groups n f i).owner = -((groupStart n f (i + 1) - groupStart n f i : ℕ) : ℤ) := by
  rw [groupStart_succ, Nat.add_sub_cancel_left, groups, makeGroup_eq]

theorem groups_threads : (groups n f i).threads t = true ↔ groupStart n f i ≤ t ∧ t < groupStart n f (i + 1) := by
  rw [groupStart_succ, groups, makeGroup_eq]
  exact decide_eq_true_iff

theorem groups_disjoint (hi : (groups n f i).threads t = true) (hj : (groups n f j).threads t = true) : i = j := by
  rw [groups_threads] at hi hj
  rcases Nat.lt_trichotomy i j with h | h | h
  · have : groupStart n f (i + 1) ≤ groupStart n f j := groupStart_mono h
    omega
  · exact h
  · have : groupStart n f (j + 1) ≤ groupStart n f i := groupStart_mono h
    omega

theorem findGroup_eq (hi : i < f) (ht : (groups n f i).threads t = true) : findGroup n f t = i := by
  obtain ⟨j, hj⟩ := Option.isSome_iff_exists.mp
    (List.find?_isSome.mpr ⟨i, List.mem_range.mpr hi, ht⟩ :
      ((List.range f).find? fun i => (groups n f i).threads t).isSome)
  rw [findGroup, hj, Option.getD_some]
  have hp : (groups n f j).threads t = true := List.find?_some (p := fun i => (groups n f i).threads t) hj
  exact groups_disjoint hp ht

/-- The members of a group when the threads start. -/
theorem groups_live (hn : n ≤ 32) : (groups n f i).live = Finset.Ico (groupStart n f i) (groupStart n f (i + 1)) := by
  ext t
  simp only [FutexGroup.live, Finset.mem_filter, Finset.mem_range, groups_threads, Finset.mem_Ico, slots]
  have : groupStart n f (i + 1) ≤ n + 1 := groupStart_le
  omega

theorem groups_owner_eq_card (hn : n ≤ 32) : (groups n f i).owner = -((groups n f i).live.card : ℤ) := by
  rw [groups_live hn, Nat.card_Ico, groups_owner]

/-! ### Coverage -/

/-- With at least as many threads as groups, each group takes `n / f` threads. -/
theorem groupStart_eq (hf : f ≤ n) (hi : i ≤ f) : groupStart n f i = 1 + i * (n / f) := by
  induction i with
  | zero => rw [Nat.zero_mul]; rfl
  | succ i ih =>
    have hle : (i + 1) * (n / f) ≤ n := (Nat.mul_le_mul_right _ hi).trans (Nat.mul_div_le n f)
    rw [Nat.succ_mul] at hle ⊢
    rw [groupStart_succ, ih (by omega), groupLength, if_neg hf.not_gt]
    generalize i * (n / f) = p, n / f = q at *
    omega

/-- With fewer threads than groups, the first group takes them all. -/
theorem groupStart_of_lt (hf : n < f) : groupStart n f (i + 1) = n + 1 := by
  induction i with
  | zero =>
    rw [groupStart_succ, groupLength, if_pos hf]
    simp only [groupStart]
    omega
  | succ i ih =>
    rw [groupStart_succ, ih, groupLength]
    omega

/-- The last group ends after the last thread exactly when no threads are left by the division. -/
theorem groupStart_end_iff : groupStart n f f = n + 1 ↔ n < f ∨ f ∣ n := by
  rcases Nat.lt_or_ge n f with hf | hf
  · obtain ⟨i, rfl⟩ : ∃ i, f = i + 1 := ⟨f - 1, by omega⟩
    exact iff_of_true (groupStart_of_lt hf) (.inl hf)
  · have hdvd : f ∣ n ↔ f * (n / f) = n := ⟨Nat.mul_div_cancel', fun h => ⟨n / f, h.symm⟩⟩
    rw [groupStart_eq hf le_rfl, hdvd]
    omega

theorem exists_group_iff : (∃ i < k, groupStart n f i ≤ t ∧ t < groupStart n f (i + 1)) ↔
    1 ≤ t ∧ t < groupStart n f k := by
  constructor
  · rintro ⟨i, hi, hlo, hhi⟩
    exact ⟨groupStart_pos.trans_le hlo, hhi.trans_le (groupStart_mono hi)⟩
  · rintro ⟨h1, ht⟩
    induction k with
    | zero => exact absurd ht h1.not_gt
    | succ k ih =>
      rcases Nat.lt_or_ge t (groupStart n f k) with hlt | hge
      · obtain ⟨i, hi, hmem⟩ := ih hlt
        exact ⟨i, hi.trans (Nat.lt_succ_self k), hmem⟩
      · exact ⟨k, Nat.lt_succ_self k, hge, ht⟩

/-- What the group loop is to leave behind: consecutive ranges that are disjoint and hold every thread, each
    thread marked in the group of its range alone, the owner of a group the negated number of its members,
    and so every thread in the group that `ThreadBody` finds for it. -/
structure Partitioned (n f : ℕ) : Prop where
  first : 0 < f → (groups n f 0).begin = 1
  consecutive : ∀ i, i + 1 < f → (groups n f (i + 1)).begin = (groups n f i).stop
  disjoint : ∀ i < f, ∀ j < f, i ≠ j → Disjoint (Finset.Ico (groups n f i).begin (groups n f i).stop)
    (Finset.Ico (groups n f j).begin (groups n f j).stop)
  covers : ∀ t, 1 ≤ t → t ≤ n → ∃ i < f, (groups n f i).begin ≤ t ∧ t < (groups n f i).stop
  threads : ∀ i < f, ∀ k, (groups n f i).threads k = true ↔ (groups n f i).begin ≤ k ∧ k < (groups n f i).stop
  owner : ∀ i < f, (groups n f i).owner =
    -(((Finset.Icc 1 n).filter fun k => (groups n f i).threads k = true).card : ℤ)
  placed : ∀ t, 1 ≤ t → t ≤ n → (groups n f (findGroup n f t)).threads t = true

/-- The members of a group are the threads of its range. -/
theorem groups_members : (Finset.Icc 1 n).filter (fun k => (groups n f i).threads k = true) =
    Finset.Ico (groupStart n f i) (groupStart n f (i + 1)) := by
  ext k
  have hpos : 0 < groupStart n f i := groupStart_pos
  have hle : groupStart n f (i + 1) ≤ n + 1 := groupStart_le
  rw [Finset.mem_filter, Finset.mem_Icc, Finset.mem_Ico, groups_threads]
  omega

/-- Whatever the remainder, the ranges are consecutive and disjoint, and each group's mark and owner agree with
    its range; so it is the coverage that decides. -/
theorem partitioned_of_covers (h : groupStart n f f = n + 1) : Partitioned n f where
  first _ := groups_begin
  consecutive i _ := by rw [groups_begin, groups_stop]
  disjoint i _ j _ hij := by
    rw [Finset.disjoint_left]
    intro t hi hj
    rw [groups_begin, groups_stop, Finset.mem_Ico, ← groups_threads] at hi hj
    exact hij (groups_disjoint hi hj)
  covers t h1 ht := by
    simp only [groups_begin, groups_stop]
    exact exists_group_iff.mpr ⟨h1, by omega⟩
  threads i _ k := by rw [groups_begin, groups_stop, groups_threads]
  owner i _ := by rw [groups_members, Nat.card_Ico, groups_owner]
  placed t h1 ht := by
    obtain ⟨i, hi, hmem⟩ := exists_group_iff.mpr ⟨h1, (by omega : t < groupStart n f f)⟩
    rw [findGroup_eq hi (groups_threads.mpr hmem)]
    exact groups_threads.mpr hmem

/-- The groups take in every thread exactly when there are fewer threads than groups or the number of groups
    divides the number of threads. -/
theorem partitioned_iff (n f : ℕ) : Partitioned n f ↔ n < f ∨ f ∣ n := by
  rw [← groupStart_end_iff]
  constructor
  · intro h
    have hle : groupStart n f f ≤ n + 1 := groupStart_le
    rcases n.eq_zero_or_pos with rfl | hn
    · exact hle.antisymm groupStart_pos
    · have hcov := h.covers n hn le_rfl
      simp only [groups_begin, groups_stop] at hcov
      exact hle.antisymm (exists_group_iff.mp hcov).2
  · exact partitioned_of_covers

/-- Five threads and four groups: thread 5 is in no group, and `ThreadBody` asserts that it is in the last. -/
theorem not_partitioned_five : ¬Partitioned 5 4 ∧ (groups 5 4 (findGroup 5 4 5)).threads 5 = false :=
  ⟨fun h => absurd (h.placed 5 (by decide) (by decide)) (by decide), by decide⟩

end Racey.Futex
