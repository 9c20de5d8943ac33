import Mathlib.Data.Finset.Card
import Racey.Lib.Machine

/-! A latch for a fixed set of parties. Each party counts it down once, and may pass when it has come to zero. -/

/-- The counter, who has counted it down, and who has passed. -/
structure Latch (ι : Type*) where
  counter : ℤ
  done : Finset ι
  passed : Finset ι

namespace Latch
variable {ι : Type*} {P : Finset ι} {l l' : Latch ι} {i : ι}

inductive Move (ι : Type*)
  | countDown (i : ι)
  | pass (i : ι)

/-- The counter tells how many are still to count down, and somebody has passed only if nobody is. -/
structure Sound (P : Finset ι) (l : Latch ι) : Prop where
  done_subset : l.done ⊆ P
  counter_eq : l.counter = P.card - l.done.card
  zero_of_passed : ∀ i ∈ l.passed, l.counter = 0

theorem Sound.nonneg (h : Sound P l) : 0 ≤ l.counter := by
  have hle := Finset.card_le_card h.done_subset
  rw [h.counter_eq]
  omega

theorem Sound.counter_eq_zero (h : Sound P l) : l.counter = 0 ↔ l.done = P := by
  constructor
  · intro hzero
    refine Finset.eq_of_subset_of_card_le h.done_subset ?_
    have heq := h.counter_eq
    omega
  · intro hall
    rw [h.counter_eq, hall, Int.sub_self]

variable [DecidableEq ι]

def step (P : Finset ι) : Move ι → Latch ι → Option (Latch ι)
  | .countDown i, l =>
    if i ∈ P ∧ i ∉ l.done then some { l with counter := l.counter - 1, done := insert i l.done } else none
  | .pass i, l => if i ∈ l.done ∧ l.counter = 0 then some { l with passed := insert i l.passed } else none

def machine (P : Finset ι) : Machine (Latch ι) (Move ι) := ⟨⟨P.card, ∅, ∅⟩, step P⟩

theorem step_countDown (hi : i ∈ P) (hdone : i ∉ l.done) :
    step P (.countDown i) l = some { l with counter := l.counter - 1, done := insert i l.done } := if_pos ⟨hi, hdone⟩

theorem step_pass (hdone : i ∈ l.done) (hzero : l.counter = 0) :
    step P (.pass i) l = some { l with passed := insert i l.passed } := if_pos ⟨hdone, hzero⟩

theorem Sound.step {a : Move ι} (h : Sound P l) (hs : step P a l = some l') : Sound P l' := by
  cases a with
  | countDown i =>
    obtain ⟨⟨hi, hdone⟩, ⟨⟩⟩ := Option.ite_none_right_eq_some.mp hs
    refine ⟨Finset.insert_subset hi h.done_subset, ?_, fun j hj => ?_⟩
    · have heq := h.counter_eq
      simp only [Finset.card_insert_of_notMem hdone]
      omega
    · -- Somebody has passed, so nobody is left to count down.
      have hall := h.counter_eq_zero.mp (h.zero_of_passed j hj)
      exact absurd (hall ▸ hi) hdone
  | pass i =>
    obtain ⟨⟨-, hzero⟩, ⟨⟩⟩ := Option.ite_none_right_eq_some.mp hs
    exact ⟨h.done_subset, h.counter_eq, fun _ _ => hzero⟩

theorem sound_of_reachable (h : (machine P).Reachable l) : Sound P l := by
  have hstart : Sound P ⟨P.card, ∅, ∅⟩ := ⟨Finset.empty_subset P, by simp, fun i hi => absurd hi (Finset.notMem_empty i)⟩
  exact h.invariant hstart fun a l l' hl _ hs => hl.step hs

/-- Once at zero the latch stays there. -/
theorem Sound.stays_zero {a : Move ι} (h : Sound P l) (hzero : l.counter = 0) (hs : Latch.step P a l = some l') :
    l'.counter = 0 := by
  cases a with
  | countDown i =>
    obtain ⟨⟨hi, hdone⟩, -⟩ := Option.ite_none_right_eq_some.mp hs
    exact absurd (h.counter_eq_zero.mp hzero ▸ hi) hdone
  | pass i =>
    obtain ⟨-, ⟨⟩⟩ := Option.ite_none_right_eq_some.mp hs
    exact hzero

end Latch
