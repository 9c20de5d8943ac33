import Mathlib.Data.Finset.Card
import Mathlib.Logic.Function.Basic

/-! A cyclic barrier for a fixed set of parties. A party that waits remembers the cycle in which it arrived, and
    may go on once that cycle is complete. -/

/-- How many parties have arrived in the current cycle, and how many cycles are complete. -/
structure Barrier where
  arrived : ℕ
  cycle : ℕ

namespace Barrier
variable {ι : Type*} {P : Finset ι} {b : Barrier} {calls : ι → ℕ}

def init : Barrier := ⟨0, 0⟩

/-- A party arrives at a barrier for `n`. The last one completes the cycle. -/
def wait (n : ℕ) (b : Barrier) : Barrier :=
  if b.arrived + 1 = n then ⟨0, b.cycle + 1⟩ else ⟨b.arrived + 1, b.cycle⟩

/-- A party that arrived in the given cycle may go on. -/
def Released (b : Barrier) (cycle : ℕ) : Prop := b.cycle ≠ cycle

instance (cycle : ℕ) : Decidable (b.Released cycle) := inferInstanceAs (Decidable (_ ≠ _))

/-- The barrier agrees with how often each party has arrived: nobody is a whole cycle behind or ahead. -/
structure Counts (P : Finset ι) (b : Barrier) (calls : ι → ℕ) : Prop where
  calls_eq : ∀ t ∈ P, calls t = b.cycle ∨ calls t = b.cycle + 1
  arrived_eq : (P.filter fun t => calls t = b.cycle + 1).card = b.arrived
  arrived_lt : b.arrived < P.card

theorem Counts.init (hP : P.Nonempty) : Counts P init fun _ => 0 where
  calls_eq _ _ := .inl rfl
  arrived_eq := by simp [Barrier.init]
  arrived_lt := Finset.card_pos.mpr hP

theorem Counts.wait [DecidableEq ι] (h : Counts P b calls) {t : ι} (ht : t ∈ P) (hcalls : calls t = b.cycle) :
    Counts P (b.wait P.card) (Function.update calls t (calls t + 1)) := by
  have hnew : (P.filter fun u => Function.update calls t (calls t + 1) u = b.cycle + 1) =
      insert t (P.filter fun u => calls u = b.cycle + 1) := by
    ext u
    by_cases hu : u = t
    · subst hu
      simp [ht, hcalls]
    · simp [hu]
  have hcard : (P.filter fun u => Function.update calls t (calls t + 1) u = b.cycle + 1).card = b.arrived + 1 := by
    rw [hnew, Finset.card_insert_of_notMem (by simp [hcalls]), h.arrived_eq]
  have hle : ∀ u ∈ P, Function.update calls t (calls t + 1) u = b.cycle ∨
      Function.update calls t (calls t + 1) u = b.cycle + 1 := by
    intro u hu
    by_cases hut : u = t
    · subst hut
      simp [hcalls]
    · simpa [hut] using h.calls_eq u hu
  by_cases hlast : b.arrived + 1 = P.card
  · -- Everyone has arrived, so the next cycle starts with nobody.
    have hall : ∀ u ∈ P, Function.update calls t (calls t + 1) u = b.cycle + 1 := by
      have heq := Finset.eq_of_subset_of_card_le (Finset.filter_subset
        (fun u => Function.update calls t (calls t + 1) u = b.cycle + 1) P) (by omega)
      intro u hu
      rw [← heq] at hu
      exact (Finset.mem_filter.mp hu).2
    have hwait : b.wait P.card = ⟨0, b.cycle + 1⟩ := if_pos hlast
    rw [hwait]
    refine ⟨fun u hu => .inl (hall u hu), ?_, by simp only; omega⟩
    refine Finset.card_eq_zero.mpr (Finset.filter_eq_empty_iff.mpr fun u hu => ?_)
    rw [hall u hu]
    simp
  · have hwait : b.wait P.card = ⟨b.arrived + 1, b.cycle⟩ := if_neg hlast
    rw [hwait]
    exact ⟨hle, hcard, by have := h.arrived_lt; simp only; omega⟩

/-- Someone is still to arrive in the current cycle. -/
theorem Counts.exists_absent (h : Counts P b calls) : ∃ t ∈ P, calls t = b.cycle := by
  by_contra hnone
  push Not at hnone
  have hall : (P.filter fun t => calls t = b.cycle + 1) = P :=
    Finset.filter_true_of_mem fun t ht => (h.calls_eq t ht).resolve_left (hnone t ht)
  have := h.arrived_eq
  have := h.arrived_lt
  rw [hall] at *
  omega

theorem cycle_le_wait (n : ℕ) (b : Barrier) : b.cycle ≤ (b.wait n).cycle := by
  unfold Barrier.wait
  split <;> simp

end Barrier
