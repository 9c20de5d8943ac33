import Mathlib.Logic.Function.Basic

/-! Resources that are each in one holder's hands at a time: handed out, passed on and given back. -/

namespace Holders
variable {η ρ : Type*} {holds : η → Option ρ} {live : ρ → Prop} {h h' : η} {r : ρ}

/-- The live resources are those that somebody holds, and nobody holds one that another holds. -/
structure Owned (holds : η → Option ρ) (live : ρ → Prop) : Prop where
  live_iff : ∀ r, live r ↔ ∃ h, holds h = some r
  unique : ∀ h h' r, holds h = some r → holds h' = some r → h = h'

theorem Owned.empty : Owned (fun _ : η => (none : Option ρ)) fun _ => False where
  live_iff r := by simp
  unique := by simp

variable [DecidableEq η]

/-- A new resource is handed to someone with free hands. -/
theorem Owned.give (H : Owned holds live) (hr : ¬ live r) (hh : holds h = none) :
    Owned (Function.update holds h (some r)) fun r' => r' = r ∨ live r' where
  live_iff r' := by
    constructor
    · rintro (rfl | hl)
      · exact ⟨h, Function.update_self ..⟩
      · obtain ⟨g, hg⟩ := (H.live_iff r').mp hl
        have hne : g ≠ h := fun heq => by rw [heq, hh] at hg; cases hg
        exact ⟨g, by rw [Function.update_of_ne hne, hg]⟩
    · rintro ⟨g, hg⟩
      by_cases hgh : g = h
      · rw [hgh, Function.update_self] at hg
        exact .inl (Option.some.inj hg).symm
      · rw [Function.update_of_ne hgh] at hg
        exact .inr ((H.live_iff r').mpr ⟨g, hg⟩)
  unique g g' r' hg hg' := by
    have hnew : ∀ k, k ≠ h → holds k ≠ some r := fun k _ hk => hr ((H.live_iff r).mpr ⟨k, hk⟩)
    by_cases h1 : g = h <;> by_cases h2 : g' = h
    · rw [h1, h2]
    · subst h1
      rw [Function.update_self] at hg
      rw [Function.update_of_ne h2, ← hg] at hg'
      exact absurd hg' (hnew g' h2)
    · subst h2
      rw [Function.update_self] at hg'
      rw [Function.update_of_ne h1, ← hg'] at hg
      exact absurd hg (hnew g h1)
    · rw [Function.update_of_ne h1] at hg
      rw [Function.update_of_ne h2] at hg'
      exact H.unique g g' r' hg hg'

/-- A holder gives its resource back. -/
theorem Owned.drop (H : Owned holds live) (hh : holds h = some r) :
    Owned (Function.update holds h none) fun r' => r' ≠ r ∧ live r' where
  live_iff r' := by
    constructor
    · rintro ⟨hne, hl⟩
      obtain ⟨g, hg⟩ := (H.live_iff r').mp hl
      have hgh : g ≠ h := fun heq => hne (Option.some.inj (by rw [← hg, heq, hh]))
      exact ⟨g, by rw [Function.update_of_ne hgh, hg]⟩
    · rintro ⟨g, hg⟩
      have hgh : g ≠ h := fun heq => by rw [heq, Function.update_self] at hg; cases hg
      rw [Function.update_of_ne hgh] at hg
      exact ⟨fun heq => hgh (H.unique g h r' hg (heq ▸ hh)), (H.live_iff r').mpr ⟨g, hg⟩⟩
  unique g g' r' hg hg' := by
    have hgh : g ≠ h := fun heq => by rw [heq, Function.update_self] at hg; cases hg
    have hgh' : g' ≠ h := fun heq => by rw [heq, Function.update_self] at hg'; cases hg'
    rw [Function.update_of_ne hgh] at hg
    rw [Function.update_of_ne hgh'] at hg'
    exact H.unique g g' r' hg hg'

/-- A holder passes its resource on to someone with free hands. -/
theorem Owned.pass (H : Owned holds live) (hh : holds h = some r) (hh' : holds h' = none) :
    Owned (Function.update (Function.update holds h none) h' (some r)) live := by
  have hne : h' ≠ h := fun heq => by rw [heq, hh] at hh'; cases hh'
  have hgiven := (H.drop hh).give (r := r) (h := h') (by simp) (by rw [Function.update_of_ne hne, hh'])
  have hlive : (fun r' => r' = r ∨ r' ≠ r ∧ live r') = live := by
    funext r'
    refine propext ⟨?_, fun hl => ?_⟩
    · rintro (rfl | ⟨-, hl⟩)
      · exact (H.live_iff r').mpr ⟨h, hh⟩
      · exact hl
    · by_cases heq : r' = r
      · exact .inl heq
      · exact .inr ⟨heq, hl⟩
  rwa [hlive] at hgiven

end Holders
