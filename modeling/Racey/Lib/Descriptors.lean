import Mathlib.Logic.Function.Basic
import Mathlib.Data.List.Basic

/-! Descriptor tables: what a process holds, between what it still needs and what it has yet to close. -/

namespace Descriptors
variable {F : Type*}

/-- A process needs the descriptors in `keep` and is about to close those in `todo`: it holds all of the
    first and nothing beyond the two, and it closes nothing that it needs. -/
structure Holds (keep : F → Prop) (todo : List F) (held : F → Bool) : Prop where
  kept : ∀ fd, keep fd → held fd = true
  within : ∀ fd, held fd = true → keep fd ∨ fd ∈ todo
  apart : ∀ fd ∈ todo, ¬keep fd

namespace Holds
variable {keep keep' : F → Prop} {todo todo' : List F} {held : F → Bool} {fd : F}

theorem none (h : ∀ x, ¬keep x) : Holds keep [] (fun _ => false) where
  kept := fun x hx => (h x hx).elim
  within := fun _ h => by cases h
  apart := by simp

theorem close [DecidableEq F] (h : Holds keep (fd :: todo) held) : Holds keep todo (Function.update held fd false) where
  kept := by
    intro x hx
    have hne : x ≠ fd := fun heq => h.apart fd List.mem_cons_self (heq ▸ hx)
    rw [Function.update_of_ne hne]
    exact h.kept x hx
  within := by
    intro x hx
    by_cases hne : x = fd
    · subst hne
      simp at hx
    · rw [Function.update_of_ne hne] at hx
      exact (h.within x hx).imp_right fun hm => (List.mem_cons.mp hm).resolve_left hne
  apart := fun x hx => h.apart x (List.mem_cons_of_mem _ hx)

/-- When everything has been closed, part of what was needed becomes what is to be closed next. -/
theorem turn (h : Holds keep [] held) (hle : ∀ x, keep' x → keep x)
    (hcover : ∀ x, keep x → keep' x ∨ x ∈ todo') (hapart : ∀ x ∈ todo', ¬keep' x) : Holds keep' todo' held where
  kept := fun x hx => h.kept x (hle x hx)
  within := fun x hx => hcover x ((h.within x hx).resolve_right List.not_mem_nil)
  apart := hapart

theorem not_held (h : Holds keep [] held) (hn : ¬keep fd) : held fd = false :=
  Bool.eq_false_iff.mpr fun hh => hn ((h.within fd hh).resolve_right List.not_mem_nil)

end Holds

end Descriptors
