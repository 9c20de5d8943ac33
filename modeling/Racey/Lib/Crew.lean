import Racey.Lib.ForkJoin

/-! Fork–join programs whose workers come into being when they are created: they do nothing before that, and then begin as if
    they had been there from the start. -/

/-- The workers and what the main party does with them; `born` makes a state what it is when all workers are there. -/
structure Crew (ω α ρ : Type*) where
  n : ℕ
  init : ω
  step : α → ω → Option ω
  /-- The worker whose move it is. -/
  owner : α → ℕ
  spawn : ℕ → ω → ω
  unborn : ℕ → ω → Prop
  born : ω → ω
  ended : ℕ → ω → Bool
  first : ρ
  rest : ω → ρ → Option ρ

namespace Crew
open ForkJoin (Main)

variable {ω α ρ : Type*} (C : Crew ω α ρ)

def stepMain (s : ForkJoin.State ω ρ) : Option (ForkJoin.State ω ρ) :=
  match s.main with
  | .create i => some (if i < C.n then ⟨.create (i + 1), C.spawn (i + 1) s.workers⟩ else { s with main := .join 0 })
  | .join i =>
    if i < C.n then if C.ended (i + 1) s.workers then some { s with main := .join (i + 1) } else none
    else some { s with main := .rest C.first }
  | .rest r => (C.rest s.workers r).map fun r => { s with main := .rest r }

/-- The moves: `none` is a step of the main party. -/
def stepAny : Option α → ForkJoin.State ω ρ → Option (ForkJoin.State ω ρ)
  | none, s => C.stepMain s
  | some a, s => (C.step a s.workers).map fun w => { s with workers := w }

def machine : Machine (ForkJoin.State ω ρ) (Option α) := ⟨⟨.create 0, C.init⟩, C.stepAny⟩

/-- The program with workers that are there from the start. -/
def forkJoin : ForkJoin ω α ρ where
  n := C.n
  workers := ⟨C.born C.init, fun a w => if 1 ≤ C.owner a ∧ C.owner a ≤ C.n then C.step a w else none⟩
  owner := C.owner
  ended := C.ended
  first := C.first
  rest := C.rest

/-- What makes the two alike. -/
structure Lawful : Prop where
  unborn_init : ∀ t, C.unborn t C.init
  none_of_unborn : ∀ a w, C.unborn (C.owner a) w → C.step a w = none
  step_born : ∀ a w, ¬ C.unborn (C.owner a) w → (C.step a w).map C.born = C.step a (C.born w)
  unborn_step : ∀ a w w' t, C.step a w = some w' → (C.unborn t w' ↔ C.unborn t w)
  unborn_spawn : ∀ t u w, C.unborn t (C.spawn u w) ↔ t ≠ u ∧ C.unborn t w
  born_spawn : ∀ t w, 1 ≤ t → t ≤ C.n → C.unborn t w → C.born (C.spawn t w) = C.born w
  ended_born : ∀ t w, C.ended t (C.born w) = C.ended t w
  rest_born : ∀ w r, C.rest (C.born w) r = C.rest w r

/-- The workers that exist are those that the main party has created. -/
structure Born (s : ForkJoin.State ω ρ) : Prop where
  iff : ∀ t, ¬ C.unborn t s.workers ↔ 1 ≤ t ∧ t ≤ C.forkJoin.created s.main
  le : C.forkJoin.created s.main ≤ C.n

def view (s : ForkJoin.State ω ρ) : ForkJoin.State ω ρ := { s with workers := C.born s.workers }

variable {C} {s s' : ForkJoin.State ω ρ} {w : ω} {r : ρ}

/-- The main party goes on, and creates nobody. -/
theorem Born.goto {m : Main ρ} (h : C.Born s) (hm : C.forkJoin.created m = C.forkJoin.created s.main) :
    C.Born { s with main := m } where
  iff t := by
    rw [hm]
    exact h.iff t
  le := hm ▸ h.le

theorem Born.main (H : C.Lawful) (h : C.Born s) (hs : C.stepMain s = some s') : C.Born s' := by
  unfold stepMain at hs
  split at hs
  · rename_i i hmain
    cases hs
    split
    · rename_i hi
      refine ⟨fun t => ?_, hi⟩
      have hold := h.iff t
      rw [hmain] at hold
      simp only [ForkJoin.created] at hold ⊢
      rw [H.unborn_spawn]
      by_cases ht : t = i + 1
      · simp [ht]
      · rw [and_iff_right ht, hold]
        omega
    · rename_i hi
      refine h.goto ?_
      have hle := h.le
      rw [hmain] at hle ⊢
      exact le_antisymm (not_lt.mp hi) hle
  · rename_i i hmain
    split at hs
    · obtain ⟨-, ⟨⟩⟩ := Option.ite_none_right_eq_some.mp hs
      exact h.goto (by rw [hmain]; rfl)
    · cases hs
      exact h.goto (by rw [hmain]; rfl)
  · rename_i r hmain
    obtain ⟨r', -, rfl⟩ := Option.map_eq_some_iff.mp hs
    exact h.goto (by rw [hmain]; rfl)

theorem Born.worker {a : α} (H : C.Lawful) (h : C.Born s) (hs : C.step a s.workers = some w) :
    C.Born { s with workers := w } where
  iff t := (not_congr (H.unborn_step a _ _ t hs)).trans (h.iff t)
  le := h.le

theorem born_of_reachable (H : C.Lawful) (h : C.machine.Reachable s) : C.Born s := by
  refine h.invariant ⟨fun t => ?_, Nat.zero_le _⟩ fun a s s' hB _ hs => ?_
  · refine iff_of_false (not_not.mpr (H.unborn_init t)) fun ⟨h1, h0⟩ => ?_
    exact absurd h1 (Nat.not_le.mpr (Nat.lt_succ_of_le h0))
  · cases a with
    | none => exact hB.main H hs
    | some a =>
      obtain ⟨w, hw, rfl⟩ := Option.map_eq_some_iff.mp hs
      exact hB.worker H hw

theorem view_main (H : C.Lawful) (h : C.Born s) : (C.stepMain s).map C.view = C.forkJoin.stepMain (C.view s) := by
  unfold stepMain ForkJoin.stepMain
  simp only [view]
  cases hmain : s.main with
  | create i =>
    by_cases hi : i < C.n
    · have hunborn : C.unborn (i + 1) s.workers := by
        refine not_not.mp fun hnot => ?_
        have hle := ((h.iff (i + 1)).mp hnot).2
        rw [hmain] at hle
        exact absurd hle (Nat.not_succ_le_self i)
      simp only [hi, if_true, show i < C.forkJoin.n from hi, Option.map_some, view,
        H.born_spawn _ _ (Nat.le_add_left 1 i) hi hunborn]
    · simp only [hi, if_false, show ¬ i < C.forkJoin.n from hi, Option.map_some, view]
  | join i =>
    simp only [show C.forkJoin.ended = C.ended from rfl, H.ended_born]
    rw [apply_ite (Option.map _), apply_ite (Option.map _)]
    rfl
  | rest r =>
    simp only [show C.forkJoin.rest = C.rest from rfl, H.rest_born]
    rw [Option.map_map]
    rfl

theorem view_worker (H : C.Lawful) (h : C.Born s) (a : α) :
    (C.stepAny (some a) s).map C.view = C.forkJoin.step (some a) (C.view s) := by
  show ((C.step a s.workers).map _).map C.view = if C.owner a ≤ C.forkJoin.created s.main then
    Option.map _ (if 1 ≤ C.owner a ∧ C.owner a ≤ C.n then C.step a (C.born s.workers) else none) else none
  by_cases hborn : C.unborn (C.owner a) s.workers
  · rw [H.none_of_unborn a _ hborn]
    split
    · rename_i hle
      rw [if_neg fun ht => (h.iff (C.owner a)).mpr ⟨ht.1, hle⟩ hborn]
      rfl
    · rfl
  · obtain ⟨h1, hle⟩ := (h.iff (C.owner a)).mp hborn
    rw [if_pos hle, if_pos ⟨h1, hle.trans h.le⟩, ← H.step_born a _ hborn, Option.map_map, Option.map_map]
    rfl

/-- It makes no difference when the workers come into being. -/
theorem mirrors (H : C.Lawful) : Machine.Mirrors C.machine C.forkJoin.machine id C.view where
  init := rfl
  onto := Function.surjective_id
  step a s h := by
    have hB := born_of_reachable H h
    cases a with
    | none => exact view_main H hB
    | some a => exact view_worker H hB a

end Crew
