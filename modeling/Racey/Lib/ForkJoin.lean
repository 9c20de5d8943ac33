import Mathlib.Logic.Relation
import Racey.Lib.Machine

/-! Programs whose main party creates workers `1` to `n` one after the other, waits for them in the same order, and goes on
    alone once all have ended. -/

/-- The workers as a machine of their own, in which all of them are there from the start, and what is left for the main party
    to do after the joins: it reads the state of the workers, and `first` is where it begins. -/
structure ForkJoin (ω α ρ : Type*) where
  n : ℕ
  workers : Machine ω α
  /-- The worker whose move it is. -/
  owner : α → ℕ
  ended : ℕ → ω → Bool
  first : ρ
  rest : ω → ρ → Option ρ

namespace ForkJoin
variable {ω α ρ : Type*}

/-- Where the main party is. -/
inductive Main (ρ : Type*)
  | create (i : ℕ)
  | join (i : ℕ)
  | rest (r : ρ)

structure State (ω ρ : Type*) where
  main : Main ρ
  workers : ω

variable (P : ForkJoin ω α ρ)

/-- How many workers there are. -/
def created : Main ρ → ℕ
  | .create i => i
  | _ => P.n

def stepMain (s : State ω ρ) : Option (State ω ρ) :=
  match s.main with
  | .create i => some { s with main := if i < P.n then .create (i + 1) else .join 0 }
  | .join i =>
    if i < P.n then if P.ended (i + 1) s.workers then some { s with main := .join (i + 1) } else none
    else some { s with main := .rest P.first }
  | .rest r => (P.rest s.workers r).map fun r => { s with main := .rest r }

/-- The moves: `none` is a step of the main party. -/
def step : Option α → State ω ρ → Option (State ω ρ)
  | none, s => P.stepMain s
  | some a, s =>
    if P.owner a ≤ P.created s.main then (P.workers.step a s.workers).map fun w => { s with workers := w } else none

def machine : Machine (State ω ρ) (Option α) := ⟨⟨.create 0, P.workers.init⟩, P.step⟩

/-- All workers have ended. -/
def Over (w : ω) : Prop := ∀ t, 1 ≤ t → t ≤ P.n → P.ended t w = true

/-- The main party gets to `r` by itself. -/
def Tail (w : ω) : ρ → Prop := Relation.ReflTransGen (fun r r' => P.rest w r = some r') P.first

/-- The moves are those of workers `1` to `n` that have not ended, and who has ended stays so. -/
structure Proper : Prop where
  owned : ∀ a w w', P.workers.step a w = some w' → 1 ≤ P.owner a ∧ P.owner a ≤ P.n ∧ P.ended (P.owner a) w = false
  stays : ∀ a w w' t, P.workers.step a w = some w' → P.ended t w = true → P.ended t w' = true

/-- Whom the main party has waited for. -/
def Joined (s : State ω ρ) : Prop :=
  match s.main with
  | .create i => i ≤ P.n
  | .join i => ∀ t, 1 ≤ t → t ≤ i → P.ended t s.workers = true
  | .rest r => P.Over s.workers ∧ P.Tail s.workers r

variable {P} {s s' : State ω ρ} {w w' : ω} {r : ρ}

theorem step_worker_eq_some {a : α} : P.step (some a) s = some s' ↔
    P.owner a ≤ P.created s.main ∧ ∃ w, P.workers.step a s.workers = some w ∧ s' = { s with workers := w } := by
  simp only [step, Option.ite_none_right_eq_some, Option.map_eq_some_iff, @eq_comm _ s']

theorem Joined.created_le (h : P.Joined s) : P.created s.main ≤ P.n := by
  unfold Joined at h
  cases hmain : s.main with
  | create i =>
    rw [hmain] at h
    exact h
  | join i | rest r => exact le_rfl

/-! ### Runs project to the workers -/

theorem Joined.main (h : P.Joined s) (hs : P.stepMain s = some s') : P.Joined s' ∧ s'.workers = s.workers := by
  unfold Joined at h
  unfold stepMain at hs
  split at hs
  · rename_i i hmain
    rw [hmain] at h
    cases hs
    split
    · rename_i hi
      exact ⟨hi, rfl⟩
    · exact ⟨fun t h1 h0 => absurd h0 (by omega), rfl⟩
  · rename_i i hmain
    rw [hmain] at h
    split at hs
    · obtain ⟨hended, ⟨⟩⟩ := Option.ite_none_right_eq_some.mp hs
      refine ⟨fun t h1 ht => ?_, rfl⟩
      rcases Nat.le_succ_iff.mp ht with ht | rfl
      · exact h t h1 ht
      · exact hended
    · rename_i hi
      cases hs
      exact ⟨⟨fun t h1 ht => h t h1 (ht.trans (not_lt.mp hi)), .refl⟩, rfl⟩
  · rename_i r hmain
    rw [hmain] at h
    obtain ⟨r', hr, rfl⟩ := Option.map_eq_some_iff.mp hs
    exact ⟨⟨h.1, h.2.tail hr⟩, rfl⟩

theorem Joined.worker {a : α} (H : P.Proper) (h : P.Joined s) (hs : P.step (some a) s = some s') : P.Joined s' := by
  obtain ⟨-, w, hw, rfl⟩ := step_worker_eq_some.mp hs
  have hstays := fun t => H.stays a s.workers w t hw
  unfold Joined at h ⊢
  cases hmain : s.main with
  | create i =>
    rw [hmain] at h
    exact h
  | join i =>
    rw [hmain] at h
    exact fun t h1 ht => hstays t (h t h1 ht)
  | rest r =>
    -- Nobody is left to move.
    rw [hmain] at h
    obtain ⟨h1, hn, hlive⟩ := H.owned a s.workers w hw
    rw [h.1 _ h1 hn] at hlive
    cases hlive

theorem invariant (H : P.Proper) (h : P.machine.Reachable s) : P.Joined s ∧ P.workers.Reachable s.workers := by
  have hstart : P.Joined ⟨.create 0, P.workers.init⟩ := Nat.zero_le P.n
  refine h.invariant (I := fun s => P.Joined s ∧ P.workers.Reachable s.workers) ⟨hstart, .init⟩
    fun a s s' ⟨hJ, hW⟩ _ hs => ?_
  cases a with
  | none =>
    obtain ⟨hJ', hw⟩ := hJ.main hs
    exact ⟨hJ', hw ▸ hW⟩
  | some a =>
    refine ⟨hJ.worker H hs, ?_⟩
    obtain ⟨-, w, hw, rfl⟩ := step_worker_eq_some.mp hs
    exact hW.step a trivial hw

/-! ### Runs of the workers are followed -/

theorem run_creates {i : ℕ} (hi : i ≤ P.n) : ∃ as, P.machine.run as ⟨.create i, w⟩ = some ⟨.join 0, w⟩ := by
  induction hk : P.n - i generalizing i with
  | zero =>
    refine ⟨[none], Machine.run_cons_eq_some.mpr ⟨_, ?_, rfl⟩⟩
    show some (State.mk (if i < P.n then .create (i + 1) else .join 0) w) = _
    rw [if_neg (by omega)]
  | succ k ih =>
    obtain ⟨as, hr⟩ := ih (i := i + 1) (by omega) (by omega)
    refine ⟨none :: as, Machine.run_cons_eq_some.mpr ⟨_, ?_, hr⟩⟩
    show some (State.mk (if i < P.n then .create (i + 1) else .join 0) w) = _
    rw [if_pos (by omega)]

theorem exists_follow (H : P.Proper) (h : P.workers.Reachable w) : P.machine.Reachable ⟨.join 0, w⟩ := by
  induction h with
  | init =>
    obtain ⟨as, hr⟩ := run_creates (P := P) (w := P.workers.init) (Nat.zero_le _)
    exact Machine.reachable_of_run hr
  | step a _ _ hs ih => exact ih.step (some a) trivial (step_worker_eq_some.mpr ⟨(H.owned a _ _ hs).2.1, _, hs, rfl⟩)

theorem run_joins (hover : P.Over w) {i : ℕ} (hi : i ≤ P.n) :
    ∃ as, P.machine.run as ⟨.join i, w⟩ = some ⟨.rest P.first, w⟩ := by
  induction hk : P.n - i generalizing i with
  | zero =>
    refine ⟨[none], Machine.run_cons_eq_some.mpr ⟨_, ?_, rfl⟩⟩
    exact if_neg (by omega)
  | succ k ih =>
    obtain ⟨as, hr⟩ := ih (i := i + 1) (by omega) (by omega)
    refine ⟨none :: as, Machine.run_cons_eq_some.mpr ⟨_, ?_, hr⟩⟩
    exact (if_pos (by omega)).trans (if_pos (hover (i + 1) (Nat.le_add_left 1 i) (by omega)))

theorem run_tail (h : P.Tail w r) : ∃ as, P.machine.run as ⟨.rest P.first, w⟩ = some ⟨.rest r, w⟩ := by
  induction h with
  | refl => exact ⟨[], rfl⟩
  | tail _ hr ih =>
    obtain ⟨as, has⟩ := ih
    refine ⟨as ++ [none], Machine.run_append_eq_some.mpr ⟨_, has, Machine.run_cons_eq_some.mpr ⟨_, ?_, rfl⟩⟩⟩
    show (P.rest w _).map _ = _
    rw [hr]
    rfl

/-- The main party goes on by itself until nothing is left. -/
theorem run_rest {ν : ρ → ℕ} (hν : ∀ w r r', P.rest w r = some r' → ν r' < ν r) (hmain : s.main = .rest r) :
    ∃ as s' r', P.machine.run as s = some s' ∧ s'.main = .rest r' ∧ P.rest s'.workers r' = none := by
  induction hk : ν r using Nat.strongRecOn generalizing s r with
  | ind k ih =>
    cases hrest : P.rest s.workers r with
    | none => exact ⟨[], s, r, rfl, hmain, hrest⟩
    | some r' =>
      have hstep : P.stepMain s = some { s with main := .rest r' } := by
        rw [stepMain, hmain]
        simp only [hrest, Option.map_some]
      obtain ⟨as, s', r'', hr, hlast⟩ := ih (ν r') (hk ▸ hν _ _ _ hrest) (s := { s with main := .rest r' }) rfl rfl
      exact ⟨none :: as, s', r'', Machine.run_cons_eq_some.mpr ⟨_, hstep, hr⟩, hlast⟩

/-- After the joins the main party goes on exactly from the states in which the workers can end. -/
theorem reachable_rest_iff (H : P.Proper) :
    P.machine.Reachable ⟨.rest r, w⟩ ↔ P.workers.Reachable w ∧ P.Over w ∧ P.Tail w r := by
  constructor
  · intro h
    obtain ⟨hJ, hW⟩ := invariant H h
    exact ⟨hW, hJ⟩
  · rintro ⟨hW, hover, htail⟩
    obtain ⟨as, has⟩ := run_joins hover (Nat.zero_le _)
    obtain ⟨bs, hbs⟩ := run_tail htail
    exact ((exists_follow H hW).run has).run hbs

/-! ### Progress -/

/-- If the workers, all of them there, can go on until all have ended, then so can the program. -/
theorem goes_on (H : P.Proper) (hgo : ∀ w, P.workers.Reachable w → ¬ P.Over w → ∃ a w', P.workers.step a w = some w')
    (h : P.machine.Reachable s) :
    (∃ r, s.main = .rest r ∧ P.rest s.workers r = none) ∨ ∃ b s', P.machine.step b s = some s' := by
  obtain ⟨hJ, hW⟩ := invariant H h
  cases hmain : s.main with
  | create i =>
    refine .inr ⟨none, { s with main := if i < P.n then .create (i + 1) else .join 0 }, ?_⟩
    show P.stepMain s = _
    rw [stepMain, hmain]
  | join i =>
    by_cases hover : P.Over s.workers
    · have hstep : ∃ s', P.stepMain s = some s' := by
        simp only [stepMain, hmain]
        split
        · rename_i hi
          exact ⟨_, if_pos (hover (i + 1) (Nat.le_add_left 1 i) hi)⟩
        · exact ⟨_, rfl⟩
      obtain ⟨s', hs⟩ := hstep
      exact .inr ⟨none, s', hs⟩
    · obtain ⟨a, w, hw⟩ := hgo s.workers hW hover
      refine .inr ⟨some a, _, step_worker_eq_some.mpr ⟨?_, w, hw, rfl⟩⟩
      rw [hmain]
      exact (H.owned a _ _ hw).2.1
  | rest r =>
    cases hrest : P.rest s.workers r with
    | none => exact .inl ⟨r, rfl, hrest⟩
    | some r' =>
      refine .inr ⟨none, { s with main := .rest r' }, ?_⟩
      show P.stepMain s = _
      rw [stepMain, hmain]
      simp only [hrest, Option.map_some]

theorem run_workers {as : List α} {m : Main ρ} (H : P.Proper) (hm : P.created m = P.n) (hr : P.workers.run as w = some w') :
    P.machine.run (as.map some) ⟨m, w⟩ = some ⟨m, w'⟩ := by
  induction as generalizing w with
  | nil =>
    cases hr
    rfl
  | cons a as ih =>
    obtain ⟨u, hs, hr⟩ := Machine.run_cons_eq_some.mp hr
    refine Machine.run_cons_eq_some.mpr ⟨⟨m, u⟩, step_worker_eq_some.mpr ⟨?_, u, hs, rfl⟩, ih hr⟩
    rw [hm]
    exact (H.owned a w u hs).2.1

/-- If the workers can always come to an end, then so can the program, whatever has happened. -/
theorem exists_finish {ν : ρ → ℕ} (H : P.Proper)
    (hfinish : ∀ w, P.workers.Reachable w → ∃ as w', P.workers.run as w = some w' ∧ P.Over w')
    (hν : ∀ w r r', P.rest w r = some r' → ν r' < ν r) (h : P.machine.Reachable s) :
    ∃ as s' r, P.machine.run as s = some s' ∧ s'.main = .rest r ∧ P.rest s'.workers r = none := by
  -- First the workers that are still to be created, then the joins, then what is left.
  obtain ⟨as, s₁, hr₁, hcreated⟩ : ∃ as s₁, P.machine.run as s = some s₁ ∧ P.created s₁.main = P.n := by
    obtain ⟨m, w⟩ := s
    cases m with
    | join i | rest r => exact ⟨[], _, rfl, rfl⟩
    | create i =>
      have hi := (invariant H h).1.created_le
      obtain ⟨as, hr⟩ := run_creates hi
      exact ⟨as, _, hr, rfl⟩
  have h₁ := h.run hr₁
  obtain ⟨bs, w₂, hr₂, hover⟩ := hfinish s₁.workers (invariant H h₁).2
  have hr₂ : P.machine.run (bs.map some) s₁ = some ⟨s₁.main, w₂⟩ := run_workers H hcreated hr₂
  obtain ⟨cs, s₃, hr₃, hw₃, r, hmain⟩ : ∃ cs s₃, P.machine.run cs ⟨s₁.main, w₂⟩ = some s₃ ∧ s₃.workers = w₂ ∧
      ∃ r, s₃.main = .rest r := by
    cases hmain : s₁.main with
    | create i =>
      rw [hmain] at hcreated
      obtain ⟨cs, hr⟩ := run_creates (P := P) (w := w₂) (show i ≤ P.n from hcreated.le)
      obtain ⟨ds, hr'⟩ := run_joins hover (Nat.zero_le P.n)
      exact ⟨cs ++ ds, _, Machine.run_append_eq_some.mpr ⟨_, hr, hr'⟩, rfl, _, rfl⟩
    | join i =>
      by_cases hi : i ≤ P.n
      · obtain ⟨ds, hr⟩ := run_joins hover hi
        exact ⟨ds, _, hr, rfl, _, rfl⟩
      · exact ⟨[none], _, Machine.run_cons_eq_some.mpr ⟨_, if_neg (by omega), rfl⟩, rfl, _, rfl⟩
    | rest r => exact ⟨[], _, rfl, rfl, r, rfl⟩
  obtain ⟨ds, s₄, r', hr₄, hmain, hnone⟩ := run_rest hν hmain
  exact ⟨as ++ (bs.map some ++ (cs ++ ds)), s₄, r', Machine.run_append_eq_some.mpr ⟨_, hr₁,
    Machine.run_append_eq_some.mpr ⟨_, hr₂, Machine.run_append_eq_some.mpr ⟨_, hr₃, hr₄⟩⟩⟩, hmain, hnone⟩

/-! ### Bounds -/

/-- The steps that the main party has before it, where it takes at most `ν` after the joins. -/
def mainLeft (ν : ρ → ℕ) : Main ρ → ℕ
  | .create i => (P.n - i) + P.n + 2 + ν P.first
  | .join i => (P.n - i) + 1 + ν P.first
  | .rest r => ν r

theorem mainLeft_lt {ν : ρ → ℕ} (hν : ∀ w r r', P.rest w r = some r' → ν r' < ν r) (hs : P.stepMain s = some s') :
    P.mainLeft ν s'.main < P.mainLeft ν s.main := by
  unfold stepMain at hs
  split at hs
  · rename_i i hmain
    cases hs
    rw [hmain]
    split <;> simp only [mainLeft] <;> omega
  · rename_i i hmain
    rw [hmain]
    split at hs
    · obtain ⟨-, ⟨⟩⟩ := Option.ite_none_right_eq_some.mp hs
      simp only [mainLeft]
      omega
    · cases hs
      simp only [mainLeft]
      omega
  · rename_i r hmain
    obtain ⟨r', hr, rfl⟩ := Option.map_eq_some_iff.mp hs
    rw [hmain]
    exact hν _ _ _ hr

/-- Bounds for the workers and for the main party make one for the program. -/
theorem length_le (H : P.Proper) {μ : ω → ℕ} {ν : ρ → ℕ}
    (hμ : ∀ a w w', P.workers.Reachable w → P.workers.step a w = some w' → μ w' < μ w)
    (hν : ∀ w r r', P.rest w r = some r' → ν r' < ν r) {as : List (Option α)} (hr : P.machine.run as P.machine.init = some s) :
    as.length ≤ 2 * P.n + 2 + ν P.first + μ P.workers.init := by
  have hlen := Machine.length_le_of_measure (I := P.machine.Reachable)
    (μ := fun s => P.mainLeft ν s.main + μ s.workers) (fun a s s' h hs => h.step a trivial hs) (fun a s s' h hs => ?_)
    .init hr
  · have hstart : P.mainLeft ν P.machine.init.main + μ P.machine.init.workers =
        P.n - 0 + P.n + 2 + ν P.first + μ P.workers.init := rfl
    omega
  · cases a with
    | none =>
      obtain ⟨-, hw⟩ := (invariant H h).1.main hs
      have hlt := mainLeft_lt hν hs
      simp only [hw]
      omega
    | some a =>
      obtain ⟨-, w, hw, rfl⟩ := step_worker_eq_some.mp hs
      exact Nat.add_lt_add_left (hμ a _ _ (invariant H h).2 hw) _

end ForkJoin
