import Mathlib.Data.List.Basic
import Mathlib.Logic.Function.Basic
import Racey.Lib.Machine

/-! Threads over shared cells. A thread is a local state; each of its steps touches one cell, to read it or
    to write it, and which cell that is depends on the local state alone.

    Two steps of different threads on different cells, or that both only read, can be exchanged. Hence the
    last state of a complete execution is determined by the order of the threads on each class of cells,
    and also by the order of its conflicting steps alone. -/

/-- What a thread in a given local state does next: the cell it touches, `none` once it is finished;
    whether it writes the cell; its local state afterwards; and the value it leaves in the cell. -/
structure CellProgram (L X V : Type*) where
  cell : L → Option X
  writes : L → Bool
  next : L → V → L
  put : L → V → V

namespace CellProgram
variable {T L X V C N : Type*}

@[ext] structure State (T L X V : Type*) where
  loc : T → L
  mem : X → V

structure Event (T L X : Type*) where
  thread : T
  loc : L
  cell : X

/-! ### Orders read off a list of steps -/

section Orders
variable [DecidableEq C] {cls : X → C} {e : Event T L X} {tr tr' tb tc : List (Event T L X)}

/-- The threads that touched a cell of class `c`, in order. -/
def order (cls : X → C) (c : C) (tr : List (Event T L X)) : List T :=
  (tr.filter fun e => cls e.cell = c).map Event.thread

theorem order_append {c : C} : order cls c (tb ++ tc) = order cls c tb ++ order cls c tc := by
  simp only [order, List.filter_append, List.map_append]

theorem order_cons_of_eq {c : C} (h : cls e.cell = c) : order cls c (e :: tr) = e.thread :: order cls c tr := by
  simp [order, h]

theorem order_cons_of_ne {c : C} (h : cls e.cell ≠ c) : order cls c (e :: tr) = order cls c tr := by
  simp [order, h]

theorem order_eq_nil {c : C} (h : ∀ b ∈ tb, cls b.cell ≠ c) : order cls c tb = [] := by
  simpa [order] using h

/-- The name of a step: its thread, and what it is in the thread's program. -/
def Event.name (label : L → N) (e : Event T L X) : T × N := (e.thread, label e.loc)

def Before (label : L → N) (tr : List (Event T L X)) (a b : T × N) : Prop :=
  List.Sublist [a, b] (tr.map (Event.name label))

theorem pair_sublist_remove {α : Type*} {a b c : α} {l l' : List α} (ha : a ≠ c) (hb : b ≠ c) :
    List.Sublist [a, b] (l ++ c :: l') ↔ List.Sublist [a, b] (l ++ l') := by
  classical
  constructor
  · intro h
    have h' := h.filter (fun x => x ≠ c)
    simp only [ne_eq, ha, hb, decide_not, List.filter_cons, decide_true, decide_false, Bool.not_true,
      Bool.not_false, ↓reduceIte, List.filter_nil, List.filter_append, Bool.false_eq_true] at h'
    rw [← List.filter_append] at h'
    exact h'.trans List.filter_sublist
  · intro h
    exact h.trans (List.Sublist.append_left (List.sublist_cons_self c l') l)

section Conflicts
variable (P : CellProgram L X V) (label : L → N)

/-- Steps `a` and `b` touch the same cell, and at least one of them writes it. -/
def Conflict (tr : List (Event T L X)) (a b : T × N) : Prop :=
  a ≠ b ∧ ∃ e ∈ tr, ∃ e' ∈ tr, e.name label = a ∧ e'.name label = b ∧ e.cell = e'.cell ∧
    (P.writes e.loc = true ∨ P.writes e'.loc = true)

/-- Every pair of steps that conflict in either execution comes in the same order in both. -/
def SameConflicts (tr tr' : List (Event T L X)) : Prop :=
  ∀ a b, P.Conflict label tr a b ∨ P.Conflict label tr' a b → (Before label tr a b ↔ Before label tr' a b)

variable {P label}

theorem Conflict.mem {a b : T × N} (h : P.Conflict label tr a b) :
    a ∈ tr.map (Event.name label) ∧ b ∈ tr.map (Event.name label) := by
  obtain ⟨-, e, he, e', he', rfl, rfl, -⟩ := h
  exact ⟨List.mem_map_of_mem he, List.mem_map_of_mem he'⟩

theorem Conflict.mono {a b : T × N} (hsub : ∀ e ∈ tr, e ∈ tr') (h : P.Conflict label tr a b) :
    P.Conflict label tr' a b := by
  obtain ⟨hne, e, he, e', he', h⟩ := h
  exact ⟨hne, e, hsub e he, e', hsub e' he', h⟩

/-- Only names of steps that were taken have to be compared. -/
theorem sameConflicts_iff : P.SameConflicts label tr tr' ↔
    ∀ a ∈ (tr ++ tr').map (Event.name label), ∀ b ∈ (tr ++ tr').map (Event.name label),
      P.Conflict label tr a b ∨ P.Conflict label tr' a b → (Before label tr a b ↔ Before label tr' a b) := by
  refine ⟨fun h a _ b _ => h a b, fun h a b hab => ?_⟩
  have hmem : a ∈ (tr ++ tr').map (Event.name label) ∧ b ∈ (tr ++ tr').map (Event.name label) := by
    rw [List.map_append]
    rcases hab with hab | hab
    · exact ⟨List.mem_append_left _ hab.mem.1, List.mem_append_left _ hab.mem.2⟩
    · exact ⟨List.mem_append_right _ hab.mem.1, List.mem_append_right _ hab.mem.2⟩
  exact h a hmem.1 b hmem.2 hab

end Conflicts

end Orders

/-! ### Executions -/

variable [DecidableEq T] [DecidableEq X] (P : CellProgram L X V)

def after (t : T) (x : X) (s : State T L X V) : State T L X V where
  loc := Function.update s.loc t (P.next (s.loc t) (s.mem x))
  mem := if P.writes (s.loc t) then Function.update s.mem x (P.put (s.loc t) (s.mem x)) else s.mem

inductive Exec : State T L X V → List (Event T L X) → State T L X V → Prop
  | nil {s} : Exec s [] s
  | cons {s f} {t : T} {x : X} {tr : List (Event T L X)} :
      P.cell (s.loc t) = some x → Exec (P.after t x s) tr f → Exec s (⟨t, s.loc t, x⟩ :: tr) f

def Finished (s : State T L X V) : Prop := ∀ t, P.cell (s.loc t) = none

/-- The steps of a run of a machine that executes the program: `view` shows its states as states of the
    program, and `touches` the cell that a move touches. -/
def steps {σ : Type*} (M : Machine σ T) (view : σ → State T L X V) (touches : T → σ → X) :
    List T → σ → List (Event T L X) :=
  M.labels fun t s => some ⟨t, (view s).loc t, touches t s⟩

def Indep (e f : Event T L X) : Prop := e.cell ≠ f.cell ∨ (P.writes e.loc = false ∧ P.writes f.loc = false)

variable {P} {s f f' : State T L X V} {e e' : Event T L X} {tr tr' tb tc : List (Event T L X)}

/-- A run of a machine whose moves are steps of the program is an execution. -/
theorem exec_of_run {σ : Type*} {M : Machine σ T} {view : σ → State T L X V} {touches : T → σ → X}
    (hstep : ∀ t a b, M.step t a = some b →
      P.cell ((view a).loc t) = some (touches t a) ∧ view b = P.after t (touches t a) (view a))
    {ts : List T} {a b : σ} (h : M.run ts a = some b) : P.Exec (view a) (steps M view touches ts a) (view b) := by
  induction ts generalizing a with
  | nil =>
    cases h
    exact .nil
  | cons t ts ih =>
    obtain ⟨u, hs, h⟩ := Machine.run_cons_eq_some.mp h
    obtain ⟨hcell, hview⟩ := hstep t a u hs
    rw [steps, Machine.labels_cons hs]
    refine Exec.cons hcell ?_
    rw [← hview]
    exact ih h

/-! ### Exchanging steps -/

theorem after_loc_ne {t u : T} {x : X} (h : u ≠ t) : (P.after t x s).loc u = s.loc u :=
  Function.update_of_ne h _ _

theorem after_mem_of_indep {t : T} {x y : X} (h : y ≠ x ∨ P.writes (s.loc t) = false) :
    (P.after t x s).mem y = s.mem y := by
  rcases h with h | h
  · simp only [after]
    split
    · exact Function.update_of_ne h _ _
    · rfl
  · simp [after, h]

theorem after_comm {t u : T} {x y : X} (hne : t ≠ u)
    (h : x ≠ y ∨ (P.writes (s.loc t) = false ∧ P.writes (s.loc u) = false)) :
    P.after u y (P.after t x s) = P.after t x (P.after u y s) := by
  have ht : (P.after t x s).mem y = s.mem y := after_mem_of_indep (h.imp Ne.symm And.left)
  have hu : (P.after u y s).mem x = s.mem x := after_mem_of_indep (h.imp id And.right)
  have hlt : (P.after t x s).loc u = s.loc u := after_loc_ne hne.symm
  have hlu : (P.after u y s).loc t = s.loc t := after_loc_ne hne
  ext1
  · show Function.update (P.after t x s).loc u (P.next ((P.after t x s).loc u) ((P.after t x s).mem y)) =
      Function.update (P.after u y s).loc t (P.next ((P.after u y s).loc t) ((P.after u y s).mem x))
    rw [ht, hu, hlt, hlu]
    exact Function.update_comm hne _ _ _
  · show (if P.writes ((P.after t x s).loc u) then
        Function.update (P.after t x s).mem y (P.put ((P.after t x s).loc u) ((P.after t x s).mem y))
        else (P.after t x s).mem) =
      if P.writes ((P.after u y s).loc t) then
        Function.update (P.after u y s).mem x (P.put ((P.after u y s).loc t) ((P.after u y s).mem x))
        else (P.after u y s).mem
    rw [ht, hu, hlt, hlu]
    simp only [after]
    rcases h with h | ⟨h, h'⟩
    · split <;> split <;> try rfl
      exact Function.update_comm h _ _ _
    · simp [h, h']

theorem Exec.swap (h : P.Exec s (e :: e' :: tr) f) (hne : e.thread ≠ e'.thread) (hi : P.Indep e e') :
    P.Exec s (e' :: e :: tr) f := by
  cases h with
  | @cons _ _ t x _ ht h =>
    cases h with
    | @cons _ _ u y _ hu h =>
      have hlt : (P.after t x s).loc u = s.loc u := after_loc_ne (Ne.symm hne)
      have hlu : (P.after u y s).loc t = s.loc t := after_loc_ne hne
      rw [hlt] at hu hi ⊢
      rw [after_comm hne hi] at h
      refine .cons hu ?_
      rw [← hlu] at ht ⊢
      exact .cons ht h

/-- A step that is independent of all the steps before it, taken by other threads, can come first. -/
theorem Exec.move_front (h : P.Exec s (tb ++ e :: tc) f) (hne : ∀ b ∈ tb, b.thread ≠ e.thread)
    (hi : ∀ b ∈ tb, P.Indep b e) : P.Exec s (e :: (tb ++ tc)) f := by
  induction tb generalizing s with
  | nil => exact h
  | cons b tb ih =>
    cases h with
    | cons hb h =>
      have h := ih h (fun b' hb' => hne b' (List.mem_cons_of_mem _ hb'))
        fun b' hb' => hi b' (List.mem_cons_of_mem _ hb')
      exact (Exec.cons hb h).swap (hne _ List.mem_cons_self) (hi _ List.mem_cons_self)

/-! ### The first step of a thread -/

theorem Exec.loc_eq (h : P.Exec s tr f) {t : T} (ht : ∀ e ∈ tr, e.thread ≠ t) : f.loc t = s.loc t := by
  induction h with
  | nil => rfl
  | cons _ _ ih =>
    rw [ih fun e he => ht e (List.mem_cons_of_mem _ he)]
    exact after_loc_ne (ht _ List.mem_cons_self).symm

theorem Exec.split (h : P.Exec s (tb ++ tc) f) : ∃ g, P.Exec s tb g ∧ P.Exec g tc f := by
  induction tb generalizing s with
  | nil => exact ⟨s, .nil, h⟩
  | cons b tb ih =>
    cases h with
    | cons hb h =>
      obtain ⟨g, h1, h2⟩ := ih h
      exact ⟨g, .cons hb h1, h2⟩

/-- A thread that can step takes that step somewhere in a complete execution, and takes it first among
    its own steps. -/
theorem Exec.first_step (h : P.Exec s tr f) (hf : P.Finished f) {t : T} {x : X} (ht : P.cell (s.loc t) = some x) :
    ∃ tb tc, tr = tb ++ ⟨t, s.loc t, x⟩ :: tc ∧ ∀ b ∈ tb, b.thread ≠ t := by
  have hmem : t ∈ tr.map Event.thread := by
    by_contra hn
    have hloc := h.loc_eq (t := t) fun e he heq => hn (List.mem_map.mpr ⟨e, he, heq⟩)
    have := hf t
    rw [hloc, ht] at this
    cases this
  obtain ⟨as, bs, hmap, has⟩ := List.eq_append_cons_of_mem hmem
  obtain ⟨tb, tc', rfl, rfl, htc⟩ := List.map_eq_append_iff.mp hmap
  obtain ⟨e, tc, rfl, hthread, -⟩ := List.map_eq_cons_iff.mp htc
  have hne : ∀ b ∈ tb, b.thread ≠ t := fun b hb heq => has (List.mem_map.mpr ⟨b, hb, heq⟩)
  refine ⟨tb, tc, ?_, hne⟩
  obtain ⟨g, h1, h2⟩ := h.split
  have hg := h1.loc_eq hne
  cases h2 with
  | cons hu _ =>
    cases hthread
    rw [hg] at hu ⊢
    rw [ht] at hu
    cases hu
    rfl

theorem Exec.eq_nil (h : P.Exec s tr f) (hs : P.Finished s) : tr = [] := by
  cases h with
  | nil => rfl
  | cons ht _ =>
    rw [hs] at ht
    cases ht

/-! ### The order of the threads on each class of cells -/

section ClassOrder
variable [DecidableEq C] {cls : X → C}

/-- If the threads touch each class of cells in the same order in two complete executions, then both end
    in the same state. -/
theorem final_eq_of_order (h : P.Exec s tr f) (h' : P.Exec s tr' f') (hf : P.Finished f) (hf' : P.Finished f')
    (ho : ∀ c, order cls c tr = order cls c tr') : f = f' := by
  induction h generalizing tr' with
  | nil =>
    obtain rfl := h'.eq_nil hf
    cases h'
    rfl
  | @cons s f t x tr ht _ ih =>
    obtain ⟨tb, tc, rfl, hne⟩ := h'.first_step hf' ht
    -- The first step on the class of `x` is one of `t`, so no thread touches that class before.
    have hcls : ∀ b ∈ tb, cls b.cell ≠ cls x := by
      have hx := ho (cls x)
      rw [order_cons_of_eq (e := ⟨t, s.loc t, x⟩) rfl, order_append] at hx
      cases hb : order cls (cls x) tb with
      | nil =>
        simpa [order] using hb
      | cons u us =>
        rw [hb, List.cons_append, List.cons.injEq] at hx
        have hu : u ∈ order cls (cls x) tb := by rw [hb]; exact List.mem_cons_self
        obtain ⟨b, hb, hbu⟩ := List.mem_map.mp hu
        exact absurd (hbu.trans hx.1.symm) (hne b (List.mem_filter.mp hb).1)
    have h'' := h'.move_front hne fun b hb => Or.inl fun heq => hcls b hb (congrArg cls heq)
    cases h'' with
    | cons _ h'' =>
      refine ih h'' hf fun c => ?_
      have hc := ho c
      rw [order_append] at hc ⊢
      by_cases hx : cls x = c
      · subst hx
        rw [order_cons_of_eq (e := ⟨t, s.loc t, x⟩) rfl, order_cons_of_eq (e := ⟨t, s.loc t, x⟩) rfl,
          order_eq_nil hcls] at hc
        rw [order_eq_nil hcls]
        exact (List.cons.inj hc).2
      · rwa [order_cons_of_ne (e := ⟨t, s.loc t, x⟩) hx, order_cons_of_ne (e := ⟨t, s.loc t, x⟩) hx] at hc

end ClassOrder

/-! ### The order of conflicting steps -/

section ConflictOrder
variable {label : L → N}

instance [DecidableEq N] (a b : T × N) : Decidable (Before label tr a b) :=
  inferInstanceAs (Decidable (List.Sublist _ _))

instance [DecidableEq N] (a b : T × N) : Decidable (P.Conflict label tr a b) :=
  inferInstanceAs (Decidable (_ ∧ ∃ _ ∈ tr, ∃ _ ∈ tr, _))

instance [DecidableEq N] : Decidable (P.SameConflicts label tr tr') := decidable_of_iff _ sameConflicts_iff.symm

/-- A rank that every step raises keeps the names of a thread's steps apart. -/
theorem Exec.rank_le {rank : N → ℕ} (hrank : ∀ l v, rank (label l) < rank (label (P.next l v)))
    (h : P.Exec s tr f) : ∀ e ∈ tr, rank (label (s.loc e.thread)) ≤ rank (label e.loc) := by
  induction h with
  | nil => simp
  | @cons s f t x tr _ _ ih =>
    intro e he
    rcases List.mem_cons.mp he with rfl | he
    · exact Nat.le_refl _
    · refine Nat.le_trans ?_ (ih e he)
      by_cases het : e.thread = t
      · rw [het]
        simp only [after, Function.update_self]
        exact Nat.le_of_lt (hrank _ _)
      · exact Nat.le_of_eq (by rw [after_loc_ne het])

theorem Exec.name_ne {rank : N → ℕ} (hrank : ∀ l v, rank (label l) < rank (label (P.next l v))) {t : T} {x : X}
    (h : P.Exec (P.after t x s) tr f) : (t, label (s.loc t)) ∉ tr.map (Event.name label) := by
  intro hmem
  obtain ⟨e, he, heq⟩ := List.mem_map.mp hmem
  simp only [Event.name, Prod.mk.injEq] at heq
  have hle := h.rank_le hrank e he
  rw [heq.1, heq.2] at hle
  simp only [after, Function.update_self] at hle
  exact absurd (hrank (s.loc t) (s.mem x)) (Nat.not_lt.mpr hle)

/-- If every pair of conflicting steps comes in the same order in two complete executions, then both end
    in the same state. -/
theorem final_eq_of_conflicts {rank : N → ℕ} (hrank : ∀ l v, rank (label l) < rank (label (P.next l v)))
    (h : P.Exec s tr f) (h' : P.Exec s tr' f') (hf : P.Finished f) (hf' : P.Finished f')
    (hc : P.SameConflicts label tr tr') : f = f' := by
  induction h generalizing tr' with
  | nil =>
    obtain rfl := h'.eq_nil hf
    cases h'
    rfl
  | @cons s f t x tr ht htail ih =>
    obtain ⟨tb, tc, rfl, hne⟩ := h'.first_step hf' ht
    have hfresh := htail.name_ne hrank
    -- A step before it that conflicts with it would also come before it in the first execution.
    have hi : ∀ b ∈ tb, P.Indep b ⟨t, s.loc t, x⟩ := by
      intro b hb
      by_contra hdep
      simp only [Indep, not_or, ne_eq, not_not, not_and_or, Bool.not_eq_false] at hdep
      have hba : b.name label ≠ (t, label (s.loc t)) := fun heq => hne b hb (congrArg Prod.fst heq)
      have hbefore : Before label (tb ++ ⟨t, s.loc t, x⟩ :: tc) (b.name label) (t, label (s.loc t)) := by
        unfold Before
        rw [List.map_append, List.map_cons]
        exact (List.singleton_sublist.mpr (List.mem_map_of_mem hb)).append
          (List.Sublist.cons_cons _ (List.nil_sublist _))
      have := (hc _ _ (Or.inr ⟨hba, b, List.mem_append_left _ hb, _,
        List.mem_append_right _ List.mem_cons_self, rfl, rfl, hdep.1, hdep.2⟩)).mpr hbefore
      unfold Before at this
      rw [List.map_cons] at this
      rcases List.sublist_cons_iff.mp this with h | ⟨r, hr, -⟩
      · exact hfresh (h.subset (by simp))
      · exact hba (List.cons.inj hr).1
    have h'' := h'.move_front hne hi
    cases h'' with
    | cons _ h'' =>
      have hfresh' := h''.name_ne hrank
      refine ih h'' hf fun a b hab => ?_
      have hmem : a ≠ (t, label (s.loc t)) ∧ b ≠ (t, label (s.loc t)) := by
        rcases hab with hab | hab
        · exact ⟨fun heq => hfresh (heq ▸ hab.mem.1), fun heq => hfresh (heq ▸ hab.mem.2)⟩
        · exact ⟨fun heq => hfresh' (heq ▸ hab.mem.1), fun heq => hfresh' (heq ▸ hab.mem.2)⟩
      have hsame := hc a b (hab.imp (Conflict.mono fun e he => List.mem_cons_of_mem _ he)
        (Conflict.mono fun e he => by
          rcases List.mem_append.mp he with he | he
          · exact List.mem_append_left _ he
          · exact List.mem_append_right _ (List.mem_cons_of_mem _ he)))
      unfold Before at hsame ⊢
      rw [List.map_append, List.map_cons, List.map_cons] at hsame
      rw [List.map_append]
      exact (pair_sublist_remove (l := []) hmem.1 hmem.2).symm.trans
        (hsame.trans (pair_sublist_remove hmem.1 hmem.2))

end ConflictOrder

end CellProgram
