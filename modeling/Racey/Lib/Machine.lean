import Mathlib.Algebra.BigOperators.Group.Finset.Basic
import Mathlib.Data.List.Basic
import Mathlib.Data.Option.Basic
import Mathlib.Order.Basic

/-! Machines with named moves: runs, reachability under a condition on the moves taken, observers that
    watch a run without taking part in it, simulations, and runs bounded by a measure. -/

/-- A machine: `step a s` is the state after move `a`, or `none` where `a` cannot be taken in `s`. -/
structure Machine (σ α : Type*) where
  init : σ
  step : α → σ → Option σ

namespace Machine
variable {σ τ ω α β : Type*}

/-! ### Runs -/

/-- The state after a list of moves, each taken in turn. -/
def run (M : Machine σ α) : List α → σ → Option σ
  | [], s => some s
  | a :: as, s => (M.step a s).bind (M.run as)

/-- The run with an accepted condition: `none` as soon as a move is taken where `ok` fails. -/
def runIf (M : Machine σ α) (ok : α → σ → Bool) : List α → σ → Option σ
  | [], s => some s
  | a :: as, s => if ok a s then (M.step a s).bind (M.runIf ok as) else none

variable {M : Machine σ α} {s t : σ}

@[simp] theorem run_nil : M.run [] s = some s := rfl

theorem run_cons {a : α} {as : List α} : M.run (a :: as) s = (M.step a s).bind (M.run as) := rfl

theorem run_cons_eq_some {a : α} {as : List α} :
    M.run (a :: as) s = some t ↔ ∃ u, M.step a s = some u ∧ M.run as u = some t := by
  rw [run_cons, Option.bind_eq_some_iff]

theorem run_append {as bs : List α} : M.run (as ++ bs) s = (M.run as s).bind (M.run bs) := by
  induction as generalizing s with
  | nil => rfl
  | cons a as ih =>
    rw [List.cons_append, run_cons, run_cons, Option.bind_assoc]
    exact Option.bind_congr fun u _ => ih

theorem run_append_eq_some {as bs : List α} :
    M.run (as ++ bs) s = some t ↔ ∃ u, M.run as s = some u ∧ M.run bs u = some t := by
  rw [run_append, Option.bind_eq_some_iff]

/-! ### Reachable states -/

/-- The states reached from the start by moves that `ok` allows where they are taken. -/
inductive Reach (M : Machine σ α) (ok : α → σ → Prop) : σ → Prop
  | init : Reach M ok M.init
  | step {s t : σ} (a : α) : Reach M ok s → ok a s → M.step a s = some t → Reach M ok t

abbrev Reachable (M : Machine σ α) : σ → Prop := M.Reach fun _ _ => True

/-- What holds at the start and is kept by every allowed move holds in every state reached. -/
theorem Reach.invariant {ok : α → σ → Prop} {I : σ → Prop} (start : I M.init)
    (keep : ∀ a s t, I s → ok a s → M.step a s = some t → I t) (h : M.Reach ok s) : I s := by
  induction h with
  | init => exact start
  | step a _ hok hs ih => exact keep a _ _ ih hok hs

theorem Reach.mono {ok ok' : α → σ → Prop} (hle : ∀ a s, ok a s → ok' a s) (h : M.Reach ok s) : M.Reach ok' s := by
  induction h with
  | init => exact .init
  | step a _ hok hs ih => exact ih.step a (hle _ _ hok) hs

theorem Reach.run {as : List α} (h : M.Reachable s) (hr : M.run as s = some t) : M.Reachable t := by
  induction as generalizing s with
  | nil =>
    cases hr
    exact h
  | cons a as ih =>
    obtain ⟨u, hs, hr⟩ := run_cons_eq_some.mp hr
    exact ih (h.step a trivial hs) hr

theorem reachable_of_run {as : List α} (hr : M.run as M.init = some s) : M.Reachable s :=
  Reach.run .init hr

theorem exists_run_of_reachable (h : M.Reachable s) : ∃ as, M.run as M.init = some s := by
  induction h with
  | init => exact ⟨[], rfl⟩
  | step a _ _ hs ih =>
    obtain ⟨as, hr⟩ := ih
    exact ⟨as ++ [a], run_append_eq_some.mpr ⟨_, hr, run_cons_eq_some.mpr ⟨_, hs, rfl⟩⟩⟩

/-- Stage by stage: from a state at stage `k` there is a run to one at the next stage. -/
theorem Reach.exists_stage {I : ℕ → σ → Prop} {n : ℕ} (h : M.Reachable s) (start : I 0 s)
    (next : ∀ k s, k < n → I k s → ∃ as t, M.run as s = some t ∧ I (k + 1) t) : ∃ t, M.Reachable t ∧ I n t := by
  induction n with
  | zero => exact ⟨s, h, start⟩
  | succ n ih =>
    obtain ⟨t, ht, hI⟩ := ih fun k s hk => next k s (Nat.lt_succ_of_lt hk)
    obtain ⟨as, u, hr, hI⟩ := next n t (Nat.lt_succ_self n) hI
    exact ⟨u, ht.run hr, hI⟩

/-- A run whose moves are checked along the way reaches its last state under the condition checked. -/
theorem reach_of_runIf {ok : α → σ → Prop} {okb : α → σ → Bool} (hok : ∀ a s, okb a s = true → ok a s)
    {as : List α} (h : M.Reach ok s) (hr : M.runIf okb as s = some t) : M.Reach ok t := by
  induction as generalizing s with
  | nil =>
    cases hr
    exact h
  | cons a as ih =>
    simp only [runIf] at hr
    split at hr
    · rename_i hb
      obtain ⟨u, hs, hr⟩ := Option.bind_eq_some_iff.mp hr
      exact ih (h.step a (hok a s hb) hs) hr
    · cases hr

/-- A run that is evaluated reaches a state with whatever its last state is checked for. -/
theorem exists_reachable {p : σ → Bool} (as : List α) (h : (M.run as M.init).any p = true) :
    ∃ s, M.Reachable s ∧ p s = true := by
  obtain ⟨s, hr, hp⟩ := (Option.any_eq_true _ _).mp h
  exact ⟨s, reachable_of_run hr, hp⟩

theorem exists_reach {c : α → σ → Prop} [∀ a s, Decidable (c a s)] {p : σ → Bool} (as : List α)
    (h : (M.runIf (fun a s => decide (c a s)) as M.init).any p = true) : ∃ s, M.Reach c s ∧ p s = true := by
  obtain ⟨s, hr, hp⟩ := (Option.any_eq_true _ _).mp h
  exact ⟨s, reach_of_runIf (fun _ _ => of_decide_eq_true) .init hr, hp⟩

/-! ### Observers -/

/-- An observer notes each move that is taken and the state it is taken in. -/
structure Observer (σ α ω : Type*) where
  start : ω
  note : α → σ → ω → ω

/-- The machine together with what an observer has noted so far. -/
def watch (M : Machine σ α) (O : Observer σ α ω) : Machine (σ × ω) α where
  init := (M.init, O.start)
  step a p := (M.step a p.1).map fun t => (t, O.note a p.1 p.2)

variable {O : Observer σ α ω}

theorem watch_step_eq_some {a : α} {p q : σ × ω} :
    (M.watch O).step a p = some q ↔ M.step a p.1 = some q.1 ∧ q.2 = O.note a p.1 p.2 := by
  obtain ⟨t, w⟩ := q
  simp only [watch, Option.map_eq_some_iff, Prod.mk.injEq]
  constructor
  · rintro ⟨_, hs, rfl, rfl⟩
    exact ⟨hs, rfl⟩
  · rintro ⟨hs, rfl⟩
    exact ⟨t, hs, rfl, rfl⟩

theorem Reach.watch {ok : α → σ → Prop} (O : Observer σ α ω) (h : M.Reach ok s) :
    ∃ w, (M.watch O).Reach (fun a p => ok a p.1) (s, w) := by
  induction h with
  | init => exact ⟨O.start, .init⟩
  | step a _ hok hs ih =>
    obtain ⟨w, hw⟩ := ih
    exact ⟨_, hw.step a hok (watch_step_eq_some.mpr ⟨hs, rfl⟩)⟩

/-- An observer that notes less. -/
theorem Reach.forget {ω' : Type*} {P : Observer σ α ω'} {w : ω'} (h : (M.watch P).Reachable (s, w)) (f : ω' → ω)
    (hstart : f P.start = O.start) (hnote : ∀ a s w, f (P.note a s w) = O.note a s (f w)) :
    (M.watch O).Reachable (s, f w) := by
  refine h.invariant (I := fun p => (M.watch O).Reachable (p.1, f p.2)) ?_ fun a p q hp _ hs => ?_
  · show (M.watch O).Reachable (M.init, f P.start)
    rw [hstart]
    exact .init
  · obtain ⟨hs, hw⟩ := watch_step_eq_some.mp hs
    refine hp.step a trivial (watch_step_eq_some.mpr ⟨hs, ?_⟩)
    rw [hw]
    exact hnote a p.1 p.2

/-- Where each move is none or one of another machine, and what is noted of it is nothing or what is noted there, a run that
    is watched is one of the other machine that is watched. -/
theorem Reach.watch_sim {N : Machine τ β} {P : Observer τ β ω} {view : σ → τ} {w : ω} (hinit : view M.init = N.init)
    (hstart : O.start = P.start) (sim : ∀ a s t w, M.Reachable s → M.step a s = some t →
      (view t = view s ∧ O.note a s w = w) ∨ ∃ b, N.step b (view s) = some (view t) ∧ O.note a s w = P.note b (view s) w)
    (h : (M.watch O).Reachable (s, w)) : M.Reachable s ∧ (N.watch P).Reachable (view s, w) := by
  refine h.invariant (I := fun p => M.Reachable p.1 ∧ (N.watch P).Reachable (view p.1, p.2)) ⟨.init, ?_⟩
    fun a p q ⟨hp, hN⟩ _ hs => ?_
  · show (N.watch P).Reachable (view M.init, O.start)
    rw [hinit, hstart]
    exact .init
  · obtain ⟨hs, hw⟩ := watch_step_eq_some.mp hs
    refine ⟨hp.step a trivial hs, ?_⟩
    rcases sim a p.1 q.1 p.2 hp hs with ⟨hview, hnote⟩ | ⟨b, hb, hnote⟩
    · rw [hview, hw, hnote]
      exact hN
    · exact hN.step b trivial (watch_step_eq_some.mpr ⟨hb, hw.trans hnote⟩)

/-- Watching changes nothing about a run. -/
theorem run_of_watch {as : List α} {p q : σ × ω} (hr : (M.watch O).run as p = some q) : M.run as p.1 = some q.1 := by
  induction as generalizing p with
  | nil =>
    cases hr
    rfl
  | cons a as ih =>
    obtain ⟨u, hs, hr⟩ := run_cons_eq_some.mp hr
    exact run_cons_eq_some.mpr ⟨u.1, (watch_step_eq_some.mp hs).1, ih hr⟩

/-! ### Simulations -/

/-- The moves of the other machine that a run is answered by; a move with no label is not answered. -/
def labels (M : Machine σ α) (label : α → σ → Option β) : List α → σ → List β
  | [], _ => []
  | a :: as, s => (label a s).toList ++ ((M.step a s).map (M.labels label as)).getD []

theorem labels_cons {label : α → σ → Option β} {a : α} {as : List α} (hs : M.step a s = some t) :
    M.labels label (a :: as) s = (label a s).toList ++ M.labels label as t := by
  simp only [labels, hs, Option.map_some, Option.getD_some]

theorem labels_append {label : α → σ → Option β} {as bs : List α} (hr : M.run as s = some t) :
    M.labels label (as ++ bs) s = M.labels label as s ++ M.labels label bs t := by
  induction as generalizing s with
  | nil =>
    cases hr
    rfl
  | cons a as ih =>
    obtain ⟨u, hs, hr⟩ := run_cons_eq_some.mp hr
    rw [List.cons_append, labels_cons hs, labels_cons hs, ih hr, List.append_assoc]

/-- Forward simulation: if a labelled move is answered by its label and an unlabelled one by standing
    still, then a whole run is answered by the list of its labels. -/
theorem run_simulates {N : Machine τ β} {l : α → σ → Option β} {R : σ → τ → Prop}
    (answer : ∀ a s t x, R s x → M.step a s = some t →
      ∃ y, N.run (l a s).toList x = some y ∧ R t y)
    {as : List α} {x : τ} (hR : R s x) (hr : M.run as s = some t) :
    ∃ y, N.run (M.labels l as s) x = some y ∧ R t y := by
  induction as generalizing s x with
  | nil =>
    cases hr
    exact ⟨x, rfl, hR⟩
  | cons a as ih =>
    obtain ⟨u, hs, hr⟩ := run_cons_eq_some.mp hr
    obtain ⟨y, hy, hR⟩ := answer a s u x hR hs
    obtain ⟨z, hz, hR⟩ := ih hR hr
    exact ⟨z, by rw [labels_cons hs]; exact run_append_eq_some.mpr ⟨y, hy, hz⟩, hR⟩

/-- A run of the other machine is followed: if each of its moves can be answered by moves that carry
    exactly that label, then so can the whole run. -/
theorem exists_run_of_answer {N : Machine τ β} {l : α → σ → Option β} {R : σ → τ → Prop}
    (answer : ∀ b x y s, R s x → N.step b x = some y →
      ∃ as t, M.run as s = some t ∧ M.labels l as s = [b] ∧ R t y)
    {bs : List β} {x y : τ} (hR : R s x) (hr : N.run bs x = some y) :
    ∃ as t, M.run as s = some t ∧ M.labels l as s = bs ∧ R t y := by
  induction bs generalizing s x with
  | nil =>
    cases hr
    exact ⟨[], s, rfl, rfl, hR⟩
  | cons b bs ih =>
    obtain ⟨z, hs, hr⟩ := run_cons_eq_some.mp hr
    obtain ⟨as₁, u, hu, hl, hR⟩ := answer b x z s hR hs
    obtain ⟨as₂, t, ht, hl', hR⟩ := ih hR hr
    exact ⟨as₁ ++ as₂, t, run_append_eq_some.mpr ⟨u, hu, ht⟩,
      by rw [labels_append hu, hl, hl', List.singleton_append], hR⟩

/-! ### Bounded runs -/

/-- A measure that every move lowers bounds the length of every run. -/
theorem length_le_of_measure {I : σ → Prop} {μ : σ → ℕ} (keep : ∀ a s t, I s → M.step a s = some t → I t)
    (down : ∀ a s t, I s → M.step a s = some t → μ t < μ s) {as : List α} (hI : I s)
    (hr : M.run as s = some t) : as.length + μ t ≤ μ s := by
  induction as generalizing s with
  | nil =>
    cases hr
    simp
  | cons a as ih =>
    obtain ⟨u, hs, hr⟩ := run_cons_eq_some.mp hr
    have := ih (keep a s u hI hs) hr
    have := down a s u hI hs
    simp only [List.length_cons]
    omega

/-- What the moves that are taken keep holds at the end of a run of them. -/
theorem invariant_of_run {I : σ → Prop} {ok : α → Prop} (keep : ∀ a s t, I s → ok a → M.step a s = some t → I t)
    {as : List α} (hok : ∀ a ∈ as, ok a) (hI : I s) (hr : M.run as s = some t) : I t := by
  induction as generalizing s with
  | nil =>
    cases hr
    exact hI
  | cons a as ih =>
    obtain ⟨u, hs, hr⟩ := run_cons_eq_some.mp hr
    exact ih (fun b hb => hok b (List.mem_cons_of_mem _ hb)) (keep a s u hI (hok a List.mem_cons_self) hs) hr

/-- A measure that each move lowers where it is allowed bounds the length of a run of such moves. -/
theorem length_le_of_runIf {I : σ → Prop} {ok : α → σ → Prop} [∀ a s, Decidable (ok a s)] {μ : σ → ℕ}
    (keep : ∀ a s t, I s → ok a s → M.step a s = some t → I t) (down : ∀ a s t, I s → ok a s → M.step a s = some t → μ t < μ s)
    {as : List α} (hI : I s) (hr : M.runIf (fun a s => decide (ok a s)) as s = some t) : as.length + μ t ≤ μ s ∧ I t := by
  induction as generalizing s with
  | nil =>
    cases hr
    exact ⟨(Nat.zero_add _).le, hI⟩
  | cons a as ih =>
    simp only [runIf] at hr
    split at hr
    · rename_i hok
      have hok := of_decide_eq_true hok
      obtain ⟨u, hs, hr⟩ := Option.bind_eq_some_iff.mp hr
      obtain ⟨hlength, ht⟩ := ih (keep a s u hI hok hs) hr
      have hdown := down a s u hI hok hs
      refine ⟨?_, ht⟩
      simp only [List.length_cons]
      omega
    · cases hr

/-- A measure that each of the moves that are taken lowers by one tells the length of a run. -/
theorem length_eq_of_measure {I : σ → Prop} {ok : α → Prop} {μ : σ → ℕ}
    (keep : ∀ a s t, I s → ok a → M.step a s = some t → I t)
    (down : ∀ a s t, I s → ok a → M.step a s = some t → μ t + 1 = μ s) {as : List α} (hok : ∀ a ∈ as, ok a) (hI : I s)
    (hr : M.run as s = some t) : as.length + μ t = μ s := by
  induction as generalizing s with
  | nil =>
    cases hr
    exact Nat.zero_add _
  | cons a as ih =>
    obtain ⟨u, hs, hr⟩ := run_cons_eq_some.mp hr
    have ha := hok a List.mem_cons_self
    have hrest := ih (fun b hb => hok b (List.mem_cons_of_mem _ hb)) (keep a s u hI ha hs) hr
    have hdown := down a s u hI ha hs
    simp only [List.length_cons]
    omega

/-- Where every move is one step of a count, the count tells the length of a run. -/
theorem length_of_count {μ : σ → ℕ} (up : ∀ a s t, M.step a s = some t → μ t = μ s + 1) {as : List α}
    (hr : M.run as s = some t) : μ t = μ s + as.length := by
  induction as generalizing s with
  | nil =>
    cases hr
    rfl
  | cons a as ih =>
    obtain ⟨u, hs, hr⟩ := run_cons_eq_some.mp hr
    rw [ih hr, up a s u hs, List.length_cons, Nat.add_assoc, Nat.add_comm 1]

/-- A sum over the parties changes by what changes for the one that moved. -/
theorem sum_change {ι : Type*} [DecidableEq ι] {S : Finset ι} {f g : ι → ℕ} {i : ι} (hi : i ∈ S)
    (h : ∀ j, j ≠ i → g j = f j) : ∑ j ∈ S, g j + f i = ∑ j ∈ S, f j + g i := by
  have hrest : ∑ j ∈ S.erase i, g j = ∑ j ∈ S.erase i, f j :=
    Finset.sum_congr rfl fun j hj => h j (Finset.ne_of_mem_erase hj)
  rw [← Finset.add_sum_erase S g hi, ← Finset.add_sum_erase S f hi, hrest]
  omega

/-- Where a measure can always be lowered until `Q` is reached, by moves of one kind and within what these keep, some run of
    such moves reaches it. -/
theorem exists_run_of_kind {I Q : σ → Prop} {ok : α → Prop} {μ : σ → ℕ}
    (next : ∀ s, I s → ¬ Q s → ∃ a t, ok a ∧ M.step a s = some t ∧ I t ∧ μ t < μ s) (hI : I s) :
    ∃ as t, (∀ a ∈ as, ok a) ∧ M.run as s = some t ∧ I t ∧ Q t := by
  induction hn : μ s using Nat.strongRecOn generalizing s with
  | ind n ih =>
    rcases Classical.em (Q s) with hQ | hQ
    · exact ⟨[], s, nofun, rfl, hI, hQ⟩
    · obtain ⟨a, t, ha, hs, hI, hlt⟩ := next s hI hQ
      obtain ⟨as, u, hok, hr, hu⟩ := ih (μ t) (hn ▸ hlt) hI rfl
      refine ⟨a :: as, u, fun b hb => ?_, run_cons_eq_some.mpr ⟨t, hs, hr⟩, hu⟩
      rcases List.mem_cons.mp hb with rfl | hb
      · exact ha
      · exact hok b hb

/-- The same by moves that the states allow, from one that is reachable by such moves. -/
theorem Reach.exists_within {ok : α → σ → Prop} {P Q : σ → Prop} {μ : σ → ℕ}
    (next : ∀ s, M.Reach ok s → P s → ¬ Q s → ∃ a t, ok a s ∧ M.step a s = some t ∧ P t ∧ μ t < μ s) (h : M.Reach ok s)
    (hP : P s) : ∃ t, M.Reach ok t ∧ P t ∧ Q t := by
  have hnext : ∀ s, M.Reach ok s ∧ P s → ¬ Q s → ∃ a t, True ∧ M.step a s = some t ∧ (M.Reach ok t ∧ P t) ∧ μ t < μ s := by
    rintro s ⟨h, hP⟩ hQ
    obtain ⟨a, t, ha, hs, hP, hlt⟩ := next s h hP hQ
    exact ⟨a, t, trivial, hs, ⟨h.step a ha hs, hP⟩, hlt⟩
  obtain ⟨-, t, -, -, ⟨ht, hP⟩, hQ⟩ := exists_run_of_kind hnext ⟨h, hP⟩
  exact ⟨t, ht, hP, hQ⟩

/-- The same by any moves. -/
theorem Reach.exists_run {Q : σ → Prop} {μ : σ → ℕ}
    (next : ∀ s, M.Reachable s → ¬ Q s → ∃ a t, M.step a s = some t ∧ μ t < μ s) (h : M.Reachable s) :
    ∃ as t, M.run as s = some t ∧ Q t := by
  have hnext : ∀ s, M.Reachable s → ¬ Q s → ∃ a t, True ∧ M.step a s = some t ∧ M.Reachable t ∧ μ t < μ s := by
    intro s h hQ
    obtain ⟨a, t, hs, hlt⟩ := next s h hQ
    exact ⟨a, t, trivial, hs, h.step a trivial hs, hlt⟩
  obtain ⟨as, t, -, hr, -, hQ⟩ := exists_run_of_kind hnext h
  exact ⟨as, t, hr, hQ⟩

/-! ### Views -/

/-- `M` does what `N` does, seen through `view`: each of its moves is a move of `N` or is not seen, every move of `N` can be
    made or come closer, and `M` does not go on for ever. -/
structure Implements (M : Machine σ α) (N : Machine τ β) (view : σ → τ) (μ : σ → ℕ) : Prop where
  init : view M.init = N.init
  sim : ∀ a s t, M.Reachable s → M.step a s = some t → view t = view s ∨ ∃ b, N.step b (view s) = some (view t)
  follow : ∀ b s y, M.Reachable s → N.step b (view s) = some y →
    ∃ a t, M.step a s = some t ∧ (view t = y ∨ view t = view s)
  down : ∀ a s t, M.Reachable s → M.step a s = some t → μ t < μ s

/-- Where a move is always possible that reaches `Q` or keeps `P`, `Q` is reached in the end. -/
theorem Reach.eventually {P Q : σ → Prop} {μ : σ → ℕ}
    (down : ∀ a s t, M.Reachable s → M.step a s = some t → μ t < μ s)
    (next : ∀ s, M.Reachable s → P s → Q s ∨ ∃ a t, M.step a s = some t ∧ (Q t ∨ P t)) (h : M.Reachable s) (hP : P s) :
    ∃ t, M.Reachable t ∧ Q t := by
  induction hn : μ s using Nat.strongRecOn generalizing s with
  | ind n ih =>
    rcases next s h hP with hQ | ⟨a, t, hs, hQ | hP⟩
    · exact ⟨s, h, hQ⟩
    · exact ⟨t, h.step a trivial hs, hQ⟩
    · exact ih (μ t) (hn ▸ down a s t h hs) (h.step a trivial hs) hP rfl

namespace Implements
variable {N : Machine τ β} {view : σ → τ} {μ : σ → ℕ} {x : τ}

theorem reachable (H : Implements M N view μ) (h : M.Reachable s) : N.Reachable (view s) := by
  induction h with
  | init =>
    rw [H.init]
    exact .init
  | step a hs _ hstep ih =>
    rcases H.sim a _ _ hs hstep with heq | ⟨b, hb⟩
    · rwa [heq]
    · exact ih.step b trivial hb

theorem exists_view_eq (H : Implements M N view μ) (h : N.Reachable x) : ∃ s, M.Reachable s ∧ view s = x := by
  induction h with
  | init => exact ⟨M.init, .init, H.init⟩
  | @step x y b _ _ hb ih =>
    obtain ⟨s, hs, rfl⟩ := ih
    refine Reach.eventually H.down (P := fun t => view t = view s) (fun t ht heq => ?_) hs rfl
    obtain ⟨a, u, hu, hview⟩ := H.follow b t y ht (by rwa [heq])
    exact .inr ⟨a, u, hu, hview.imp_right fun h => h.trans heq⟩

/-- Where `N` has come to an end, `M` comes to one that looks the same. -/
theorem exists_stopped (H : Implements M N view μ) {Stopped : σ → Prop}
    (goes : ∀ s, M.Reachable s → ¬ Stopped s → ∃ a t, M.step a s = some t) (h : N.Reachable x)
    (hx : ∀ b, N.step b x = none) : ∃ s, M.Reachable s ∧ view s = x ∧ Stopped s := by
  obtain ⟨s, hs, hview⟩ := H.exists_view_eq h
  refine Reach.eventually H.down (P := fun t => view t = x) (fun t ht heq => ?_) hs hview
  rcases em (Stopped t) with hstop | hstop
  · exact .inl ⟨heq, hstop⟩
  · obtain ⟨a, u, hu⟩ := goes t ht hstop
    refine .inr ⟨a, u, hu, .inr ?_⟩
    rcases H.sim a t u ht hu with hsame | ⟨b, hb⟩
    · exact hsame.trans heq
    · rw [heq, hx b] at hb
      cases hb

end Implements

/-! ### Mirrors -/

/-- `M` does, move for move, what `N` does, under other names for the moves and with states that are seen through `view`. -/
structure Mirrors (M : Machine σ α) (N : Machine τ β) (name : α → β) (view : σ → τ) : Prop where
  init : view M.init = N.init
  onto : Function.Surjective name
  step : ∀ a s, M.Reachable s → (M.step a s).map view = N.step (name a) (view s)

namespace Mirrors
variable {N : Machine τ β} {name : α → β} {view : σ → τ} {x : τ}

theorem step_of_step {a : α} (H : Mirrors M N name view) (h : M.Reachable s) (hs : M.step a s = some t) :
    N.step (name a) (view s) = some (view t) := by
  rw [← H.step a s h, hs, Option.map_some]

theorem exists_step {b : β} (H : Mirrors M N name view) (h : M.Reachable s) (hb : N.step b (view s) = some x) :
    ∃ a t, M.step a s = some t ∧ name a = b ∧ view t = x := by
  obtain ⟨a, rfl⟩ := H.onto b
  rw [← H.step a s h] at hb
  obtain ⟨t, hs, ht⟩ := Option.map_eq_some_iff.mp hb
  exact ⟨a, t, hs, rfl, ht⟩

theorem reachable (H : Mirrors M N name view) (h : M.Reachable s) : N.Reachable (view s) := by
  induction h with
  | init =>
    rw [H.init]
    exact .init
  | step a hs _ hstep ih => exact ih.step (name a) trivial (H.step_of_step hs hstep)

theorem exists_reachable (H : Mirrors M N name view) (h : N.Reachable x) : ∃ s, M.Reachable s ∧ view s = x := by
  induction h with
  | init => exact ⟨M.init, .init, H.init⟩
  | step b _ _ hb ih =>
    obtain ⟨s, hs, rfl⟩ := ih
    obtain ⟨a, t, hstep, -, ht⟩ := H.exists_step hs hb
    exact ⟨t, hs.step a trivial hstep, ht⟩

theorem run {as : List α} (H : Mirrors M N name view) (h : M.Reachable s) (hr : M.run as s = some t) :
    N.run (as.map name) (view s) = some (view t) := by
  induction as generalizing s with
  | nil =>
    cases hr
    rfl
  | cons a as ih =>
    obtain ⟨u, hs, hr⟩ := run_cons_eq_some.mp hr
    exact run_cons_eq_some.mpr ⟨view u, H.step_of_step h hs, ih (h.step a trivial hs) hr⟩

/-- A run of the other machine is followed. -/
theorem exists_run {bs : List β} (H : Mirrors M N name view) (h : M.Reachable s) (hr : N.run bs (view s) = some x) :
    ∃ as t, M.run as s = some t ∧ view t = x := by
  induction bs generalizing s with
  | nil =>
    cases hr
    exact ⟨[], s, rfl, rfl⟩
  | cons b bs ih =>
    obtain ⟨y, hb, hr⟩ := run_cons_eq_some.mp hr
    obtain ⟨a, u, hs, -, rfl⟩ := H.exists_step h hb
    obtain ⟨as, t, hr, ht⟩ := ih (h.step a trivial hs) hr
    exact ⟨a :: as, t, run_cons_eq_some.mpr ⟨u, hs, hr⟩, ht⟩

theorem trans {ω γ : Type*} {N : Machine τ β} {K : Machine ω γ} {name : α → β} {name' : β → γ} {view : σ → τ} {view' : τ → ω}
    (H : Mirrors M N name view) (H' : Mirrors N K name' view') : Mirrors M K (name' ∘ name) (view' ∘ view) where
  init := (congrArg view' H.init).trans H'.init
  onto := H'.onto.comp H.onto
  step a s h := by
    rw [← Option.map_map, H.step a s h]
    exact H'.step (name a) (view s) (H.reachable h)

end Mirrors

end Machine
