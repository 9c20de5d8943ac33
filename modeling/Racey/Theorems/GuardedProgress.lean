import Mathlib.Algebra.Order.BigOperators.Group.Finset
import Mathlib.Order.Interval.Finset.Nat
import Mathlib.Tactic.Ring
import Racey.Lib.Waits
import Racey.Theorems.Guarded

/-! racey-guarded does not deadlock, and it comes to an end: a thread that waits for a lock holds none, and an iteration
    takes ten steps. -/

namespace Racey.Guarded
open Machine

variable {c : Config} {mem : Memory} {s s' : State} {o : ℕ → ℕ} {t u l : ℕ}

/-! ### Waiting -/

/-- The lock that a thread in its loop is about to acquire. -/
def State.wants (c : Config) (s : State) (t : ℕ) : Option ℕ :=
  if Running c t s then (s.thread t).pc.acquires (s.mem.sig t) else none

theorem wants_eq_some : s.wants c t = some l ↔ Running c t s ∧ (s.thread t).pc.acquires (s.mem.sig t) = some l := by
  rw [State.wants]
  split
  · rename_i hrun
    exact (and_iff_right hrun).symm
  · rename_i hrun
    exact iff_of_false (fun h => by cases h) fun h => hrun h.1

theorem Pc.holds_of_acquires {pc : Pc} {sig : ℕ} (h : pc.acquires sig ≠ none) : pc.holds = none := by
  cases pc with
  | lockItem1 | lockItem2 num => rfl
  | _ => exact absurd rfl h

theorem noHoldAndWait : Waits.NoHoldAndWait s.holds (s.wants c) := by
  intro t ht
  obtain ⟨l, hl⟩ := Option.ne_none_iff_exists'.mp ht
  obtain ⟨-, hl⟩ := wants_eq_some.mp hl
  exact Pc.holds_of_acquires (by rw [hl]; exact Option.some_ne_none l)

theorem Inv.waitsFor_iff (h : Inv c s) : WaitsFor c s t u ↔ Waits.On s.holds (s.wants c) t u := by
  constructor
  · rintro ⟨hrun, l, hl, hu⟩
    exact ⟨l, wants_eq_some.mpr ⟨hrun, hl⟩, (h.held u l).mp hu⟩
  · rintro ⟨l, hl, hu⟩
    obtain ⟨hrun, hl⟩ := wants_eq_some.mp hl
    exact ⟨hrun, l, hl, (h.held u l).mpr hu⟩

theorem Inv.not_cycle (h : Inv c s) : ¬ Relation.TransGen (WaitsFor c s) t t := fun hcycle =>
  Waits.acyclic noHoldAndWait (Relation.TransGen.mono (fun _ _ => h.waitsFor_iff.mp) _ _ hcycle)

/-- A thread in its loop takes a step, unless it waits for somebody. -/
theorem exists_step (hrun : Running c t s) (hfree : ∀ u, ¬ WaitsFor c s t u) : ∃ s', step c t s = some s' := by
  have hlock : ∀ l, (s.thread t).pc.acquires (s.mem.sig t) = some l → s.locks l = none := by
    intro l hl
    by_contra hheld
    obtain ⟨u, hu⟩ := Option.ne_none_iff_exists'.mp hheld
    exact hfree u ⟨hrun, l, hl, hu⟩
  unfold step
  rw [if_pos hrun]
  cases hpc : (s.thread t).pc <;> rw [hpc] at hlock
  case lockItem1 | lockItem2 num =>
    have hnone := hlock _ rfl
    simp only [lockItem, hnone, if_true, Option.map_some]
    exact ⟨_, rfl⟩
  all_goals exact ⟨_, rfl⟩

theorem Inv.exists_step (h : Inv c s) (hrun : Running c t s) : ∃ u s', Guarded.step c u s = some s' := by
  have holder : ∀ t u, Waits.On s.holds (s.wants c) t u → Running c u s := by
    rintro t u ⟨l, -, hu⟩
    refine h.running u fun hpc => ?_
    rw [State.holds, hpc] at hu
    cases hu
  obtain ⟨u, hrun, hfree⟩ := Waits.exists_free noHoldAndWait holder hrun
  exact ⟨u, Guarded.exists_step hrun fun v hv => hfree v (h.waitsFor_iff.mp hv)⟩

/-! ### Progress -/

/-- How many of the ten steps of its iteration a thread has taken. -/
def Pc.taken : Pc → ℕ
  | .lockItem1 => 0
  | .load1 _ _ => 1
  | .mix1 _ _ _ => 2
  | .unlockItem1 _ _ => 3
  | .lockItem2 _ => 4
  | .load2 _ _ => 5
  | .mix2 _ _ _ => 6
  | .store _ _ _ => 7
  | .unlockItem2 _ _ => 8
  | .setSig _ => 9

def Thread.taken (th : Thread) : ℕ := 10 * th.i + th.pc.taken

/-- How many steps all threads have taken. -/
def State.taken (c : Config) (s : State) : ℕ := ∑ t ∈ Finset.Icc 1 c.numProcs, (s.thread t).taken

/-- What a step does to the threads: one has taken one step more, in the same iteration or in the next. -/
theorem thread_of_step (hs : step c t s = some s') : ∃ th, s'.thread = Function.update s.thread t th ∧
    th.taken = (s.thread t).taken + 1 ∧ th.i ≤ (s.thread t).i + 1 := by
  obtain ⟨-, hstep⟩ := step_cases hs
  have hpc : (s.thread t).taken = 10 * (s.thread t).i + (s.thread t).pc.taken := rfl
  generalize (s.thread t).pc = pc at hstep hpc
  cases hstep with
  | setSig result =>
    refine ⟨_, rfl, ?_, le_rfl⟩
    simp only [Thread.taken, Pc.taken] at hpc ⊢
    omega
  | _ =>
    refine ⟨_, rfl, ?_, Nat.le_succ _⟩
    simp only [Thread.taken, Pc.taken] at hpc ⊢
    omega

theorem taken_succ (hs : step c t s = some s') : s'.taken c = s.taken c + 1 := by
  obtain ⟨h1, hn, -⟩ := (step_cases hs).1
  obtain ⟨th, hthread, htaken, -⟩ := thread_of_step hs
  have hsum := sum_change (f := fun u => (s.thread u).taken) (g := fun u => (s'.thread u).taken)
    (Finset.mem_Icc.mpr ⟨h1, hn⟩) fun u hu => by rw [hthread, Function.update_of_ne hu]
  have hself : (s'.thread t).taken = (s.thread t).taken + 1 := by rw [hthread, Function.update_self, htaken]
  simp only [State.taken] at hsum ⊢
  omega

theorem taken_run {as : List ℕ} (hr : (machine c mem).run as (start mem) = some s) : s.taken c = as.length := by
  have hcount := length_of_count (μ := State.taken c) (fun t s s' hs => taken_succ hs) hr
  have hstart : (start mem).taken c = 0 := Finset.sum_eq_zero fun t _ => rfl
  rw [hcount, hstart, Nat.zero_add]

/-- No thread goes beyond its last iteration. -/
def Within (c : Config) (s : State) : Prop := ∀ t, (s.thread t).i ≤ c.maxLoop

theorem Within.step (h : Within c s) (hs : step c t s = some s') : Within c s' := by
  obtain ⟨-, -, hi⟩ := (step_cases hs).1
  obtain ⟨th, hthread, -, hle⟩ := thread_of_step hs
  intro u
  rw [hthread]
  rcases eq_or_ne u t with rfl | hu
  · rw [Function.update_self]
    exact hle.trans hi
  · rw [Function.update_of_ne hu]
    exact h u

theorem Inv.taken_le (h : Inv c s) (hw : Within c s) (t : ℕ) : (s.thread t).taken ≤ 10 * c.maxLoop := by
  have hle := hw t
  by_cases hpc : (s.thread t).pc = .lockItem1
  · rw [Thread.taken, hpc]
    exact Nat.mul_le_mul_left 10 hle
  · obtain ⟨-, -, hi⟩ := h.running t hpc
    have htaken : (s.thread t).pc.taken ≤ 9 := by cases (s.thread t).pc <;> simp [Pc.taken]
    rw [Thread.taken]
    omega

theorem Inv.sum_taken_le (h : Inv c s) (hw : Within c s) : s.taken c ≤ 10 * c.numProcs * c.maxLoop := by
  calc s.taken c ≤ ∑ t ∈ Finset.Icc 1 c.numProcs, 10 * c.maxLoop := Finset.sum_le_sum fun t _ => h.taken_le hw t
    _ = (Finset.Icc 1 c.numProcs).card * (10 * c.maxLoop) := Finset.sum_const_nat fun _ _ => rfl
    _ = 10 * c.numProcs * c.maxLoop := by
      rw [Nat.card_Icc, Nat.add_sub_cancel]
      ring

/-! ### The end -/

theorem complete_of_stuck (h : Inv c s) (hw : Within c s) (hstuck : ∀ t, step c t s = none) : Complete c s := by
  intro t h1 hn
  refine le_antisymm (hw t) (not_lt.mp fun hi => ?_)
  obtain ⟨u, s', hs⟩ := h.exists_step ⟨h1, hn, hi⟩
  rw [hstuck u] at hs
  cases hs

theorem locks_free (h : Inv c s) (hc : Complete c s) (l : ℕ) : s.locks l = none := by
  refine Option.eq_none_iff_forall_ne_some.mpr fun t ht => ?_
  rw [h.held, State.holds, complete_pc h hc t] at ht
  cases ht

theorem taken_of_complete (h : Inv c s) (hc : Complete c s) : s.taken c = 10 * c.numProcs * c.maxLoop := by
  have hthread : ∀ t ∈ Finset.Icc 1 c.numProcs, (s.thread t).taken = 10 * c.maxLoop := by
    intro t ht
    obtain ⟨h1, hn⟩ := Finset.mem_Icc.mp ht
    rw [Thread.taken, complete_pc h hc t, hc t h1 hn]
    rfl
  rw [State.taken, Finset.sum_const_nat hthread, Nat.card_Icc, Nat.add_sub_cancel]
  ring

/-- The updates of a thread are the second critical sections of it that have taken effect. -/
def Updated (s : State) (o : ℕ → ℕ) : Prop := ∀ t, o t = (s.thread t).atomic.i

theorem Updated.step (h : Updated s o) (hs : step c t s = some s') : Updated s' (updates.note t s o) := by
  obtain ⟨-, hstep⟩ := step_cases hs
  intro u
  have hold := h u
  rcases eq_or_ne u t with rfl | hu
  · rw [Thread.atomic] at hold
    simp only [updates]
    generalize (s.thread u).pc = pc at hstep hold ⊢
    cases hstep with
    | store index2 num result => simpa [State.goto, Thread.atomic] using hold
    | setSig result => simpa [Thread.atomic] using hold
    | _ => simpa [State.goto, Thread.atomic] using hold
  · have hnote : updates.note t s o u = o u := by
      simp only [updates]
      cases (s.thread t).pc with
      | store index2 num result => exact Function.update_of_ne hu _ _
      | _ => rfl
    obtain ⟨th, hthread, -⟩ := thread_of_step hs
    rw [hnote, hold, hthread, Function.update_of_ne hu]

theorem invs_of_reach (h : ((machine c mem).watch updates).Reachable (s, o)) : Inv c s ∧ Within c s ∧ Updated s o := by
  refine h.invariant (I := fun p => Inv c p.1 ∧ Within c p.1 ∧ Updated p.1 p.2)
    ⟨inv_start, fun _ => Nat.zero_le _, fun _ => rfl⟩ fun t p q ⟨I, W, U⟩ _ hs => ?_
  obtain ⟨hs, ho⟩ := watch_step_eq_some.mp hs
  rw [ho]
  exact ⟨I.step hs, W.step hs, U.step hs⟩

/-- While a thread is in its loop some thread can go on; no threads wait for each other in a circle, not even one for itself;
    a run has at most ten steps for each iteration; and one that cannot go on has made all of them, each thread with
    `MaxLoop` updates, and has left all locks free. -/
theorem never_deadlocks (c : Config) (mem : Memory) :
    (∀ s, (machine c mem).Reachable s → ∀ t, Running c t s → ∃ u s', step c u s = some s') ∧
      (∀ s, (machine c mem).Reachable s → ∀ t, ¬ Relation.TransGen (WaitsFor c s) t t) ∧
      (∀ as s, (machine c mem).run as (start mem) = some s → as.length ≤ 10 * c.numProcs * c.maxLoop) ∧
      ∀ as s o, ((machine c mem).watch updates).run as (start mem, updates.start) = some (s, o) →
        (∀ t, step c t s = none) → Complete c s ∧ as.length = 10 * c.numProcs * c.maxLoop ∧
          (∀ t, 1 ≤ t → t ≤ c.numProcs → o t = c.maxLoop) ∧ ∀ l, s.locks l = none := by
  have invs : ∀ s, (machine c mem).Reachable s → Inv c s ∧ Within c s := by
    intro s hs
    obtain ⟨o, hs⟩ := hs.watch updates
    obtain ⟨I, W, -⟩ := invs_of_reach hs
    exact ⟨I, W⟩
  refine ⟨fun s hs t hrun => (invs s hs).1.exists_step hrun, fun s hs t => (invs s hs).1.not_cycle,
    fun as s hr => ?_, fun as s o hr hstuck => ?_⟩
  · obtain ⟨I, W⟩ := invs s (reachable_of_run hr)
    rw [← taken_run hr]
    exact I.sum_taken_le W
  · obtain ⟨I, W, U⟩ := invs_of_reach (reachable_of_run hr)
    have hc := complete_of_stuck I W hstuck
    refine ⟨hc, ?_, fun t h1 hn => ?_, locks_free I hc⟩
    · rw [← taken_run (run_of_watch hr), taken_of_complete I hc]
    · rw [U t, Thread.atomic, complete_pc I hc t]
      exact hc t h1 hn

end Racey.Guarded
