import Racey.Basic
import Racey.Theorems.Mix

/-! racey-basic is a function of its conflict order: the order of two steps is visible in the results only
    if they touch the same cell and at least one of them writes it. -/

namespace Racey.Basic
open CellProgram

variable {c : Config} {s s' : State} {t : ℕ}

theorem step_eq_some : step c t s = some s' ↔ Running c t s ∧
    s' = ⟨Function.update s.thread t ⟨(s.thread t).pc.count (s.thread t).i, ((s.thread t).pc.step t s.mem).1⟩,
      ((s.thread t).pc.step t s.mem).2⟩ := by
  unfold step
  split
  · rename_i h
    simp only [h, true_and, Option.some.injEq]
    exact eq_comm
  · rename_i h
    simp [h]

theorem cells_step (h : step c t s = some s') :
    (program c).cell (s.local t) = some ((s.thread t).pc.index (s.mem.sig t)) ∧
      s'.cells = (program c).after t ((s.thread t).pc.index (s.mem.sig t)) s.cells := by
  obtain ⟨hrun, rfl⟩ := step_eq_some.mp h
  refine ⟨if_pos hrun, ?_⟩
  ext1
  · funext u
    by_cases hu : u = t
    · subst hu
      cases hpc : (s.thread u).pc <;>
        simp [State.cells, State.local, after, program, MixPc.step, MixPc.count, MixPc.index, hpc]
    · cases hpc : (s.thread t).pc <;>
        simp [State.cells, State.local, after, MixPc.step, MixPc.count, hpc, hu]
  · cases hpc : (s.thread t).pc <;>
      simp [State.cells, State.local, after, program, MixPc.step, MixPc.kind, MixPc.index, hpc]

/-- A run is an execution of the program over the cells, with the same steps. -/
theorem exec_of_run {mem : Memory} {as : List ℕ} (h : (machine c mem).run as (start mem) = some s') :
    (program c).Exec (start mem).cells (trace c mem as) s'.cells :=
  CellProgram.exec_of_run (fun _ _ _ hs => cells_step hs) h

theorem finished_of_complete (h : Complete c s) : (program c).Finished s.cells := by
  intro t
  refine if_neg ?_
  rintro ⟨h1, hn, hi⟩
  have := h t h1 hn
  simp only [State.cells, State.local] at h1 hn hi
  omega

/-- Later steps of a thread have later names. -/
def rank : ℕ × MixKind → ℕ
  | (i, .firstRead) => 3 * i
  | (i, .secondRead) => 3 * i + 1
  | (i, .write) => 3 * i + 2

theorem rank_next (l : Local) (v : ℤ) : rank l.label < rank ((program c).next l v).label := by
  cases hpc : l.pc <;> simp only [program, Local.label, MixPc.kind, rank, hpc] <;> omega

/-- Two complete runs of the main loops from the same memory in which every pair of steps that touch the
    same cell, at least one of them a write, in either run comes in the same order in both, end with the
    same `sig`, the same `m` and the same signature. -/
theorem conflict_order_determines {mem : Memory} {as bs : List ℕ} {s s' : State}
    (h : (machine c mem).run as (start mem) = some s) (h' : (machine c mem).run bs (start mem) = some s')
    (hc : Complete c s) (hc' : Complete c s')
    (order : (program c).SameConflicts Local.label (trace c mem as) (trace c mem bs)) :
    s.mem.sig = s'.mem.sig ∧ s.mem.m = s'.mem.m ∧
      mixSig c.numProcs s.mem.sig = mixSig c.numProcs s'.mem.sig := by
  have heq : s.cells = s'.cells := final_eq_of_conflicts (fun l v => rank_next l v) (exec_of_run h)
    (exec_of_run h') (finished_of_complete hc) (finished_of_complete hc') order
  have hsig : s.mem.sig = s'.mem.sig := by
    funext t
    exact congrArg (fun x => (x.loc t).sig) heq
  exact ⟨hsig, congrArg CellProgram.State.mem heq, by rw [hsig]⟩

/-- Exchanging the first reads of two threads changes nothing. -/
theorem conflict_order_determines_swap :
    ∃ s s', (machine ⟨2, 1⟩ Memory.init).run [1, 2, 1, 1, 2, 2] (start Memory.init) = some s ∧
      (machine ⟨2, 1⟩ Memory.init).run [2, 1, 1, 1, 2, 2] (start Memory.init) = some s' ∧
      s.mem.sig = s'.mem.sig ∧ s.mem.m = s'.mem.m ∧ mixSig 2 s.mem.sig = mixSig 2 s'.mem.sig := by
  refine ⟨_, _, rfl, rfl, @conflict_order_determines ⟨2, 1⟩ Memory.init [1, 2, 1, 1, 2, 2] [2, 1, 1, 1, 2, 2] _ _
    rfl rfl ?_ ?_ (by decide)⟩
  all_goals
    intro t h1 ht
    obtain rfl | rfl : t = 1 ∨ t = 2 := by simp only at ht; omega
    all_goals rfl

end Racey.Basic
