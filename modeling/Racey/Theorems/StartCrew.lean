import Racey.Theorems.StartBarrier
import Racey.Theorems.StartMain

/-! A program with the start barrier prints the signatures of what its loops by themselves can end with; and if the loops can
    always be brought to an end then so can the program. -/

namespace Racey.StartBarrier
open Machine
open Start (Phase MainPc Move)

variable {σ : Type} {L : Loops σ} {c : Config} {s s' w w' : State σ} {x y : σ} {t u : ℕ} {v : ℤ} {p : Phase}

/-! ### A fork–join program -/

/-- The state without what concerns `main`. -/
def State.threads (s : State σ) : State σ := { s with main := .join 0 }

theorem stepThread_threads : (stepThread L t s).map State.threads = stepThread L t s.threads := by
  show _ = stepThread L t { s with main := .join 0 }
  unfold stepThread
  cases s.phase t with
  | lock => exact apply_ite (Option.map State.threads) _ _ _
  | spin => exact congrArg some (apply_ite State.threads _ _ _)
  | loop =>
    dsimp only
    rw [apply_ite (Option.map State.threads), Option.map_map]
    rfl
  | _ => rfl

theorem stepThread_main (h : stepThread L t s = some s') : s'.main = s.main := by
  obtain ⟨-, -, -, hmain⟩ := thread_cases h
  exact hmain

theorem phase_of_step (h : stepThread L t s = some s') : s.phase t ≠ .unborn ∧ s'.phase t ≠ .unborn ∧
    s.phase t ≠ .returned ∧ ∀ u, u ≠ t → s'.phase u = s.phase u := by
  obtain ⟨p, hm, hphase, -⟩ := thread_cases h
  refine ⟨?_, ?_, ?_, fun u hu => by rw [hphase, Function.update_of_ne hu]⟩
  · intro hp
    rw [hp] at hm
    cases hm
  · rw [hphase, Function.update_self]
    generalize s.phase t = pt at hm
    generalize s'.startCounter = counter at hm
    generalize s'.threadLock = owner at hm
    cases hm <;> simp
  · intro hp
    rw [hp] at hm
    cases hm

/-- The threads as if `main` had created all of them. -/
def State.born (c : Config) (s : State σ) : State σ :=
  { s with phase := fun t => if s.phase t = .unborn ∧ 1 ≤ t ∧ t ≤ c.numProcs then .lock else s.phase t }

theorem born_phase (h : s.phase t ≠ .unborn) : (s.born c).phase t = s.phase t := if_neg fun hp => h hp.1

theorem born_setPhase (hp : p ≠ .unborn) : (s.setPhase t p).born c = (s.born c).setPhase t p := by
  simp only [State.born, State.setPhase, State.mk.injEq, true_and, and_true]
  funext u
  rcases eq_or_ne u t with rfl | hu
  · simp [hp]
  · simp [hu]

theorem born_spawn (h1 : 1 ≤ t) (hn : t ≤ c.numProcs) (h : s.phase t = .unborn) :
    (s.setPhase t .lock).born c = s.born c := by
  rw [born_setPhase (by simp)]
  simp only [State.born, State.setPhase, State.mk.injEq, true_and, and_true]
  rw [Function.update_eq_iff]
  exact ⟨(if_pos ⟨h, h1, hn⟩).symm, fun _ _ => rfl⟩

theorem returned_born : (s.born c).phase t = .returned ↔ s.phase t = .returned := by
  by_cases h : s.phase t = .unborn
  · simp only [State.born, h, true_and]
    split <;> simp
  · rw [born_phase h]

theorem stepThread_born (h : s.phase t ≠ .unborn) :
    (stepThread L t s).map (State.born c) = stepThread L t (s.born c) := by
  unfold stepThread
  rw [born_phase h]
  cases hp : s.phase t with
  | unborn => exact absurd hp h
  | returned | reaped => rfl
  | lock =>
    refine (apply_ite (Option.map (State.born c)) _ _ _).trans (if_congr Iff.rfl (congrArg some ?_) rfl)
    exact congrArg (fun b : State σ => { b with threadLock := some t }) (born_setPhase (p := .load) (by simp))
  | load => exact congrArg some (born_setPhase (by simp))
  | store v =>
    exact congrArg (fun b : State σ => some { b with startCounter := v - 1 }) (born_setPhase (p := .test) (by simp))
  | test => exact congrArg some (born_setPhase (by simp))
  | unlock =>
    exact congrArg (fun b : State σ => some { b with threadLock := none }) (born_setPhase (p := .spin) (by simp))
  | spin =>
    refine congrArg some ((apply_ite (State.born c) _ _ _).trans ?_)
    rw [born_setPhase (by simp)]
    rfl
  | loop =>
    refine (apply_ite (Option.map (State.born c)) _ _ _).trans ?_
    rw [Option.map_some, born_setPhase (by simp), Option.map_map]
    rfl

/-- The program: `main` creates and joins its threads, and folds the entries of `sig`. -/
def crew (L : Loops σ) (c : Config) : Crew (State σ) ℕ MainPc where
  n := c.numProcs
  init := (start L c).threads
  step := stepThread L
  owner t := t
  spawn t s := s.setPhase t .lock
  unborn t s := s.phase t = .unborn
  born := State.born c
  ended t s := decide (s.phase t = .returned)
  first := .first
  rest s := Start.rest c.numProcs (L.sig s.loops)

theorem lawful (L : Loops σ) (c : Config) : (crew L c).Lawful where
  unborn_init _ := rfl
  none_of_unborn t s h := by
    show stepThread L t s = none
    rw [stepThread, show s.phase t = .unborn from h]
  step_born _ _ h := stepThread_born h
  unborn_step t s s' u hs := by
    obtain ⟨h1, h2, -, hother⟩ := phase_of_step hs
    show s'.phase u = .unborn ↔ s.phase u = .unborn
    rcases eq_or_ne u t with rfl | hu
    · exact iff_of_false h2 h1
    · rw [hother u hu]
  unborn_spawn t u s := by
    show (s.setPhase u .lock).phase t = .unborn ↔ _
    rcases eq_or_ne t u with rfl | hu
    · simp [State.setPhase]
    · simp [State.setPhase, hu, crew]
  born_spawn _ _ h1 hn h := born_spawn h1 hn h
  ended_born _ _ := decide_eq_decide.mpr returned_born
  rest_born _ _ := rfl

def name : Move → Option ℕ
  | .main => none
  | .thread t => some t

theorem mirrors_crew (L : Loops σ) (c : Config) :
    Mirrors (machine L c) (crew L c).machine name fun s => ⟨s.main.forkJoin, s.threads⟩ where
  init := rfl
  onto b := by
    cases b with
    | none => exact ⟨.main, rfl⟩
    | some t => exact ⟨.thread t, rfl⟩
  step a s _ := by
    cases a with
    | thread t =>
      show (stepThread L t s).map _ = (stepThread L t s.threads).map _
      rw [← stepThread_threads, Option.map_map]
      refine Option.map_congr fun s' hs => ?_
      rw [stepThread_main hs]
      rfl
    | main =>
      show (stepMain L c s).map _ = Crew.stepMain (crew L c) _
      unfold stepMain Crew.stepMain
      cases s.main with
      | create i => exact (apply_ite (Option.map _) _ _ _).trans (apply_ite some _ _ _).symm
      | join i =>
        dsimp only [MainPc.forkJoin, crew]
        simp only [decide_eq_true_iff]
        rw [apply_ite (Option.map _), apply_ite (Option.map _)]
        rfl
      | result i mix_sig =>
        dsimp only [MainPc.forkJoin, crew, Start.rest]
        rw [apply_ite (Option.map _), Option.map_some, Option.map_some, ← apply_ite some, Option.map_some]
        split <;> rfl
      | first | printed mix_sig => rfl

abbrev fork (L : Loops σ) (c : Config) : ForkJoin (State σ) ℕ MainPc := (crew L c).forkJoin

theorem mirrors (L : Loops σ) (c : Config) :
    Mirrors (machine L c) (fork L c).machine name fun s => ⟨s.main.forkJoin, s.threads.born c⟩ :=
  (mirrors_crew L c).trans (Crew.mirrors (lawful L c))

theorem workers_step_eq_some : (fork L c).workers.step t w = some w' ↔
    (1 ≤ t ∧ t ≤ c.numProcs) ∧ stepThread L t w = some w' := Option.ite_none_right_eq_some

theorem proper (L : Loops σ) (c : Config) : (fork L c).Proper where
  owned t s s' hs := by
    obtain ⟨⟨h1, hn⟩, hs⟩ := workers_step_eq_some.mp hs
    exact ⟨h1, hn, decide_eq_false (phase_of_step hs).2.2.1⟩
  stays t s s' u hs hu := by
    obtain ⟨-, hs⟩ := workers_step_eq_some.mp hs
    obtain ⟨-, -, hlive, hother⟩ := phase_of_step hs
    have hu : s.phase u = .returned := of_decide_eq_true hu
    have hne : u ≠ t := fun heq => hlive (heq ▸ hu)
    exact decide_eq_true ((hother u hne).trans hu)

/-! ### The threads by themselves -/

/-- The threads are in a state of the program in which `main` has created all of them. -/
theorem reachable_of_workers (hw : (fork L c).workers.Reachable w) :
    (machine L c).Reachable w ∧ w.main = .join 0 := by
  obtain ⟨s, hs, hview⟩ := (mirrors L c).exists_reachable (ForkJoin.exists_follow (proper L c) hw)
  have hmain : s.main.forkJoin = .join 0 := congrArg ForkJoin.State.main hview
  have hborn : s.threads.born c = w := congrArg ForkJoin.State.workers hview
  have hjoin : s.main = .join 0 := by
    cases hs : s.main <;> rw [hs] at hmain <;> cases hmain
    rfl
  have hall : ∀ t, 1 ≤ t → t ≤ c.numProcs → s.phase t ≠ .unborn := fun t h1 hn => by
    refine ((inv_of_reachable hs).born t).mpr ⟨h1, ?_⟩
    rw [State.created, hjoin]
    exact hn
  have hself : w = s := by
    rw [← hborn]
    obtain ⟨main, phase, startCounter, threadLock, loops⟩ := s
    simp only [State.born, State.threads, State.mk.injEq, and_true]
    refine ⟨hjoin.symm, funext fun t => if_neg ?_⟩
    rintro ⟨hunborn, h1, hn⟩
    exact hall t h1 hn hunborn
  rw [hself]
  exact ⟨hs, hjoin⟩

theorem inv_of_workers (hw : (fork L c).workers.Reachable w) : Inv c w := inv_of_reachable (reachable_of_workers hw).1

theorem born_of_workers (hw : (fork L c).workers.Reachable w) (h1 : 1 ≤ t) (hn : t ≤ c.numProcs) :
    w.phase t ≠ .unborn := by
  obtain ⟨hs, hmain⟩ := reachable_of_workers hw
  refine ((inv_of_reachable hs).born t).mpr ⟨h1, ?_⟩
  rw [State.created, hmain]
  exact hn

/-- What a step has to do with the loops. -/
theorem loops_cases (h : stepThread L t s = some s') :
    (s.phase t = .loop ∧ L.ended t s.loops = true ∧ s' = s.setPhase t .returned) ∨
      (s.phase t = .loop ∧ L.ended t s.loops = false ∧ ∃ x, L.step t s.loops = some x ∧ s' = { s with loops := x }) ∨
      s'.loops = s.loops ∧ s'.phase t ≠ .returned := by
  unfold stepThread at h
  split at h
  case h_1 | h_2 | h_3 => cases h
  case h_4 =>
    obtain ⟨-, ⟨⟩⟩ := Option.ite_none_right_eq_some.mp h
    exact .inr (.inr ⟨rfl, by simp [State.setPhase]⟩)
  case h_5 | h_6 | h_7 | h_8 =>
    cases h
    exact .inr (.inr ⟨rfl, by simp [State.setPhase]⟩)
  case h_9 hp =>
    cases h
    refine .inr (.inr ?_)
    split
    · exact ⟨rfl, by simp [State.setPhase]⟩
    · exact ⟨rfl, by simp [hp]⟩
  case h_10 hp =>
    split at h
    · rename_i hended
      cases h
      exact .inl ⟨hp, hended, rfl⟩
    · rename_i hended
      obtain ⟨x, hx, rfl⟩ := Option.map_eq_some_iff.mp h
      exact .inr (.inl ⟨hp, Bool.eq_false_iff.mpr hended, x, hx, rfl⟩)

/-- The loops move the threads that have not ended, and who has ended stays so. -/
structure Loops.Proper (L : Loops σ) (c : Config) : Prop where
  live : ∀ t x y, L.step t x = some y → (1 ≤ t ∧ t ≤ c.numProcs) ∧ L.ended t x = false
  stays : ∀ t u x y, L.step t x = some y → L.ended u x = true → L.ended u y = true

/-- The loops are in a state that they reach by themselves, and have ended for the threads that have returned. -/
structure Ok (L : Loops σ) (w : State σ) : Prop where
  loops : L.machine.Reachable w.loops
  ended : ∀ t, w.phase t = .returned → L.ended t w.loops = true

theorem ok_of_workers (H : L.Proper c) (hw : (fork L c).workers.Reachable w) : Ok L w := by
  refine hw.invariant ⟨.init, fun t h => ?_⟩ fun t s s' hok _ hs => ?_
  · have hinit : ((fork L c).workers.init).phase t ≠ .returned := by
      show (if _ then Phase.lock else Phase.unborn) ≠ .returned
      split <;> simp
    exact absurd h hinit
  · obtain ⟨-, hs⟩ := workers_step_eq_some.mp hs
    have hother := (phase_of_step hs).2.2.2
    rcases loops_cases hs with ⟨-, hended, rfl⟩ | ⟨hp, -, x, hx, rfl⟩ | ⟨hloops, hp⟩
    · refine ⟨hok.loops, fun u hu => ?_⟩
      rcases eq_or_ne u t with rfl | hne
      · exact hended
      · exact hok.ended u ((hother u hne).symm.trans hu)
    · exact ⟨hok.loops.step t trivial hx, fun u hu => H.stays t u _ _ hx (hok.ended u hu)⟩
    · refine ⟨hloops ▸ hok.loops, fun u hu => ?_⟩
      rcases eq_or_ne u t with rfl | hne
      · exact absurd hu hp
      · rw [hloops]
        exact hok.ended u ((hother u hne).symm.trans hu)

/-! ### Through the barrier -/

/-- The steps that a thread has before it, other than those of its loop. -/
def before : Phase → ℕ
  | .unborn | .lock => 7
  | .load => 6
  | .store _ => 5
  | .test => 4
  | .unlock => 3
  | .spin => 2
  | .loop => 1
  | .returned | .reaped => 0

def State.before (c : Config) (s : State σ) : ℕ := ∑ t ∈ Finset.Icc 1 c.numProcs, StartBarrier.before (s.phase t)

theorem before_lt (ht : t ∈ Finset.Icc 1 c.numProcs) (hp : before p < before (s.phase t))
    (hphase : s'.phase = Function.update s.phase t p) : s'.before c < s.before c := by
  have hsum := sum_change (f := fun u => before (s.phase u)) (g := fun u => before (s'.phase u)) ht fun u hu => by
    rw [hphase, Function.update_of_ne hu]
  rw [hphase, Function.update_self, ← hphase] at hsum
  simp only [State.before]
  omega

/-- A step that brings a thread closer to its loop. -/
structure Nearer (c : Config) (s s' : State σ) : Prop where
  before : s'.before c < s.before c
  loops : s'.loops = s.loops
  returned : ∀ t, s'.phase t = .returned → s.phase t = .returned

theorem nearer_setPhase (ht : t ∈ Finset.Icc 1 c.numProcs) (hp : before p < before (s.phase t)) (hret : p ≠ .returned)
    (startCounter : ℤ) (threadLock : Option ℕ) :
    Nearer c s { s.setPhase t p with startCounter := startCounter, threadLock := threadLock } := by
  refine ⟨before_lt ht hp rfl, rfl, fun u hu => ?_⟩
  rcases eq_or_ne u t with rfl | hne
  · exact absurd (by simpa [State.setPhase] using hu) hret
  · simpa [State.setPhase, hne] using hu

/-- A thread before its loop that waits neither for the lock nor for the counter comes nearer with its next step. -/
theorem exists_nearer_of (ht : t ∈ Finset.Icc 1 c.numProcs) (hborn : s.phase t ≠ .unborn)
    (hrel : released (s.phase t) = false) (hfree : s.phase t = .lock → s.threadLock = none)
    (hzero : s.phase t = .spin → s.startCounter = 0) : ∃ s', stepThread L t s = some s' ∧ Nearer c s s' := by
  unfold stepThread
  cases hp : s.phase t with
  | unborn => exact absurd hp hborn
  | lock =>
    simp only [if_pos (hfree hp)]
    exact ⟨_, rfl, nearer_setPhase ht (by rw [hp]; exact Nat.lt_succ_self 6) (by simp) _ _⟩
  | load => exact ⟨_, rfl, nearer_setPhase ht (by rw [hp]; exact Nat.lt_succ_self 5) (by simp) _ _⟩
  | store v => exact ⟨_, rfl, nearer_setPhase ht (by rw [hp]; exact Nat.lt_succ_self 4) (by simp) _ _⟩
  | test => exact ⟨_, rfl, nearer_setPhase ht (by rw [hp]; exact Nat.lt_succ_self 3) (by simp) _ _⟩
  | unlock => exact ⟨_, rfl, nearer_setPhase ht (by rw [hp]; exact Nat.lt_succ_self 2) (by simp) _ _⟩
  | spin =>
    simp only [if_pos (hzero hp)]
    exact ⟨_, rfl, nearer_setPhase ht (by rw [hp]; exact Nat.lt_succ_self 1) (by simp) _ _⟩
  | loop | returned | reaped =>
    rw [hp] at hrel
    cases hrel

/-- As long as a thread is before its loop some thread can come nearer to its own. -/
theorem exists_nearer (hw : (fork L c).workers.Reachable w) (ht : t ∈ Finset.Icc 1 c.numProcs)
    (hrel : released (w.phase t) = false) : ∃ u w', (fork L c).workers.step u w = some w' ∧ Nearer c w w' := by
  have I := inv_of_workers hw
  have hborn : ∀ u ∈ Finset.Icc 1 c.numProcs, w.phase u ≠ .unborn := fun u hu => by
    obtain ⟨h1, hn⟩ := Finset.mem_Icc.mp hu
    exact born_of_workers hw h1 hn
  have hlift : ∀ u ∈ Finset.Icc 1 c.numProcs, released (w.phase u) = false → (w.phase u = .lock → w.threadLock = none) →
      (w.phase u = .spin → w.startCounter = 0) → ∃ u w', (fork L c).workers.step u w = some w' ∧ Nearer c w w' := by
    intro u hu hrel hfree hzero
    obtain ⟨w', hs, hnear⟩ := exists_nearer_of (L := L) hu (hborn u hu) hrel hfree hzero
    exact ⟨u, w', workers_step_eq_some.mpr ⟨Finset.mem_Icc.mp hu, hs⟩, hnear⟩
  cases hlock : w.threadLock with
  | some u =>
    -- The thread inside goes on.
    have hin := (I.owner u).mp hlock
    have hin' : w.phase u ≠ .unborn ∧ w.phase u ≠ .lock ∧ w.phase u ≠ .spin ∧ released (w.phase u) = false := by
      generalize w.phase u = p at hin
      cases p with
      | load | store v | test | unlock => simp [released]
      | _ => cases hin
    exact hlift u (I.range hin'.1) hin'.2.2.2 (fun h => absurd h hin'.2.1) fun h => absurd h hin'.2.2.1
  | none =>
    by_cases hzero : w.startCounter = 0
    · exact hlift t ht hrel (fun _ => hlock) fun _ => hzero
    · -- Somebody has not decremented the counter yet.
      obtain ⟨u, hu, hnot⟩ : ∃ u ∈ Finset.Icc 1 c.numProcs, decremented (w.phase u) = false := by
        by_contra hall
        push Not at hall
        refine hzero (I.sound.counter_eq_zero.mpr ?_)
        exact Finset.filter_true_of_mem fun u hu => by simpa using hall u hu
      have hphase : released (w.phase u) = false ∧ w.phase u ≠ .spin := by
        generalize w.phase u = p at hnot
        cases p with
        | unborn | lock | load | store v => simp [released]
        | _ => cases hnot
      exact hlift u hu hphase.1 (fun _ => hlock) fun h => absurd h hphase.2

/-- All threads are past the barrier. -/
def Through (c : Config) (w : State σ) : Prop := ∀ t ∈ Finset.Icc 1 c.numProcs, released (w.phase t) = true

theorem not_reaped (hw : (fork L c).workers.Reachable w) : w.phase t ≠ .reaped := by
  refine hw.invariant (I := fun w => ∀ t, w.phase t ≠ .reaped) (fun t => ?_) (fun t s s' h _ hs u => ?_) t
  · show (if _ then Phase.lock else Phase.unborn) ≠ .reaped
    split <;> simp
  · obtain ⟨-, hs⟩ := workers_step_eq_some.mp hs
    obtain ⟨p, hm, hphase, -⟩ := thread_cases hs
    rw [hphase]
    rcases eq_or_ne u t with rfl | hne
    · rw [Function.update_self]
      generalize s.phase u = pt at hm
      generalize s'.startCounter = counter at hm
      generalize s'.threadLock = owner at hm
      cases hm <;> simp
    · rw [Function.update_of_ne hne]
      exact h u

theorem Through.phase (h : Through c w) (hw : (fork L c).workers.Reachable w) (ht : t ∈ Finset.Icc 1 c.numProcs) :
    w.phase t = .loop ∨ w.phase t = .returned := by
  have hrel := h t ht
  have hreaped := not_reaped (t := t) hw
  generalize w.phase t = p at hrel hreaped
  cases p with
  | loop => exact .inl rfl
  | returned => exact .inr rfl
  | reaped => exact absurd rfl hreaped
  | _ => cases hrel

theorem exists_not_through (h : ¬ Through c w) : ∃ t ∈ Finset.Icc 1 c.numProcs, released (w.phase t) = false := by
  simp only [Through, not_forall, Bool.not_eq_true] at h
  obtain ⟨t, ht, hrel⟩ := h
  exact ⟨t, ht, hrel⟩

/-- All threads get past the barrier before any of them begins its loop. -/
theorem exists_in_loops (L : Loops σ) (c : Config) : ∃ w, (fork L c).workers.Reachable w ∧
    (∀ t, 1 ≤ t → t ≤ c.numProcs → w.phase t = .loop) ∧ w.loops = L.start := by
  obtain ⟨w, hw, ⟨hloops, hret⟩, hthrough⟩ := Reach.exists_within (M := (fork L c).workers)
    (P := fun w => w.loops = L.start ∧ ∀ t, w.phase t ≠ .returned) (Q := Through c) (μ := State.before c)
    (fun w hw ⟨hloops, hret⟩ hnot => by
      obtain ⟨t, ht, hrel⟩ := exists_not_through hnot
      obtain ⟨u, w', hs, hnear⟩ := exists_nearer hw ht hrel
      exact ⟨u, w', trivial, hs, ⟨hnear.loops.trans hloops, fun v hv => hret v (hnear.returned v hv)⟩, hnear.before⟩)
    .init ⟨rfl, fun t => by
      show (if _ then Phase.lock else Phase.unborn) ≠ .returned
      split <;> simp⟩
  exact ⟨w, hw, fun t h1 hn => (hthrough.phase hw (Finset.mem_Icc.mpr ⟨h1, hn⟩)).resolve_right (hret t), hloops⟩

/-- There the threads can follow any interleaving of the loops. -/
theorem exists_follow (H : L.Proper c) (hx : L.machine.Reachable x) : ∃ w, (fork L c).workers.Reachable w ∧
    (∀ t, 1 ≤ t → t ≤ c.numProcs → w.phase t = .loop) ∧ w.loops = x := by
  induction hx with
  | init => exact exists_in_loops L c
  | @step x y t _ _ hstep ih =>
    obtain ⟨w, hw, hphase, rfl⟩ := ih
    obtain ⟨ht, hlive⟩ := H.live t _ _ hstep
    have hthread : stepThread L t w = some { w with loops := y } := by
      rw [stepThread, hphase t ht.1 ht.2]
      refine (if_neg (Bool.eq_false_iff.mp hlive)).trans ?_
      rw [show L.step t w.loops = some y from hstep]
      rfl
    exact ⟨_, hw.step t trivial (workers_step_eq_some.mpr ⟨ht, hthread⟩), hphase, rfl⟩

/-- A thread whose loop is over returns. -/
theorem exists_return (hthrough : Through c w) (hw : (fork L c).workers.Reachable w) (ht : t ∈ Finset.Icc 1 c.numProcs)
    (hnot : w.phase t ≠ .returned) (hended : L.ended t w.loops = true) :
    ∃ w', (fork L c).workers.step t w = some w' ∧ Through c w' ∧ w'.loops = w.loops ∧ w'.before c < w.before c := by
  have hp := (hthrough.phase hw ht).resolve_right hnot
  refine ⟨w.setPhase t .returned, workers_step_eq_some.mpr ⟨Finset.mem_Icc.mp ht, ?_⟩, fun u hu => ?_, rfl, ?_⟩
  · rw [stepThread, hp]
    exact if_pos hended
  · rcases eq_or_ne u t with rfl | hne
    · simp [State.setPhase, released]
    · simpa [State.setPhase, hne] using hthrough u hu
  · exact before_lt ht (by rw [hp]; exact Nat.zero_lt_one) rfl

theorem exists_not_returned (h : ¬ (fork L c).Over w) : ∃ t ∈ Finset.Icc 1 c.numProcs, w.phase t ≠ .returned := by
  simp only [ForkJoin.Over, not_forall] at h
  obtain ⟨t, h1, hn, hnot⟩ := h
  exact ⟨t, Finset.mem_Icc.mpr ⟨h1, hn⟩, fun hret => hnot (decide_eq_true hret)⟩

theorem exists_over (H : L.Proper c) (hx : L.machine.Reachable x) (hended : ∀ t, 1 ≤ t → t ≤ c.numProcs → L.ended t x = true) :
    ∃ w, (fork L c).workers.Reachable w ∧ (fork L c).Over w ∧ w.loops = x := by
  obtain ⟨w, hw, hphase, rfl⟩ := exists_follow H hx
  have hthrough : Through c w := fun t ht => by
    obtain ⟨h1, hn⟩ := Finset.mem_Icc.mp ht
    rw [hphase t h1 hn]
    rfl
  obtain ⟨w', hw', ⟨-, hloops⟩, hover⟩ := Reach.exists_within (M := (fork L c).workers)
    (P := fun w' => Through c w' ∧ w'.loops = w.loops) (Q := (fork L c).Over) (μ := State.before c)
    (fun w' hw' ⟨hthrough, hloops⟩ hnot => by
      obtain ⟨t, ht, hnot⟩ := exists_not_returned hnot
      obtain ⟨h1, hn⟩ := Finset.mem_Icc.mp ht
      obtain ⟨w'', hs, hthrough', hsame, hlt⟩ := exists_return hthrough hw' ht hnot (by rw [hloops]; exact hended t h1 hn)
      exact ⟨t, w'', trivial, hs, ⟨hthrough', hsame.trans hloops⟩, hlt⟩) hw ⟨hthrough, rfl⟩
  exact ⟨w', hw', hover, hloops⟩

/-! ### What is printed -/

/-- The program prints the signatures of what its loops by themselves end with. -/
theorem outcomes_eq_loops (H : L.Proper c) : outcomes L c = {v | ∃ x, L.machine.Reachable x ∧
    (∀ t, 1 ≤ t → t ≤ c.numProcs → L.ended t x = true) ∧ v = mixSig c.numProcs (L.sig x)} := by
  ext v
  constructor
  · rintro ⟨s, hs, hmain⟩
    have hview := (mirrors L c).reachable hs
    rw [hmain] at hview
    obtain ⟨hW, hover, htail⟩ := (ForkJoin.reachable_rest_iff (proper L c)).mp hview
    have hok := ok_of_workers H hW
    exact ⟨_, hok.loops, fun t h1 hn => hok.ended t (of_decide_eq_true (hover t h1 hn)), Start.rest_printed_iff.mp htail⟩
  · rintro ⟨x, hx, hended, hv⟩
    obtain ⟨w, hW, hover, rfl⟩ := exists_over H hx hended
    obtain ⟨s, hs, hview⟩ := (mirrors L c).exists_reachable
      ((ForkJoin.reachable_rest_iff (proper L c)).mpr ⟨hW, hover, Start.rest_printed_iff.mpr hv⟩)
    exact ⟨s, hs, Start.printed_of_forkJoin (congrArg ForkJoin.State.main hview)⟩

/-- If the loops can always be brought closer to their end, then the program can always get to print. -/
theorem canPrint (H : L.Proper c) {μ : σ → ℕ} (hgo : ∀ t x, L.machine.Reachable x → 1 ≤ t → t ≤ c.numProcs →
    L.ended t x = false → ∃ u y, L.step u x = some y ∧ μ y < μ x) : CanPrint L c := by
  have hfinish : ∀ w, (fork L c).workers.Reachable w →
      ∃ as w', (fork L c).workers.run as w = some w' ∧ (fork L c).Over w' := fun w hw => by
    refine hw.exists_run (μ := fun w => w.before c + μ w.loops) fun w hw hnot => ?_
    by_cases hthrough : Through c w
    · obtain ⟨t, ht, hnot⟩ := exists_not_returned hnot
      cases hended : L.ended t w.loops with
      | true =>
        obtain ⟨w', hs, -, hsame, hlt⟩ := exists_return hthrough hw ht hnot hended
        exact ⟨t, w', hs, by rw [hsame]; exact Nat.add_lt_add_right hlt _⟩
      | false =>
        obtain ⟨h1, hn⟩ := Finset.mem_Icc.mp ht
        have hok := ok_of_workers H hw
        obtain ⟨u, y, hstep, hlt⟩ := hgo t w.loops hok.loops h1 hn hended
        obtain ⟨hu, hlive⟩ := H.live u _ _ hstep
        have hloop : w.phase u = .loop := by
          refine (hthrough.phase hw (Finset.mem_Icc.mpr hu)).resolve_right fun hret => ?_
          rw [hok.ended u hret] at hlive
          cases hlive
        refine ⟨u, { w with loops := y }, workers_step_eq_some.mpr ⟨hu, ?_⟩, Nat.add_lt_add_left hlt _⟩
        rw [stepThread, hloop]
        refine (if_neg (Bool.eq_false_iff.mp hlive)).trans ?_
        rw [hstep]
        rfl
    · obtain ⟨t, ht, hrel⟩ := exists_not_through hthrough
      obtain ⟨u, w', hs, hnear⟩ := exists_nearer hw ht hrel
      exact ⟨u, w', hs, by rw [hnear.loops]; exact Nat.add_lt_add_right hnear.before _⟩
  intro s hs
  obtain ⟨as, s', r, hr, hmain, hrest⟩ := ForkJoin.exists_finish (proper L c) hfinish
    (ν := Start.restLeft c.numProcs) (fun _ _ _ h => Start.restLeft_lt h) ((mirrors L c).reachable hs)
  obtain ⟨bs, s'', hr', hview⟩ := (mirrors L c).exists_run hs hr
  have hmain : s''.main.forkJoin = .rest r := by rw [← hmain, ← hview]
  rw [← Start.rest_of_forkJoin hmain] at hrest hmain
  obtain ⟨v, hv⟩ := Start.rest_eq_none hrest hmain.symm
  exact ⟨bs, s'', v, hr', hv⟩

end Racey.StartBarrier
