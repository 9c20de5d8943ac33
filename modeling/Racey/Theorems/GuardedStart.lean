import Racey.GuardedStart
import Racey.Theorems.GuardedProgress
import Racey.Theorems.StartMain

/-! racey-guarded as a whole: it always prints a signature in the end, and the signatures that it can print are those of the
    interleavings of whole critical sections, which are signatures of racey-basic. -/

namespace Racey.GuardedStart
open Machine
open Start (MainPc Move)

variable {c : Config} {s s' : Threads} {x : Guarded.State} {t u : ℕ} {p : Phase} {v : ℤ}

/-! ### Steps of threads -/

/-- What a step of thread `t` does. -/
inductive Step (c : Config) (t : ℕ) (s : Threads) : Threads → Prop
  | arrive : s.phase t = .arrive →
      Step c t s { s.setPhase t (.inBarrier s.barrier.cycle) with barrier := s.barrier.wait c.numProcs }
  | pass (cycle : ℕ) : s.phase t = .inBarrier cycle → s.barrier.Released cycle → Step c t s (s.setPhase t .loop)
  | loop (loops : Guarded.State) : s.phase t = .loop → Guarded.step c t s.loops = some loops →
      Step c t s { s with loops := loops }
  | ended : s.phase t = .loop → Ended c t s.loops → Step c t s (s.setPhase t .returned)

theorem step_cases (h : stepThread c t s = some s') : Step c t s s' := by
  unfold stepThread at h
  split at h
  case h_1 | h_2 => cases h
  case h_3 hp =>
    cases h
    exact .arrive hp
  case h_4 cycle hp =>
    obtain ⟨hrel, ⟨⟩⟩ := Option.ite_none_right_eq_some.mp h
    exact .pass cycle hp hrel
  case h_5 hp =>
    split at h
    · rename_i hended
      cases h
      exact .ended hp hended
    · obtain ⟨loops, hs, rfl⟩ := Option.map_eq_some_iff.mp h
      exact .loop loops hp hs

theorem Step.born (h : Step c t s s') : s.phase t ≠ .unborn ∧ s.phase t ≠ .returned := by
  cases h with
  | arrive hp | pass cycle hp | loop loops hp | ended hp =>
    rw [hp]
    exact ⟨by simp, by simp⟩

theorem Step.other (h : Step c t s s') (hu : u ≠ t) : s'.phase u = s.phase u := by
  cases h with
  | loop loops => rfl
  | arrive | pass | ended => exact Function.update_of_ne hu _ _

/-! ### A fork–join program -/

/-- The threads as if `main` had created all of them. -/
def Threads.born (s : Threads) : Threads :=
  { s with phase := fun t => if s.phase t = .unborn then .arrive else s.phase t }

theorem born_phase (h : s.phase t ≠ .unborn) : s.born.phase t = s.phase t := if_neg h

theorem born_setPhase (hp : p ≠ .unborn) : (s.setPhase t p).born = s.born.setPhase t p := by
  simp only [Threads.born, Threads.setPhase, Threads.mk.injEq, and_true]
  funext u
  rcases eq_or_ne u t with rfl | hu
  · simp [hp]
  · simp [hu]

theorem born_spawn (h : s.phase t = .unborn) : (s.setPhase t .arrive).born = s.born := by
  rw [born_setPhase (by simp)]
  simp only [Threads.born, Threads.setPhase, Threads.mk.injEq, and_true]
  rw [Function.update_eq_iff]
  exact ⟨by rw [h]; rfl, fun _ _ => rfl⟩

theorem returned_born : s.born.phase t = .returned ↔ s.phase t = .returned := by
  by_cases h : s.phase t = .unborn
  · simp [Threads.born, h]
  · rw [born_phase h]

theorem stepThread_born (h : s.phase t ≠ .unborn) :
    (stepThread c t s).map Threads.born = stepThread c t s.born := by
  unfold stepThread
  rw [born_phase h]
  cases hp : s.phase t with
  | unborn => exact absurd hp h
  | arrive =>
    refine congrArg some ?_
    have hborn := born_setPhase (s := s) (t := t) (p := .inBarrier s.barrier.cycle) (by simp)
    exact congrArg (fun b : Threads => { b with barrier := s.barrier.wait c.numProcs }) hborn
  | inBarrier cycle =>
    dsimp only
    rw [apply_ite (Option.map Threads.born), Option.map_some, born_setPhase (by simp)]
    rfl
  | loop =>
    dsimp only
    rw [apply_ite (Option.map Threads.born), Option.map_some, born_setPhase (by simp), Option.map_map, Threads.born]
    rfl
  | returned => rfl

/-- racey-guarded: `main` creates and joins its threads, and folds the entries of `sig`. -/
def crew (c : Config) : Crew Threads ℕ MainPc where
  n := c.numProcs
  init := start.threads
  step := stepThread c
  owner t := t
  spawn t s := s.setPhase t .arrive
  unborn t s := s.phase t = .unborn
  born := Threads.born
  ended t s := decide (s.phase t = .returned)
  first := .first
  rest s := Start.rest c.numProcs s.loops.mem.sig

theorem lawful (c : Config) : (crew c).Lawful where
  unborn_init _ := rfl
  none_of_unborn t s h := by
    show stepThread c t s = none
    rw [stepThread, show s.phase t = .unborn from h]
  step_born _ _ h := stepThread_born h
  unborn_step t s s' u hs := by
    have hs : Step c t s s' := step_cases hs
    show s'.phase u = .unborn ↔ s.phase u = .unborn
    rcases eq_or_ne u t with rfl | hu
    · refine iff_of_false ?_ hs.born.1
      cases hs with
      | loop loops hp => simp [hp]
      | arrive | pass | ended => simp [Threads.setPhase]
    · rw [hs.other hu]
  unborn_spawn t u s := by
    show (s.setPhase u .arrive).phase t = .unborn ↔ _
    rcases eq_or_ne t u with rfl | hu
    · simp [Threads.setPhase]
    · simp [Threads.setPhase, hu, crew]
  born_spawn _ _ _ _ h := born_spawn h
  ended_born _ _ := decide_eq_decide.mpr returned_born
  rest_born _ _ := rfl

def name : Move → Option ℕ
  | .main => none
  | .thread t => some t

theorem mirrors_crew (c : Config) : Mirrors (machine c) (crew c).machine name fun s => ⟨s.main.forkJoin, s.threads⟩ where
  init := rfl
  onto b := by
    cases b with
    | none => exact ⟨.main, rfl⟩
    | some t => exact ⟨.thread t, rfl⟩
  step a s _ := by
    cases a with
    | thread t => exact Option.map_map _ _ _
    | main =>
      show (stepMain c s).map _ = Crew.stepMain (crew c) _
      unfold stepMain Crew.stepMain
      cases s.main with
      | create i => exact (apply_ite (Option.map _) _ _ _).trans (apply_ite some _ _ _).symm
      | join i =>
        dsimp only [MainPc.forkJoin, crew]
        simp only [decide_eq_true_iff]
        rw [apply_ite (Option.map _), apply_ite (Option.map _)]
        rfl
      | result i mix_sig =>
        dsimp only [MainPc.forkJoin, crew, Start.rest]
        rw [apply_ite (Option.map _), Option.map_some, Option.map_some, ← apply_ite some, Option.map_some]
        split <;> rfl
      | first | printed mix_sig => rfl

abbrev fork (c : Config) : ForkJoin Threads ℕ MainPc := (crew c).forkJoin

def view (s : State) : ForkJoin.State Threads MainPc := ⟨s.main.forkJoin, s.threads.born⟩

theorem mirrors (c : Config) : Mirrors (machine c) (fork c).machine name view :=
  (mirrors_crew c).trans (Crew.mirrors (lawful c))

/-! ### The threads by themselves -/

theorem workers_step_eq_some : (fork c).workers.step t s = some s' ↔
    (1 ≤ t ∧ t ≤ c.numProcs) ∧ stepThread c t s = some s' := Option.ite_none_right_eq_some

/-- How often a thread has called `pthread_barrier_wait`. -/
def Phase.calls : Phase → ℕ
  | .unborn | .arrive => 0
  | _ => 1

def Threads.calls (s : Threads) (t : ℕ) : ℕ := (s.phase t).calls

/-- The barrier has let nobody through before all threads have arrived, and the loops are in a state that they reach by
    themselves. -/
structure Inv (c : Config) (s : Threads) : Prop where
  born : ∀ t, s.phase t ≠ .unborn
  counts : 0 < c.numProcs → Barrier.Counts (Finset.Icc 1 c.numProcs) s.barrier s.calls
  first : ∀ t cycle, s.phase t = .inBarrier cycle → cycle = 0
  through : ∀ t, s.phase t = .loop ∨ s.phase t = .returned → s.barrier.cycle ≠ 0
  ended : ∀ t, s.phase t = .returned → Ended c t s.loops
  loops : (Guarded.machine c Memory.init).Reachable s.loops

theorem inv_start : Inv c (fork c).workers.init where
  born _ h := by cases h
  counts hn := .init ⟨1, Finset.mem_Icc.mpr ⟨le_rfl, hn⟩⟩
  first _ _ h := by cases h
  through _ h := by rcases h with h | h <;> cases h
  ended _ h := by cases h
  loops := .init

theorem card_parties : (Finset.Icc 1 c.numProcs).card = c.numProcs := by rw [Nat.card_Icc, Nat.add_sub_cancel]

/-- A step that leaves the barrier alone, and does not take back a call. -/
theorem Inv.setPhase (I : Inv c s) (hp : p ≠ .unborn) (hcalls : p.calls = (s.phase t).calls)
    (hfirst : ∀ cycle, p ≠ .inBarrier cycle) (hthrough : s.barrier.cycle ≠ 0) (hended : p = .returned → Ended c t s.loops) :
    Inv c (s.setPhase t p) where
  born u := by
    rcases eq_or_ne u t with rfl | hu
    · simpa [Threads.setPhase] using hp
    · simpa [Threads.setPhase, hu] using I.born u
  counts hn := by
    have hsame : (s.setPhase t p).calls = s.calls := by
      funext u
      rcases eq_or_ne u t with rfl | hu
      · simp [Threads.calls, Threads.setPhase, hcalls]
      · simp [Threads.calls, Threads.setPhase, hu]
    rw [hsame]
    exact I.counts hn
  first u cycle h := by
    rcases eq_or_ne u t with rfl | hu
    · exact absurd (by simpa [Threads.setPhase] using h) (hfirst cycle)
    · exact I.first u cycle (by simpa [Threads.setPhase, hu] using h)
  through _ _ := hthrough
  ended u h := by
    rcases eq_or_ne u t with rfl | hu
    · exact hended (by simpa [Threads.setPhase] using h)
    · exact I.ended u (by simpa [Threads.setPhase, hu] using h)
  loops := I.loops

/-- The threads that have not arrived are in the first cycle, as is the barrier then. -/
theorem Inv.cycle_of_arrive (I : Inv c s) (ht : 1 ≤ t ∧ t ≤ c.numProcs) (hp : s.phase t = .arrive) : s.barrier.cycle = 0 := by
  have hcalls := (I.counts (ht.1.trans ht.2)).calls_eq t (Finset.mem_Icc.mpr ht)
  rw [Threads.calls, hp, Phase.calls] at hcalls
  omega

theorem Inv.arrive (I : Inv c s) (ht : 1 ≤ t ∧ t ≤ c.numProcs) (hp : s.phase t = .arrive) :
    Inv c { s.setPhase t (.inBarrier s.barrier.cycle) with barrier := s.barrier.wait c.numProcs } := by
  have hzero := I.cycle_of_arrive ht hp
  refine ⟨fun u => ?_, fun hn => ?_, fun u cycle h => ?_, fun u h => ?_, fun u h => ?_, I.loops⟩
  · rcases eq_or_ne u t with rfl | hu
    · simp [Threads.setPhase]
    · simpa [Threads.setPhase, hu] using I.born u
  · have hcalls : s.calls t = 0 := by rw [Threads.calls, hp, Phase.calls]
    have hwait := (I.counts hn).wait (Finset.mem_Icc.mpr ht) (by rw [hcalls, hzero])
    rw [card_parties, hcalls] at hwait
    convert hwait using 1
    funext u
    rcases eq_or_ne u t with rfl | hu
    · simp [Threads.calls, Threads.setPhase, Phase.calls]
    · simp [Threads.calls, Threads.setPhase, hu]
  · rcases eq_or_ne u t with rfl | hu
    · simp only [Threads.setPhase, Function.update_self, Phase.inBarrier.injEq] at h
      rw [← h, hzero]
    · exact I.first u cycle (by simpa [Threads.setPhase, hu] using h)
  · -- Nobody is through, for `t` has not arrived.
    rcases eq_or_ne u t with rfl | hu
    · simp [Threads.setPhase] at h
    · exact absurd hzero (I.through u (by simpa [Threads.setPhase, hu] using h))
  · rcases eq_or_ne u t with rfl | hu
    · simp [Threads.setPhase] at h
    · exact I.ended u (by simpa [Threads.setPhase, hu] using h)

/-- Who has ended its loop is not changed by what another thread does. -/
theorem ended_step {y : Guarded.State} (hs : Guarded.step c t x = some y) (hended : Ended c u x) : Ended c u y := by
  obtain ⟨th, hthread, -⟩ := Guarded.thread_of_step hs
  have hne : u ≠ t := by
    rintro rfl
    exact absurd (Guarded.step_cases hs).1.2.2 (not_lt.mpr hended.2)
  rw [Ended, hthread, Function.update_of_ne hne]
  exact hended

theorem Inv.step (I : Inv c s) (hs : (fork c).workers.step t s = some s') : Inv c s' := by
  obtain ⟨ht, hs⟩ := workers_step_eq_some.mp hs
  cases step_cases hs with
  | arrive hp => exact I.arrive ht hp
  | pass cycle hp hrel =>
    have hzero := I.first t cycle hp
    exact I.setPhase (by simp) (by rw [hp]; rfl) (by simp) (hzero ▸ hrel) (by simp)
  | loop loops hp hstep =>
    exact ⟨I.born, I.counts, I.first, I.through, fun u hu => ended_step hstep (I.ended u hu), I.loops.step t trivial hstep⟩
  | ended hp hended => exact I.setPhase (by simp) (by rw [hp]; rfl) (by simp) (I.through t (.inl hp)) fun _ => hended

theorem inv_of_reachable (h : (fork c).workers.Reachable s) : Inv c s :=
  h.invariant inv_start fun _ _ _ I _ hs => I.step hs

theorem proper (c : Config) : (fork c).Proper where
  owned t s s' hs := by
    obtain ⟨⟨h1, hn⟩, hs⟩ := workers_step_eq_some.mp hs
    exact ⟨h1, hn, decide_eq_false (step_cases hs).born.2⟩
  stays t s s' u hs hu := by
    obtain ⟨-, hs⟩ := workers_step_eq_some.mp hs
    have hu : s.phase u = .returned := of_decide_eq_true hu
    have hne : u ≠ t := fun heq => (step_cases hs).born.2 (heq ▸ hu)
    exact decide_eq_true (((step_cases hs).other hne).trans hu)

/-! ### Progress -/

theorem guarded_invs (h : (Guarded.machine c Memory.init).Reachable x) : Guarded.Inv c x ∧ Guarded.Within c x :=
  h.invariant (I := fun x => Guarded.Inv c x ∧ Guarded.Within c x) ⟨Guarded.inv_start, fun _ => Nat.zero_le _⟩
    fun _ _ _ ⟨I, W⟩ _ hs => ⟨I.step hs, W.step hs⟩

/-- A thread of the loops that can go on has not returned. -/
theorem Inv.loop_of_step {y : Guarded.State} (I : Inv c s) (hall : ∀ t, 1 ≤ t → t ≤ c.numProcs →
    s.phase t = .loop ∨ s.phase t = .returned) (hs : Guarded.step c t s.loops = some y) :
    (1 ≤ t ∧ t ≤ c.numProcs) ∧ s.phase t = .loop ∧ ¬ Ended c t s.loops := by
  obtain ⟨h1, hn, hi⟩ := (Guarded.step_cases hs).1
  have hlive : ¬ Ended c t s.loops := fun h => absurd hi (not_lt.mpr h.2)
  exact ⟨⟨h1, hn⟩, (hall t h1 hn).resolve_right fun hret => hlive (I.ended t hret), hlive⟩

theorem Inv.exists_step (I : Inv c s) (hover : ¬ (fork c).Over s) : ∃ t s', (fork c).workers.step t s = some s' := by
  have hrange : ∀ t, 1 ≤ t → t ≤ c.numProcs → ∀ r, stepThread c t s = some r →
      ∃ t s', (fork c).workers.step t s = some s' :=
    fun t h1 hn r hr => ⟨t, r, workers_step_eq_some.mpr ⟨⟨h1, hn⟩, hr⟩⟩
  by_cases harrive : ∃ t, (1 ≤ t ∧ t ≤ c.numProcs) ∧ s.phase t = .arrive
  · obtain ⟨t, ⟨h1, hn⟩, hp⟩ := harrive
    exact hrange t h1 hn _ (by rw [stepThread, hp])
  · push Not at harrive
    by_cases hwait : ∃ t cycle, (1 ≤ t ∧ t ≤ c.numProcs) ∧ s.phase t = .inBarrier cycle
    · -- All have arrived, so the barrier has opened.
      obtain ⟨t, cycle, ht, hp⟩ := hwait
      obtain ⟨u, hu, hcalls⟩ := (I.counts (ht.1.trans ht.2)).exists_absent
      have hone : s.calls u = 1 := by
        have h1 := harrive u (Finset.mem_Icc.mp hu)
        have h2 := I.born u
        rw [Threads.calls]
        generalize s.phase u = pu at h1 h2 ⊢
        cases pu with
        | unborn => exact absurd rfl h2
        | arrive => exact absurd rfl h1
        | _ => rfl
      have hrel : s.barrier.Released cycle := by
        rw [I.first t cycle hp]
        show s.barrier.cycle ≠ 0
        omega
      refine hrange t ht.1 ht.2 (s.setPhase t .loop) ?_
      rw [stepThread, hp]
      exact if_pos hrel
    · push Not at hwait
      have hall : ∀ t, 1 ≤ t → t ≤ c.numProcs → s.phase t = .loop ∨ s.phase t = .returned := by
        intro t h1 hn
        have h2 := harrive t ⟨h1, hn⟩
        have h3 := fun cycle => hwait t cycle ⟨h1, hn⟩
        have h4 := I.born t
        generalize s.phase t = pt at h2 h3 h4 ⊢
        cases pt with
        | unborn => exact absurd rfl h4
        | arrive => exact absurd rfl h2
        | inBarrier cycle => exact absurd rfl (h3 cycle)
        | loop => exact .inl rfl
        | returned => exact .inr rfl
      obtain ⟨t, ht⟩ := not_forall.mp hover
      simp only [Classical.not_imp] at ht
      obtain ⟨h1, hn, hnot⟩ := ht
      have hloop : s.phase t = .loop := (hall t h1 hn).resolve_right fun hret => hnot (decide_eq_true hret)
      by_cases hended : Ended c t s.loops
      · refine hrange t h1 hn (s.setPhase t .returned) ?_
        rw [stepThread, hloop]
        exact if_pos hended
      · obtain ⟨G, W⟩ := guarded_invs I.loops
        have hrun : Guarded.Running c t s.loops := by
          refine ⟨h1, hn, not_le.mp fun hle => hended ⟨?_, hle⟩⟩
          exact not_not.mp fun hpc => absurd (G.running t hpc).2.2 (not_lt.mpr hle)
        obtain ⟨u, y, hy⟩ := G.exists_step hrun
        obtain ⟨⟨h1, hn⟩, hp, hlive⟩ := I.loop_of_step hall hy
        refine hrange u h1 hn { s with loops := y } ?_
        rw [stepThread, hp]
        exact (if_neg hlive).trans (by rw [hy]; rfl)

/-- The steps that a thread has before it, other than those of its loop. -/
def Phase.left : Phase → ℕ
  | .unborn | .arrive => 3
  | .inBarrier _ => 2
  | .loop => 1
  | .returned => 0

/-- The steps that all threads have before them. -/
def Threads.left (c : Config) (s : Threads) : ℕ :=
  ∑ t ∈ Finset.Icc 1 c.numProcs, (s.phase t).left + (10 * c.numProcs * c.maxLoop - s.loops.taken c)

theorem left_setPhase (ht : 1 ≤ t ∧ t ≤ c.numProcs) (hp : p.left < (s.phase t).left) (b : Barrier) :
    Threads.left c { s.setPhase t p with barrier := b } < s.left c := by
  have hsum := sum_change (f := fun u => (s.phase u).left) (g := fun u => (Function.update s.phase t p u).left)
    (Finset.mem_Icc.mpr ht) fun u hu => by rw [Function.update_of_ne hu]
  rw [Function.update_self] at hsum
  simp only [Threads.left, Threads.setPhase]
  omega

theorem Inv.left_lt (I : Inv c s) (hs : (fork c).workers.step t s = some s') : s'.left c < s.left c := by
  obtain ⟨ht, hs⟩ := workers_step_eq_some.mp hs
  cases step_cases hs with
  | arrive hp => exact left_setPhase ht (by rw [hp]; exact Nat.lt_succ_self 2) _
  | pass cycle hp => exact left_setPhase ht (by rw [hp]; exact Nat.lt_succ_self 1) s.barrier
  | ended hp => exact left_setPhase ht (by rw [hp]; exact Nat.zero_lt_one) s.barrier
  | loop loops hp hstep =>
    have htaken := Guarded.taken_succ hstep
    obtain ⟨G, W⟩ := guarded_invs (I.loops.step t trivial hstep)
    have hle := G.sum_taken_le W
    simp only [Threads.left]
    omega

theorem left_start : (fork c).workers.init.left c = 3 * c.numProcs + 10 * c.numProcs * c.maxLoop := by
  have hsum : ∑ t ∈ Finset.Icc 1 c.numProcs, 3 = 3 * c.numProcs := by
    rw [Finset.sum_const_nat fun _ _ => rfl, card_parties, Nat.mul_comm]
  have htaken : (fork c).workers.init.loops.taken c = 0 := Finset.sum_eq_zero fun t _ => rfl
  rw [Threads.left, htaken, Nat.sub_zero, ← hsum]
  rfl

/-- racey-guarded always prints a signature in the end: until it has, some thread or `main` can take a step, and no run has more
    than ten steps for each iteration and six for each thread, and four more. -/
theorem always_prints (c : Config) :
    (∀ s, (machine c).Reachable s → (∃ v, s.main = .printed v) ∨ ∃ a s', step c a s = some s') ∧
      ∀ as s, (machine c).run as start = some s → as.length ≤ 10 * c.numProcs * c.maxLoop + 6 * c.numProcs + 4 := by
  refine ⟨fun s hs => ?_, fun as s hr => ?_⟩
  · rcases ForkJoin.goes_on (proper c) (fun w hw => (inv_of_reachable hw).exists_step) ((mirrors c).reachable hs) with
      ⟨r, hmain, hrest⟩ | ⟨b, y, hy⟩
    · have hr : s.main = r := by
        have hmain : s.main.forkJoin = .rest r := hmain
        cases hs : s.main <;> rw [hs] at hmain <;> cases hmain <;> rfl
      rw [← hr] at hmain hrest
      exact .inl (Start.rest_eq_none hrest hmain.symm)
    · obtain ⟨a, s', hs', -⟩ := (mirrors c).exists_step hs hy
      exact .inr ⟨a, s', hs'⟩
  · have hlen := ForkJoin.length_le (proper c) (μ := Threads.left c) (ν := Start.restLeft c.numProcs)
      (fun t s s' hs hstep => (inv_of_reachable hs).left_lt hstep) (fun _ _ _ h => Start.restLeft_lt h)
      ((mirrors c).run .init hr)
    rw [List.length_map, left_start] at hlen
    have hn : (fork c).n = c.numProcs := rfl
    have hfirst : Start.restLeft c.numProcs (fork c).first = c.numProcs + 2 := rfl
    omega

/-! ### Outcomes -/

theorem outcomes_eq_over : outcomes c =
    {v | ∃ w, (fork c).workers.Reachable w ∧ (fork c).Over w ∧ v = mixSig c.numProcs w.loops.mem.sig} := by
  ext v
  constructor
  · rintro ⟨s, hs, hmain⟩
    have hview := (mirrors c).reachable hs
    rw [view, hmain] at hview
    obtain ⟨hW, hover, htail⟩ := (ForkJoin.reachable_rest_iff (proper c)).mp hview
    exact ⟨_, hW, hover, Start.rest_printed_iff.mp htail⟩
  · rintro ⟨w, hW, hover, hv⟩
    obtain ⟨s, hs, hview⟩ := (mirrors c).exists_reachable
      ((ForkJoin.reachable_rest_iff (proper c)).mpr ⟨hW, hover, Start.rest_printed_iff.mpr hv⟩)
    refine ⟨s, hs, ?_⟩
    have hmain : s.main.forkJoin = .rest (.printed v) := congrArg ForkJoin.State.main hview
    cases hs : s.main <;> rw [hs] at hmain <;> cases hmain
    rfl

theorem complete_of_over (I : Inv c s) (h : (fork c).Over s) : Guarded.Complete c s.loops := by
  intro t h1 hn
  have hended := I.ended t (of_decide_eq_true (h t h1 hn))
  exact le_antisymm ((guarded_invs I.loops).2 t) hended.2

/-- The threads have gone from phase `a` to phase `b` in turn, up to thread `k`. -/
def Phases (c : Config) (a b : Phase) (k : ℕ) (s : Threads) : Prop :=
  ∀ t, 1 ≤ t → t ≤ c.numProcs → s.phase t = if t ≤ k then b else a

/-- One thread after the other goes from one phase to the next. -/
theorem exists_phase {a b : Phase} (h : (fork c).workers.Reachable s) (ha : ∀ t, 1 ≤ t → t ≤ c.numProcs → s.phase t = a)
    (hstep : ∀ t k u, (fork c).workers.Reachable u → 1 ≤ t → t ≤ c.numProcs → u.phase t = a → Phases c a b k u →
      u.loops = s.loops → ∃ bar, stepThread c t u = some { u.setPhase t b with barrier := bar }) :
    ∃ s', (fork c).workers.Reachable s' ∧ (∀ t, 1 ≤ t → t ≤ c.numProcs → s'.phase t = b) ∧ s'.loops = s.loops := by
  obtain ⟨u, hu, -, hphases, hloops⟩ := h.exists_stage (n := c.numProcs)
    (I := fun k u => (fork c).workers.Reachable u ∧ Phases c a b k u ∧ u.loops = s.loops)
    ⟨h, fun t h1 hn => by rw [if_neg (by omega)]; exact ha t h1 hn, rfl⟩ fun k u hk ⟨hreach, hphases, hloops⟩ => by
      have hat : u.phase (k + 1) = a := by rw [hphases (k + 1) (Nat.le_add_left 1 k) hk, if_neg (Nat.not_succ_le_self k)]
      obtain ⟨bar, hs⟩ := hstep (k + 1) k u hreach (Nat.le_add_left 1 k) hk hat hphases hloops
      have hwork : (fork c).workers.step (k + 1) u = _ := workers_step_eq_some.mpr ⟨⟨Nat.le_add_left 1 k, hk⟩, hs⟩
      refine ⟨[k + 1], _, run_cons_eq_some.mpr ⟨_, hwork, rfl⟩, hreach.step (k + 1) trivial hwork, fun t h1 hn => ?_, hloops⟩
      rcases eq_or_ne t (k + 1) with rfl | hne
      · simp [Threads.setPhase]
      · have hle : t ≤ k + 1 ↔ t ≤ k := by omega
        simp only [Threads.setPhase, Function.update_of_ne hne, hle]
        exact hphases t h1 hn
  exact ⟨u, hu, fun t h1 hn => by rw [hphases t h1 hn, if_pos hn], hloops⟩

/-- All threads get through the barrier before any of them begins its loop. -/
theorem exists_in_loops (c : Config) : ∃ s, (fork c).workers.Reachable s ∧
    (∀ t, 1 ≤ t → t ≤ c.numProcs → s.phase t = .loop) ∧ s.loops = Guarded.start Memory.init := by
  obtain ⟨s, hs, hphase, hloops⟩ := exists_phase (c := c) (a := .arrive) (b := .inBarrier 0) .init (fun _ _ _ => rfl)
    fun t k u hu h1 hn hp _ _ => by
      have hzero := (inv_of_reachable hu).cycle_of_arrive ⟨h1, hn⟩ hp
      exact ⟨u.barrier.wait c.numProcs, by rw [stepThread, hp, hzero]⟩
  obtain ⟨s', hs', hphase', hloops'⟩ := exists_phase (c := c) (a := .inBarrier 0) (b := .loop) hs hphase
    fun t k u hu h1 hn hp hphases _ => by
      -- Everybody has arrived.
      have I := inv_of_reachable hu
      obtain ⟨w, hw, hcalls⟩ := (I.counts (h1.trans hn)).exists_absent
      obtain ⟨hw1, hwn⟩ := Finset.mem_Icc.mp hw
      have hone : u.calls w = 1 := by
        rw [Threads.calls, hphases w hw1 hwn]
        split <;> rfl
      have hrel : u.barrier.Released 0 := by
        show u.barrier.cycle ≠ 0
        omega
      refine ⟨u.barrier, ?_⟩
      rw [stepThread, hp]
      exact if_pos hrel
  exact ⟨s', hs', hphase', hloops'.trans hloops⟩

theorem exists_follow (hx : (Guarded.machine c Memory.init).Reachable x) : ∃ s, (fork c).workers.Reachable s ∧
    (∀ t, 1 ≤ t → t ≤ c.numProcs → s.phase t = .loop) ∧ s.loops = x := by
  induction hx with
  | init => exact exists_in_loops c
  | @step x y t _ _ hstep ih =>
    obtain ⟨s, hs, hphase, rfl⟩ := ih
    have hall : ∀ t, 1 ≤ t → t ≤ c.numProcs → s.phase t = .loop ∨ s.phase t = .returned :=
      fun t h1 hn => .inl (hphase t h1 hn)
    obtain ⟨ht, hp, hlive⟩ := (inv_of_reachable hs).loop_of_step hall hstep
    have hthread : stepThread c t s = some { s with loops := y } := by
      rw [stepThread, hp]
      exact (if_neg hlive).trans (by rw [show Guarded.step c t s.loops = some y from hstep]; rfl)
    exact ⟨_, hs.step t trivial (workers_step_eq_some.mpr ⟨ht, hthread⟩), hphase, rfl⟩

/-- The threads end in the states in which the loops are complete. -/
theorem exists_over_iff {mem : Memory} : (∃ w, (fork c).workers.Reachable w ∧ (fork c).Over w ∧ w.loops.mem = mem) ↔
    ∃ x, (Guarded.machine c Memory.init).Reachable x ∧ Guarded.Complete c x ∧ x.mem = mem := by
  constructor
  · rintro ⟨w, hW, hover, hmem⟩
    have I := inv_of_reachable hW
    exact ⟨w.loops, I.loops, complete_of_over I hover, hmem⟩
  · rintro ⟨x, hx, hcomplete, rfl⟩
    obtain ⟨s, hs, hphase, rfl⟩ := exists_follow hx
    have G := (guarded_invs hx).1
    obtain ⟨w, hw, hreturned, hloops⟩ := exists_phase hs hphase fun t k u _ h1 hn hp _ hloops => by
      have hended : Ended c t u.loops := by
        rw [hloops]
        exact ⟨Guarded.complete_pc G hcomplete t, (hcomplete t h1 hn).ge⟩
      refine ⟨u.barrier, ?_⟩
      rw [stepThread, hp]
      exact if_pos hended
    exact ⟨w, hw, fun t h1 hn => decide_eq_true (hreturned t h1 hn), by rw [hloops]⟩

/-! ### Critical sections as steps -/

section Atomic
variable {y y' : Guarded.Atomic.State} {z : Loop.State} {i num : ℕ}

/-- What a critical section does, as a step of the atomic machine. -/
theorem atomic_cases (h : Guarded.Atomic.step c t y = some y') : Guarded.Atomic.Running c t y ∧
    ((y.thread t).sec = .first ∧ y' = ⟨Function.update y.thread t
        ⟨(y.thread t).i, .second (mix (y.mem.sig t) (unsigned (y.mem.m (y.mem.sig t % maxElem))))⟩, y.mem⟩ ∨
      ∃ num, (y.thread t).sec = .second num ∧ y' = ⟨Function.update y.thread t ⟨(y.thread t).i + 1, .first⟩,
        ⟨Function.update y.mem.sig t (mix num (unsigned (y.mem.m (num % maxElem)))),
          Function.update y.mem.m (num % maxElem) (signed (mix num (unsigned (y.mem.m (num % maxElem)))))⟩⟩) := by
  obtain ⟨hrun, h⟩ := Option.ite_none_right_eq_some.mp h
  refine ⟨hrun, ?_⟩
  cases hsec : (y.thread t).sec <;> rw [hsec] at h <;> cases h
  · exact .inl ⟨rfl, rfl⟩
  · exact .inr ⟨_, rfl, rfl⟩

/-- Before a critical section, with its lock still to be taken. -/
def entry : Guarded.Atomic.Section → Guarded.Pc
  | .first => .lockItem1
  | .second num => .lockItem2 num

def outside (th : Guarded.Atomic.Thread) : Guarded.Thread := ⟨th.i, entry th.sec⟩

/-- No lock is held, and every thread is about to enter the critical section that it is about to enter there. -/
structure Follows (x : Guarded.State) (y : Guarded.Atomic.State) : Prop where
  mem : x.mem = y.mem
  free : ∀ l, x.locks l = none
  thread : ∀ t, x.thread t = outside (y.thread t)

theorem run_first (hrun : Guarded.Running c t x) (hth : x.thread t = ⟨i, .lockItem1⟩)
    (hfree : ∀ l, x.locks l = none) : (Guarded.machine c Memory.init).run [t, t, t, t] x =
      some ⟨Function.update x.thread t
        ⟨i, .lockItem2 (mix (x.mem.sig t) (unsigned (x.mem.m (x.mem.sig t % maxElem))))⟩, x.mem, x.locks⟩ := by
  obtain ⟨h1, hn, hi⟩ := hrun
  rw [hth] at hi
  simp [run_cons, Guarded.machine, Guarded.step, Guarded.Running, Guarded.State.goto, Guarded.lockItem, Guarded.unlockItem,
    h1, hn, hth, hi, hfree]

theorem run_second (hrun : Guarded.Running c t x) (hth : x.thread t = ⟨i, .lockItem2 num⟩)
    (hfree : ∀ l, x.locks l = none) : (Guarded.machine c Memory.init).run [t, t, t, t, t, t] x =
      some ⟨Function.update x.thread t ⟨i + 1, .lockItem1⟩,
        ⟨Function.update x.mem.sig t (mix num (unsigned (x.mem.m (num % maxElem)))),
          Function.update x.mem.m (num % maxElem) (signed (mix num (unsigned (x.mem.m (num % maxElem)))))⟩, x.locks⟩ := by
  obtain ⟨h1, hn, hi⟩ := hrun
  rw [hth] at hi
  simp [run_cons, Guarded.machine, Guarded.step, Guarded.Running, Guarded.State.goto, Guarded.lockItem, Guarded.unlockItem,
    h1, hn, hth, hi, hfree]

theorem outside_update (th : Guarded.Atomic.Thread) {f : ℕ → Guarded.Thread} (hf : ∀ u, f u = outside (y.thread u))
    (u : ℕ) : Function.update f t (outside th) u = outside (Function.update y.thread t th u) := by
  rcases eq_or_ne u t with rfl | hu
  · rw [Function.update_self, Function.update_self]
  · rw [Function.update_of_ne hu, Function.update_of_ne hu, hf u]

theorem Follows.step (h : Follows x y) (hs : Guarded.Atomic.step c t y = some y') :
    ∃ as x', (Guarded.machine c Memory.init).run as x = some x' ∧ Follows x' y' := by
  obtain ⟨⟨h1, hn, hi⟩, hcases⟩ := atomic_cases hs
  have hth : x.thread t = ⟨(y.thread t).i, entry (y.thread t).sec⟩ := h.thread t
  have hrun : Guarded.Running c t x := ⟨h1, hn, by rw [hth]; exact hi⟩
  rcases hcases with ⟨hsec, rfl⟩ | ⟨num, hsec, rfl⟩ <;> rw [hsec] at hth
  · refine ⟨_, _, run_first hrun hth h.free, h.mem, h.free, ?_⟩
    rw [h.mem]
    exact outside_update ⟨(y.thread t).i, .second _⟩ h.thread
  · refine ⟨_, _, run_second hrun hth h.free, ?_, h.free, outside_update ⟨(y.thread t).i + 1, .first⟩ h.thread⟩
    rw [h.mem]

theorem exists_follows (h : (Guarded.Atomic.machine c Memory.init).Reachable y) :
    ∃ x, (Guarded.machine c Memory.init).Reachable x ∧ Follows x y := by
  induction h with
  | init => exact ⟨_, .init, rfl, fun _ => rfl, fun _ => rfl⟩
  | step t _ _ hs ih =>
    obtain ⟨x, hx, hfollows⟩ := ih
    obtain ⟨as, x', hr, hfollows⟩ := hfollows.step hs
    exact ⟨x', hx.run hr, hfollows⟩

/-- The signatures of racey-guarded are those of the interleavings of whole critical sections. -/
theorem outcomes_eq_atomicOutcomes (c : Config) : outcomes c = atomicOutcomes c := by
  rw [outcomes_eq_over]
  ext v
  constructor
  · rintro ⟨w, hW, hover, rfl⟩
    have I := inv_of_reachable hW
    have G := (guarded_invs I.loops).1
    have hcomplete := complete_of_over I hover
    obtain ⟨as, hr⟩ := exists_run_of_reachable I.loops
    refine ⟨w.loops.atomic, reachable_of_run (Guarded.atomic_run Guarded.inv_start hr), Guarded.atomic_complete G hcomplete, ?_⟩
    rw [Guarded.atomic_mem_of_complete G hcomplete]
  · rintro ⟨y, hy, hcomplete, rfl⟩
    obtain ⟨x, hx, hfollows⟩ := exists_follows hy
    have hdone : Guarded.Complete c x := fun t h1 hn => by
      rw [hfollows.thread t]
      exact hcomplete t h1 hn
    obtain ⟨w, hW, hover, hmem⟩ := exists_over_iff.mpr ⟨x, hx, hdone, hfollows.mem⟩
    exact ⟨w, hW, hover, by rw [hmem]⟩

/-! ### Signatures of racey-basic -/

/-- The loops of racey-basic, each thread before its first or its second mix. -/
def between : Guarded.Atomic.Section → ℕ → Loop.Thread
  | .first, i => ⟨i, .head⟩
  | .second num, i => ⟨i, .read2 num⟩

structure Between (z : Loop.State) (y : Guarded.Atomic.State) : Prop where
  mem : z.mem = y.mem
  thread : ∀ t, z.thread t = between (y.thread t).sec (y.thread t).i

theorem loop_first (h1 : 1 ≤ t) (hn : t ≤ c.numProcs) (hi : i < c.maxLoop) (hth : z.thread t = ⟨i, .head⟩) :
    (Loop.machine c).run [t, t] z = some ⟨Function.update z.thread t
      ⟨i, .read2 (mix (z.mem.sig t) (unsigned (z.mem.m (z.mem.sig t % maxElem))))⟩, z.mem⟩ := by
  simp [run_cons, Loop.machine, Loop.step, Loop.Running, Loop.Thread.Over, Loop.State.update, Loop.Thread.step, h1, hn, hth,
    not_le.mpr hi]

theorem loop_second (h1 : 1 ≤ t) (hn : t ≤ c.numProcs) (hth : z.thread t = ⟨i, .read2 num⟩) :
    (Loop.machine c).run [t, t, t] z = some ⟨Function.update z.thread t ⟨i + 1, .head⟩,
      ⟨Function.update z.mem.sig t (mix num (unsigned (z.mem.m (num % maxElem)))),
        Function.update z.mem.m (num % maxElem) (signed (mix num (unsigned (z.mem.m (num % maxElem)))))⟩⟩ := by
  simp [run_cons, Loop.machine, Loop.step, Loop.Running, Loop.Thread.Over, Loop.State.update, Loop.Thread.step, h1, hn, hth]

theorem between_update (th : Guarded.Atomic.Thread) {f : ℕ → Loop.Thread}
    (hf : ∀ u, f u = between (y.thread u).sec (y.thread u).i) (u : ℕ) :
    Function.update f t (between th.sec th.i) u =
      between (Function.update y.thread t th u).sec (Function.update y.thread t th u).i := by
  rcases eq_or_ne u t with rfl | hu
  · rw [Function.update_self, Function.update_self]
  · rw [Function.update_of_ne hu, Function.update_of_ne hu, hf u]

theorem Between.step (h : Between z y) (hs : Guarded.Atomic.step c t y = some y') :
    ∃ as z', (Loop.machine c).run as z = some z' ∧ Between z' y' := by
  obtain ⟨⟨h1, hn, hi⟩, hcases⟩ := atomic_cases hs
  have hth := h.thread t
  rcases hcases with ⟨hsec, rfl⟩ | ⟨num, hsec, rfl⟩ <;> rw [hsec] at hth
  · refine ⟨_, _, loop_first h1 hn hi hth, h.mem, ?_⟩
    rw [h.mem]
    exact between_update ⟨(y.thread t).i, .second _⟩ h.thread
  · refine ⟨_, _, loop_second h1 hn hth, ?_, between_update ⟨(y.thread t).i + 1, .first⟩ h.thread⟩
    rw [h.mem]

theorem exists_between (h : (Guarded.Atomic.machine c Memory.init).Reachable y) :
    ∃ z, (Loop.machine c).Reachable z ∧ Between z y := by
  induction h with
  | init => exact ⟨_, .init, rfl, fun _ => rfl⟩
  | step t _ _ hs ih =>
    obtain ⟨z, hz, hbetween⟩ := ih
    obtain ⟨as, z', hr, hbetween⟩ := hbetween.step hs
    exact ⟨z', hz.run hr, hbetween⟩

/-- A thread that has made all its iterations is not in the middle of one. -/
theorem first_of_complete (h : (Guarded.Atomic.machine c Memory.init).Reachable y) (hcomplete : Guarded.Atomic.Complete c y)
    (t : ℕ) : (y.thread t).sec = .first := by
  obtain ⟨x, hx, hfollows⟩ := exists_follows h
  have hdone : Guarded.Complete c x := fun t h1 hn => by
    rw [hfollows.thread t]
    exact hcomplete t h1 hn
  have hpc := Guarded.complete_pc (guarded_invs hx).1 hdone t
  rw [hfollows.thread t] at hpc
  cases hsec : (y.thread t).sec with
  | first => rfl
  | second num =>
    rw [outside, hsec] at hpc
    cases hpc

theorem atomicOutcomes_subset (c : Config) : atomicOutcomes c ⊆ Start.outcomes .basic c := by
  rw [Start.outcomes_eq_loop]
  rintro v ⟨y, hy, hcomplete, rfl⟩
  obtain ⟨z, hz, hbetween⟩ := exists_between hy
  refine ⟨z, hz, fun t h1 hn => ?_, by rw [hbetween.mem]⟩
  have hth := hbetween.thread t
  rw [first_of_complete hy hcomplete t] at hth
  rw [Loop.Thread.Over, hth]
  exact ⟨rfl, (hcomplete t h1 hn).ge⟩

end Atomic

/-- The locks of racey-guarded leave exactly the interleavings of whole critical sections, and add none to those of
    racey-basic. -/
theorem locks_only_restrict (c : Config) : outcomes c = atomicOutcomes c ∧ outcomes c ⊆ Start.outcomes .basic c := by
  have heq := outcomes_eq_atomicOutcomes c
  exact ⟨heq, heq ▸ atomicOutcomes_subset c⟩

end Racey.GuardedStart
