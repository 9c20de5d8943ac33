import Mathlib.Algebra.Order.BigOperators.Group.Finset
import Racey.Theorems.Freqsyscall
import Racey.Theorems.Loop
import Racey.Theorems.StartCrew

/-! racey-mmaptmpfile can print the same signatures as racey-basic, and so can racey-freqsyscall where the divisor of its probe is
    not zero. All three can always get to print one, unless racey-freqsyscall divides by zero. -/

namespace Racey.StartBarrier
open Machine

variable {c : Config} {t u : ℕ}

/-! ### racey-basic -/

theorem basic_over {x : Loop.State} : (basic c).ended t x = true ↔ (x.thread t).Over c.maxLoop := decide_eq_true_iff

theorem basic_proper (c : Config) : (basic c).Proper c where
  live t x y hs := by
    obtain ⟨⟨h1, hn, hover⟩, -⟩ := Option.ite_none_right_eq_some.mp (show Loop.step c t x = some y from hs)
    exact ⟨⟨h1, hn⟩, decide_eq_false hover⟩
  stays t u x y hs hu := by
    obtain ⟨⟨-, -, hover⟩, hs⟩ := Option.ite_none_right_eq_some.mp (show Loop.step c t x = some y from hs)
    cases hs
    have hne : u ≠ t := fun heq => hover (heq ▸ basic_over.mp hu)
    rw [basic_over, Loop.update_other hne]
    exact basic_over.mp hu

/-- A thread that has not ended can always make its next access. -/
theorem loop_goes {x : Loop.State} (h1 : 1 ≤ t) (hn : t ≤ c.numProcs) (hover : ¬ (x.thread t).Over c.maxLoop) :
    ∃ y, Loop.step c t x = some y ∧ ∑ u ∈ Finset.Icc 1 c.numProcs, Loop.accessesLeft c.maxLoop (y.thread u) <
      ∑ u ∈ Finset.Icc 1 c.numProcs, Loop.accessesLeft c.maxLoop (x.thread u) := by
  refine ⟨_, Loop.step_of_not_over h1 hn hover, ?_⟩
  have hlt := Loop.accessesLeft_lt hover t x.mem
  refine Finset.sum_lt_sum (fun u _ => ?_) ⟨t, Finset.mem_Icc.mpr ⟨h1, hn⟩, by rwa [Loop.update_self]⟩
  rcases eq_or_ne u t with rfl | hu
  · rw [Loop.update_self]
    exact hlt.le
  · rw [Loop.update_other hu]

theorem basic_canPrint (c : Config) : CanPrint (basic c) c :=
  canPrint (basic_proper c) fun t x _ h1 hn hlive => by
    obtain ⟨y, hs, hlt⟩ := loop_goes (x := x) h1 hn (of_decide_eq_false hlive)
    exact ⟨t, y, hs, hlt⟩

/-! ### racey-mmaptmpfile -/

theorem mmap_proper (c : Config) : (mmaptmpfile c).Proper c := ⟨(basic_proper c).live, (basic_proper c).stays⟩

theorem mmap_canPrint (c : Config) : CanPrint (mmaptmpfile c) c :=
  canPrint (mmap_proper c) fun t x _ h1 hn hlive => by
    obtain ⟨y, hs, hlt⟩ := loop_goes (x := x) h1 hn (of_decide_eq_false hlive)
    exact ⟨t, y, hs, hlt⟩

/-- The loops stand alike, and so do the entries of `sig` that the threads and `main` use. -/
structure Agree (n : ℕ) (x y : Loop.State) : Prop where
  thread : x.thread = y.thread
  m : x.mem.m = y.mem.m
  sig : ∀ u ≤ n, x.mem.sig u = y.mem.sig u

theorem Agree.symm {n : ℕ} {x y : Loop.State} (h : Agree n x y) : Agree n y x :=
  ⟨h.thread.symm, h.m.symm, fun u hu => (h.sig u hu).symm⟩

theorem Agree.step {x y x' : Loop.State} (h : Agree c.numProcs x y) (hs : Loop.step c t x = some x') :
    ∃ y', Loop.step c t y = some y' ∧ Agree c.numProcs x' y' := by
  obtain ⟨⟨h1, hn, hover⟩, hs⟩ := Option.ite_none_right_eq_some.mp hs
  cases hs
  have hover' : ¬ (y.thread t).Over c.maxLoop := h.thread ▸ hover
  refine ⟨_, Loop.step_of_not_over h1 hn hover', ?_⟩
  have hth : x.thread t = y.thread t := congrFun h.thread t
  simp only [Loop.State.update, Loop.Thread.step, hth, h.thread]
  -- What the access of `t` reads is the same in both.
  cases (y.thread t).pc with
  | head => exact ⟨by rw [h.sig t hn], h.m, h.sig⟩
  | read1 num | read2 num => exact ⟨by rw [h.m], h.m, h.sig⟩
  | write index2 num => exact ⟨rfl, by rw [h.m], h.sig⟩
  | setSig num =>
    refine ⟨rfl, h.m, fun u hu => ?_⟩
    show Function.update x.mem.sig t num u = Function.update y.mem.sig t num u
    rcases eq_or_ne u t with rfl | hne
    · rw [Function.update_self, Function.update_self]
    · rw [Function.update_of_ne hne, Function.update_of_ne hne]
      exact h.sig u hu

theorem exists_agree {x₀ y₀ x : Loop.State} (h : Agree c.numProcs x₀ y₀)
    (hx : (⟨x₀, Loop.step c⟩ : Machine Loop.State ℕ).Reachable x) :
    ∃ y, (⟨y₀, Loop.step c⟩ : Machine Loop.State ℕ).Reachable y ∧ Agree c.numProcs x y := by
  induction hx with
  | init => exact ⟨y₀, .init, h⟩
  | step t _ _ hs ih =>
    obtain ⟨y, hy, hagree⟩ := ih
    obtain ⟨y', hs', hagree⟩ := hagree.step hs
    exact ⟨y', hy.step t trivial hs', hagree⟩

theorem agree_start (hn : c.numProcs ≤ 32) : Agree c.numProcs (mmaptmpfile c).start Loop.start :=
  ⟨rfl, rfl, fun _ hu => initMmap_eq (Nat.lt_succ_of_le (hu.trans hn))⟩

/-- States that agree give the same signature, and their loops are over together. -/
theorem Agree.sig_mem {x y : Loop.State} {v : ℤ} (hpos : 0 < c.numProcs) (h : Agree c.numProcs x y)
    (hx : (∀ t, 1 ≤ t → t ≤ c.numProcs → (x.thread t).Over c.maxLoop) ∧ v = mixSig c.numProcs x.mem.sig) :
    Loop.Complete c y ∧ v = mixSig c.numProcs y.mem.sig :=
  ⟨fun t h1 hn => h.thread ▸ hx.1 t h1 hn, hx.2.trans (mixSig_congr hpos fun i hi => h.sig i hi.le)⟩

theorem mmap_outcomes (hpos : 0 < c.numProcs) (hn : c.numProcs ≤ 32) :
    outcomes (mmaptmpfile c) c = Start.outcomes .basic c := by
  rw [outcomes_eq_loops (mmap_proper c), Start.outcomes_eq_loop]
  ext v
  constructor
  · rintro ⟨x, hx, hended, hv⟩
    obtain ⟨y, hy, hagree⟩ := exists_agree (agree_start hn) hx
    exact ⟨y, hy, hagree.sig_mem hpos ⟨fun t h1 hn => basic_over.mp (hended t h1 hn), hv⟩⟩
  · rintro ⟨y, hy, hcomplete, hv⟩
    obtain ⟨x, hx, hagree⟩ := exists_agree (agree_start hn).symm hy
    obtain ⟨hcomplete, hv⟩ := hagree.sig_mem hpos ⟨hcomplete, hv⟩
    exact ⟨x, hx, fun t h1 hn => basic_over.mpr (hcomplete t h1 hn), hv⟩

/-! ### racey-freqsyscall -/

section Freqsyscall
variable {x : Freqsyscall.State}

theorem freq_over : (freqsyscall c).ended t x = true ↔ (x.thread t).pc = .mix .read1 ∧ c.maxLoop ≤ (x.thread t).i :=
  decide_eq_true_iff

theorem freq_other {y : Freqsyscall.State} (hs : Freqsyscall.step c t x = some y) (hu : u ≠ t) : y.thread u = x.thread u := by
  obtain ⟨-, hstep⟩ := Freqsyscall.step_cases hs
  cases hstep <;> simp [hu]

theorem freq_proper (c : Config) : (freqsyscall c).Proper c where
  live t x y hs := by
    obtain ⟨⟨h1, hn, hi⟩, -⟩ := Freqsyscall.step_cases (show Freqsyscall.step c t x = some y from hs)
    exact ⟨⟨h1, hn⟩, decide_eq_false fun h => absurd hi (not_lt.mpr h.2)⟩
  stays t u x y hs hu := by
    have hs : Freqsyscall.step c t x = some y := hs
    have hover := freq_over.mp hu
    have hne : u ≠ t := by
      rintro rfl
      exact absurd (Freqsyscall.step_cases hs).1.2.2 (not_lt.mpr hover.2)
    rw [freq_over, freq_other hs hne]
    exact hover

/-- A step between two accesses to `m` stays between them, or begins the next iteration. -/
theorem call_cases {th : Freqsyscall.Thread} (hmix : ∀ pc, th.pc ≠ .mix pc) :
    (th.call c).i = th.i ∧ (∀ pc, (th.call c).pc ≠ .mix pc) ∨ th.call c = th.again := by
  have hgoto : ∀ {p : Freqsyscall.Pc}, (∀ pc, p ≠ .mix pc) → th.call c = th.goto p →
      (th.call c).i = th.i ∧ (∀ pc, (th.call c).pc ≠ .mix pc) ∨ th.call c = th.again := fun hp heq => by
    rw [heq]
    exact .inl ⟨rfl, hp⟩
  cases hpc : th.pc with
  | mix pc => exact (hmix pc hpc).elim
  | probe =>
    cases hr : Freqsyscall.remainder th.i (c.maxLoop / 200) with
    | none => exact hgoto (p := .undefined) (by simp) (by simp only [Freqsyscall.Thread.call, hpc, hr])
    | some k =>
      cases k with
      | zero => exact hgoto (p := .mmap) (by simp) (by simp only [Freqsyscall.Thread.call, hpc, hr])
      | succ k => exact .inr (by simp only [Freqsyscall.Thread.call, hpc, hr])
  | setX p =>
    refine hgoto (p := if p.prot = .readWrite then .protectRead { p with value := 10 } else .undefined) ?_
      (by simp only [Freqsyscall.Thread.call, hpc])
    split <;> simp
  | getX p =>
    refine hgoto (p := if p.prot = .none then .undefined else .protectNone p) ?_ (by simp only [Freqsyscall.Thread.call, hpc])
    split <;> simp
  | protectNone p => exact .inr (by simp only [Freqsyscall.Thread.call, hpc])
  | undefined => exact .inl (by simp [Freqsyscall.Thread.call, hpc])
  | getuid => exact hgoto (p := .probe) (by simp) (by simp only [Freqsyscall.Thread.call, hpc])
  | mmap => exact hgoto (p := .setX ⟨.readWrite, 0⟩) (by simp) (by simp only [Freqsyscall.Thread.call, hpc])
  | protectRead p => exact hgoto (p := .getX { p with prot := .read }) (by simp) (by simp only [Freqsyscall.Thread.call, hpc])

/-- A thread in the middle of an iteration is in its loop. -/
theorem freq_running (h : (freqsyscall c).machine.Reachable x) :
    ∀ t, (x.thread t).i ≤ c.maxLoop ∧ ((x.thread t).pc ≠ .mix .read1 → Freqsyscall.Running c t x) := by
  refine h.invariant (I := fun x : Freqsyscall.State => ∀ t, (x.thread t).i ≤ c.maxLoop ∧
    ((x.thread t).pc ≠ .mix .read1 → Freqsyscall.Running c t x))
    (fun t => ⟨Nat.zero_le _, fun h => absurd rfl h⟩) fun t x y h _ hs u => ?_
  have hs : Freqsyscall.step c t x = some y := hs
  rcases eq_or_ne u t with rfl | hu
  · obtain ⟨hrun, hstep⟩ := Freqsyscall.step_cases hs
    have hlt := hrun.2.2
    cases hstep with
    | mix pc th _ _ _ hi =>
      simp only [Freqsyscall.Running, Function.update_self, hi]
      exact ⟨hlt.le, fun _ => hrun⟩
    | call hmix =>
      simp only [Freqsyscall.Running, Function.update_self]
      rcases call_cases (c := c) hmix with ⟨hi, -⟩ | hagain
      · rw [hi]
        exact ⟨hlt.le, fun _ => hrun⟩
      · rw [hagain]
        exact ⟨hlt, fun h => absurd rfl h⟩
  · rw [Freqsyscall.Running, freq_other hs hu]
    exact h u

/-- The steps that a thread has before it, if it divides by zero in none of them. -/
def callsLeft (n : ℕ) (th : Freqsyscall.Thread) : ℕ :=
  match th.pc with
  | .mix .read1 => 11 * (n - th.i)
  | .mix (.read2 _) => 11 * (n - th.i - 1) + 10
  | .mix (.write _ _) => 11 * (n - th.i - 1) + 9
  | pc => 11 * (n - th.i - 1) + pc.distance

theorem callsLeft_of_not_mix {n : ℕ} {th : Freqsyscall.Thread} (hmix : ∀ pc, th.pc ≠ .mix pc) :
    callsLeft n th = 11 * (n - th.i - 1) + th.pc.distance := by
  unfold callsLeft
  split
  case h_4 => rfl
  all_goals exact (hmix _ ‹_›).elim

theorem callsLeft_call {th : Freqsyscall.Thread} (hmix : ∀ pc, th.pc ≠ .mix pc) (hsound : th.pc.Sound)
    (hc : c.maxLoop / 200 ≠ 0) : callsLeft c.maxLoop (th.call c) < callsLeft c.maxLoop th := by
  have hdist := Freqsyscall.Pc.distance_call (c := c) hmix hsound hc
  rw [callsLeft_of_not_mix hmix]
  rcases call_cases (c := c) hmix with ⟨hi, hmix'⟩ | hagain
  · rw [callsLeft_of_not_mix hmix', hi]
    omega
  · rw [hagain]
    show 11 * (c.maxLoop - (th.i + 1)) < _
    omega

/-- With a divisor that is not zero a thread in its loop can always make its next step. -/
theorem freq_goes (hc : c.maxLoop / 200 ≠ 0) (hrun : Freqsyscall.Running c t x) (hsound : Freqsyscall.Sound c x) :
    ∃ y, Freqsyscall.step c t x = some y ∧ ∑ u ∈ Finset.Icc 1 c.numProcs, callsLeft c.maxLoop (y.thread u) <
      ∑ u ∈ Finset.Icc 1 c.numProcs, callsLeft c.maxLoop (x.thread u) := by
  have hi : (x.thread t).i < c.maxLoop := hrun.2.2
  obtain ⟨y, hs, hlt⟩ : ∃ y, Freqsyscall.step c t x = some y ∧
      callsLeft c.maxLoop (y.thread t) < callsLeft c.maxLoop (x.thread t) := by
    by_cases hmix : ∃ pc, (x.thread t).pc = .mix pc
    · obtain ⟨pc, hpc⟩ := hmix
      have hs : ∃ y, Freqsyscall.step c t x = some y := by simp [Freqsyscall.step, hrun, hpc]
      obtain ⟨y, hs⟩ := hs
      refine ⟨y, hs, ?_⟩
      simp only [Freqsyscall.step, if_pos hrun, hpc, Option.some.injEq] at hs
      subst hs
      cases pc with
      | read1 | read2 num | write index2 num =>
        simp only [Function.update_self, Freqsyscall.Thread.goto, MixPc.step, callsLeft, hpc, Freqsyscall.Pc.distance]
        omega
    · rw [not_exists] at hmix
      obtain ⟨pc, hpc⟩ | ⟨-, hpc⟩ := hsound t
      · exact (hmix pc hpc).elim
      · have hdef : (x.thread t).pc ≠ .undefined := fun heq => by rwa [heq] at hpc
        refine ⟨_, (Freqsyscall.step_of_call hrun hmix hdef).1, ?_⟩
        simp only [Function.update_self]
        exact callsLeft_call hmix hpc hc
  refine ⟨y, hs, Finset.sum_lt_sum (fun u _ => ?_) ⟨t, Finset.mem_Icc.mpr ⟨hrun.1, hrun.2.1⟩, hlt⟩⟩
  rcases eq_or_ne u t with rfl | hu
  · exact hlt.le
  · rw [freq_other hs hu]

theorem freq_sound (hc : c.maxLoop / 200 ≠ 0) (hx : (freqsyscall c).machine.Reachable x) : Freqsyscall.Sound c x := by
  obtain ⟨bs, hr⟩ := exists_run_of_reachable hx
  exact Freqsyscall.sound_of_run hc hr

theorem freq_canPrint (hc : 200 ≤ c.maxLoop) : CanPrint (freqsyscall c) c :=
  canPrint (freq_proper c) fun t x hx h1 hn hlive => by
    have hc' : c.maxLoop / 200 ≠ 0 := (Nat.div_pos hc (by decide)).ne'
    obtain ⟨hle, hrunning⟩ := freq_running hx t
    have hrun : Freqsyscall.Running c t x := by
      by_cases hpc : (x.thread t).pc = .mix .read1
      · exact ⟨h1, hn, not_le.mp fun h => of_decide_eq_false hlive ⟨hpc, h⟩⟩
      · exact hrunning hpc
    obtain ⟨y, hs, hlt⟩ := freq_goes hc' hrun (freq_sound hc' hx)
    exact ⟨t, y, hs, hlt⟩

theorem freq_ended (hx : (freqsyscall c).machine.Reachable x) :
    (freqsyscall c).ended t x = true ↔ (x.thread t).i = c.maxLoop := by
  obtain ⟨hle, hrunning⟩ := freq_running hx t
  rw [freq_over]
  refine ⟨fun h => le_antisymm hle h.2, fun h => ⟨?_, h.ge⟩⟩
  by_contra hpc
  exact absurd (hrunning hpc).2.2 (not_lt.mpr h.ge)

theorem freq_outcomes (hc : 200 ≤ c.maxLoop) : outcomes (freqsyscall c) c = Start.outcomes .basic c := by
  rw [outcomes_eq_loops (freq_proper c), Start.outcomes_eq_loop, Loop.outcomes_eq_basic]
  ext v
  constructor
  · rintro ⟨x, hx, hended, rfl⟩
    obtain ⟨bs, hr⟩ := exists_run_of_reachable hx
    refine ⟨x.basic, reachable_of_run (Freqsyscall.basic_of_run hr), fun t h1 hn => ?_, rfl⟩
    have hover := freq_over.mp (hended t h1 hn)
    simp only [Freqsyscall.State.basic, Freqsyscall.Thread.basic, hover.1]
    exact le_antisymm (freq_running hx t).1 hover.2
  · rintro ⟨y, hy, hcomplete, rfl⟩
    obtain ⟨as, hr⟩ := exists_run_of_reachable hy
    have hmixes := Freqsyscall.mixesAs_of_le hc hr hcomplete
    obtain ⟨bs, x, hrun, haccesses, hend⟩ := hmixes.completes [] (Freqsyscall.start .init) rfl List.nil_prefix
    have hx : (freqsyscall c).machine.Reachable x := reachable_of_run hrun
    refine ⟨x, hx, fun t h1 hn => (freq_ended hx).mpr (hend t h1 hn), ?_⟩
    exact (hmixes.same bs x hrun haccesses hend).2.symm

/-- With the divisor 0 nothing is printed. -/
theorem freq_no_outcomes (hc : c.maxLoop < 200) (h0 : 0 < c.maxLoop) (hpos : 0 < c.numProcs) :
    outcomes (freqsyscall c) c = ∅ := by
  rw [outcomes_eq_loops (freq_proper c), Set.eq_empty_iff_forall_notMem]
  rintro v ⟨x, hx, hended, -⟩
  obtain ⟨bs, hr⟩ := exists_run_of_reachable hx
  have hi := (Freqsyscall.stuck_of_run (Nat.div_eq_of_lt hc) hr 1).1
  have hover := (freq_over.mp (hended 1 le_rfl hpos)).2
  omega

theorem nonempty_of_canPrint {σ : Type} {L : Loops σ} (h : CanPrint L c) : (outcomes L c).Nonempty := by
  obtain ⟨as, s, v, hr, hv⟩ := h _ .init
  exact ⟨v, s, reachable_of_run hr, hv⟩

end Freqsyscall

/-! ### What the programs print -/

/-- A file that is mapped changes none of the signatures that can be printed, and neither do the system calls, unless the loop
    count is below 200: then no schedule gets to print one. -/
theorem same_signatures (hc : c.Accepted) : outcomes (mmaptmpfile c) c = Start.outcomes .basic c ∧
    outcomes (freqsyscall c) c = if 200 ≤ c.maxLoop then Start.outcomes .basic c else ∅ := by
  refine ⟨mmap_outcomes hc.numProcs_pos hc.numProcs_le, ?_⟩
  split
  case isTrue hle => exact freq_outcomes hle
  case isFalse hlt => exact freq_no_outcomes (not_le.mp hlt) hc.maxLoop_pos hc.numProcs_pos

theorem same_signatures_two : outcomes (mmaptmpfile ⟨2, 400⟩) ⟨2, 400⟩ = Start.outcomes .basic ⟨2, 400⟩ ∧
    outcomes (freqsyscall ⟨2, 400⟩) ⟨2, 400⟩ = Start.outcomes .basic ⟨2, 400⟩ := by
  obtain ⟨hmmap, hfreq⟩ := same_signatures (c := ⟨2, 400⟩) ⟨by decide, by decide, by decide⟩
  exact ⟨hmmap, hfreq.trans (if_pos (by decide))⟩

/-- The start barrier, `main`'s joins and the loops leave no way to get stuck: whatever has happened, a signature can still be
    printed, except where racey-freqsyscall divides by zero. -/
theorem always_canPrint (hc : c.Accepted) : CanPrint (basic c) c ∧ CanPrint (mmaptmpfile c) c ∧
    (CanPrint (freqsyscall c) c ↔ 200 ≤ c.maxLoop) := by
  refine ⟨basic_canPrint c, mmap_canPrint c, fun h => not_lt.mp fun hlt => ?_, freq_canPrint⟩
  have hempty := freq_no_outcomes hlt hc.maxLoop_pos hc.numProcs_pos
  exact absurd hempty (nonempty_of_canPrint h).ne_empty

theorem always_canPrint_two : CanPrint (basic ⟨2, 400⟩) ⟨2, 400⟩ ∧ CanPrint (mmaptmpfile ⟨2, 400⟩) ⟨2, 400⟩ ∧
    CanPrint (freqsyscall ⟨2, 400⟩) ⟨2, 400⟩ ∧ ¬ CanPrint (freqsyscall ⟨2, 199⟩) ⟨2, 199⟩ := by
  obtain ⟨hbasic, hmmap, hfreq⟩ := always_canPrint (c := ⟨2, 400⟩) ⟨by decide, by decide, by decide⟩
  obtain ⟨-, -, hfreq'⟩ := always_canPrint (c := ⟨2, 199⟩) ⟨by decide, by decide, by decide⟩
  exact ⟨hbasic, hmmap, hfreq.mpr (by decide), hfreq'.not.mpr (by decide)⟩

end Racey.StartBarrier
