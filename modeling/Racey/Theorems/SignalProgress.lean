import Mathlib.Algebra.Order.BigOperators.Group.Finset
import Racey.Theorems.Loop
import Racey.Theorems.SignalMixers

/-! racey-signal always prints a signature: a thread waits at a barrier only while another has not arrived, every signal that
    is sent is one that its sender has an iteration for, and its handler makes no more than 100 iterations. -/

namespace Racey.Signal
open Machine

variable {c : Config} {behind : ℕ} {s s' : State} {t u : ℕ} {a : Move} {th : Thread}

/-! ### Who exists -/

/-- The threads that `main` has created. -/
def Created (c : Config) (s : State) : Prop :=
  match s.main with
  | .create i => ∀ t, 1 ≤ t → t ≤ i → s.phase t ≠ .unborn
  | _ => ∀ t, 1 ≤ t → t ≤ c.numProcs → s.phase t ≠ .unborn

theorem born_of_update {p : Phase} (hphase : s'.phase = Function.update s.phase t p) (hp : p ≠ .unborn)
    (hu : s.phase u ≠ .unborn) : s'.phase u ≠ .unborn := by
  rw [hphase]
  rcases eq_or_ne u t with rfl | hne
  · rwa [Function.update_self]
  · rwa [Function.update_of_ne hne]

theorem born_of_same (hphase : s'.phase = s.phase) (hu : s.phase u ≠ .unborn) : s'.phase u ≠ .unborn := by
  rwa [hphase]

theorem phase_kill (y : ℕ) : (kill y s).phase = s.phase := by
  unfold kill
  split
  · rfl
  · exact phase_same rfl rfl

/-- Who exists goes on existing. -/
theorem born_step (h : step c a s = some s') (hu : s.phase u ≠ .unborn) : s'.phase u ≠ .unborn := by
  cases step_cases h with
  | create | setSelf | sigaction | arrive | pass | enter | leave | exit | arriveLast | passLast =>
    exact born_of_update (phase_update rfl) nofun hu
  | main => exact hu
  | access | handlerReturns | handlerAccess | deliver => exact born_of_same (phase_same rfl rfl) hu
  | kill t y =>
    rw [phase_kill]
    exact born_of_update (phase_update rfl) nofun hu

theorem main_kill (y : ℕ) : (kill y s).main = s.main := by
  unfold kill
  split <;> rfl

theorem main_step (h : step c a s = some s') (ha : a ≠ .main) : s'.main = s.main := by
  cases step_cases h with
  | create | main => exact absurd rfl ha
  | kill t y => exact main_kill y
  | _ => rfl

theorem Created.step (I : Created c s) (h : step c a s = some s') : Created c s' := by
  have hborn : ∀ u, s.phase u ≠ .unborn → s'.phase u ≠ .unborn := fun u => born_step h
  by_cases ha : a = .main
  · subst ha
    have h : stepMain c s = some s' := h
    unfold Created at I ⊢
    unfold stepMain at h
    split at h
    case h_1 i hmain =>
      rw [hmain] at I
      split at h
      · cases h
        intro t h1 ht
        rcases Nat.le_succ_iff.mp ht with ht | rfl
        · exact hborn t (I t h1 ht)
        · have hthread : (s.goto (i + 1) .setSelf).thread =
              Function.update s.thread (i + 1) { s.thread (i + 1) with phase := .setSelf } := rfl
          show (s.goto (i + 1) .setSelf).phase (i + 1) ≠ .unborn
          rw [phase_update hthread, Function.update_self]
          nofun
      · rename_i hi
        cases h
        exact fun t h1 ht => I t h1 (ht.trans (not_lt.mp hi))
    case h_2 i hmain =>
      rw [hmain] at I
      split at h
      · obtain ⟨-, ⟨⟩⟩ := Option.ite_none_right_eq_some.mp h
        exact I
      · cases h
        exact I
    case h_3 hmain =>
      rw [hmain] at I
      cases h
      exact I
    case h_4 i mix_sig hmain | h_5 i mix_sig hmain =>
      rw [hmain] at I
      split at h
      all_goals
        cases h
        exact I
    case h_6 => cases h
  · unfold Created at I ⊢
    rw [main_step h ha]
    split at I
    all_goals exact fun t h1 ht => hborn t (I t h1 ht)

theorem created_start : Created c (start behind) := fun _ h1 h0 => absurd (h1.trans h0) (by decide)

theorem created_of_reachable (h : (machine c behind).Reachable s) : Created c s :=
  h.invariant created_start fun _ _ _ I _ hs => I.step hs

/-! ### Some thread can go on -/

theorem target_mem (ht : t ∈ Finset.Icc 1 c.numProcs) : s.target c t ∈ Finset.Icc 1 c.numProcs := by
  obtain ⟨h1, hn⟩ := Finset.mem_Icc.mp ht
  exact Finset.mem_Icc.mpr ⟨Nat.le_add_left 1 _, Nat.succ_le_of_lt (Nat.mod_lt _ (h1.trans hn))⟩

/-- A thread that exists and cannot go on waits in a barrier or has returned. -/
theorem waits_of_stuck (I : Inv c s) (hborn : s.phase t ≠ .unborn)
    (hstuck : stepThread c t s = none) : (∃ cycle, s.phase t = .inBarrier cycle ∧ ¬ s.barrier.Released cycle) ∨
      (∃ cycle, s.phase t = .inBarrierLast cycle ∧ ¬ s.barrier.Released cycle) ∨ s.phase t = .returned := by
  unfold stepThread at hstuck
  cases hframe : (s.thread t).frame with
  | some f =>
    rw [hframe] at hstuck
    cases hstuck
  | none =>
    rw [hframe] at hstuck
    simp only [stepBody] at hstuck
    cases hp : (s.thread t).phase with
    | unborn => exact absurd hp hborn
    | returned => exact .inr (.inr hp)
    | inBarrier cycle =>
      refine .inl ⟨cycle, hp, fun hreleased => ?_⟩
      simp only [hp, if_pos hreleased] at hstuck
      cases hstuck
    | inBarrierLast cycle =>
      refine .inr (.inl ⟨cycle, hp, fun hreleased => ?_⟩)
      simp only [hp, if_pos hreleased] at hstuck
      cases hstuck
    | kill =>
      have hself := (I.ready hp (target_mem (s := s) (I.born t hborn))).1
      simp only [hp, hself] at hstuck
      cases hstuck
    | setSelf | sigaction | arrive | arriveLast =>
      simp only [hp] at hstuck
      cases hstuck
    | outer | inner =>
      simp only [hp] at hstuck
      split at hstuck <;> cases hstuck

/-- While a thread has not returned, and all exist, some thread can go on. -/
theorem exists_thread_step (I : Inv c s)
    (hborn : ∀ t, 1 ≤ t → t ≤ c.numProcs → s.phase t ≠ .unborn) (ht : t ∈ Finset.Icc 1 c.numProcs)
    (hlive : s.phase t ≠ .returned) : ∃ u s', step c (.thread u) s = some s' := by
  by_contra hstuck
  have hwaits : ∀ u ∈ Finset.Icc 1 c.numProcs, (∃ cycle, s.phase u = .inBarrier cycle ∧ ¬ s.barrier.Released cycle) ∨
      (∃ cycle, s.phase u = .inBarrierLast cycle ∧ ¬ s.barrier.Released cycle) ∨ s.phase u = .returned := fun u hu => by
    obtain ⟨h1, hn⟩ := Finset.mem_Icc.mp hu
    refine waits_of_stuck I (hborn u h1 hn) ?_
    by_contra hsome
    obtain ⟨s', hs⟩ := Option.ne_none_iff_exists'.mp hsome
    exact hstuck ⟨u, s', hs⟩
  have hpos : c.numProcs ≠ 0 := fun h0 => by simp [h0] at ht
  -- Who has not arrived in the present cycle can only have returned, and that is after the last.
  obtain ⟨u, hu, hcalls⟩ := (I.counts hpos).exists_absent
  have hpast := I.past u
  have htwo : s.barrier.cycle = 2 := by
    obtain ⟨cycle, hp, hreleased⟩ | ⟨cycle, hp, hreleased⟩ | hp := hwaits u hu
    · rw [hp] at hpast
      simp only [hp, Phase.calls, Phase.Past, Barrier.Released, not_not] at hcalls hpast hreleased
      omega
    · rw [hp] at hpast
      simp only [hp, Phase.calls, Phase.Past, Barrier.Released, not_not] at hcalls hpast hreleased
      omega
    · rw [hp] at hcalls
      exact hcalls.symm
  have hcalls := I.calls_eq ht
  have hpast := I.past t
  obtain ⟨cycle, hp, hreleased⟩ | ⟨cycle, hp, hreleased⟩ | hp := hwaits t ht
  · rw [hp] at hpast
    simp only [Phase.Past, Barrier.Released, not_not] at hpast hreleased
    omega
  · rw [hp] at hpast
    simp only [Phase.Past, Barrier.Released, not_not] at hpast hreleased
    omega
  · exact hlive hp

/-! ### How long a run is -/

theorem npersig_pos (c : Config) : 0 < npersig c := by
  unfold npersig
  split
  · exact Nat.div_pos ‹_› (by decide)
  · split
    · exact Nat.div_pos ‹_› (by decide)
    · decide

/-- What a thread has before it apart from its iterations, where a signal counts for 503 steps: sending it, its delivery,
    and the 501 of its handler. -/
def phaseLeft (c : Config) (th : Thread) : ℕ :=
  match th.phase with
  | .unborn | .setSelf => 7
  | .sigaction => 6
  | .arrive => 5
  | .inBarrier _ => 4
  | .outer => 3
  | .inner => if th.k = 0 ∧ th.loop.i < c.maxLoop then 2 else 507
  | .kill => 506
  | .arriveLast => 2
  | .inBarrierLast _ => 1
  | .returned => 0

/-- Each iteration can be the last before a signal. -/
def loopLeft (n : ℕ) (th : Loop.Thread) : ℕ := Loop.accessesLeft n th + 505 * (n - th.i)

def handlerLeft : Option Loop.Thread → ℕ
  | none => 0
  | some f => Loop.accessesLeft 100 f + 1

def pendingLeft (pending : Bool) : ℕ := if pending then 502 else 0

def Thread.left (c : Config) (th : Thread) : ℕ :=
  loopLeft c.maxLoop th.loop + phaseLeft c th + handlerLeft th.frame + pendingLeft th.pending

def State.left (c : Config) (s : State) : ℕ := ∑ t ∈ Finset.Icc 1 c.numProcs, (s.thread t).left c

theorem left_update (ht : t ∈ Finset.Icc 1 c.numProcs) (hthread : s'.thread = Function.update s.thread t th) :
    s'.left c + (s.thread t).left c = s.left c + th.left c := by
  have hrest : ∑ u ∈ (Finset.Icc 1 c.numProcs).erase t, (s'.thread u).left c =
      ∑ u ∈ (Finset.Icc 1 c.numProcs).erase t, (s.thread u).left c :=
    Finset.sum_congr rfl fun u hu => by rw [hthread, Function.update_of_ne (Finset.ne_of_mem_erase hu)]
  rw [State.left, State.left, ← Finset.add_sum_erase _ _ ht, ← Finset.add_sum_erase _ (fun u => (s.thread u).left c) ht,
    hrest, hthread, Function.update_self]
  omega

theorem left_lt (ht : t ∈ Finset.Icc 1 c.numProcs) (hthread : s'.thread = Function.update s.thread t th)
    (hlt : th.left c < (s.thread t).left c) : s'.left c < s.left c := by
  have hsum := left_update ht hthread
  omega

theorem left_goto_eq {p q : Phase} {d : ℕ} (hp : th.phase = p)
    (hd : phaseLeft c { th with phase := q } + d = phaseLeft c { th with phase := p }) :
    Thread.left c { th with phase := q } + d = th.left c := by
  have hphase : phaseLeft c { th with phase := p } = phaseLeft c th := by rw [← hp]
  rw [hphase] at hd
  simp only [Thread.left]
  omega

/-- Thread `t` goes from phase `p` to `q`. -/
theorem left_goto {p q : Phase} {d : ℕ} (ht : t ∈ Finset.Icc 1 c.numProcs) (hp : s.phase t = p)
    (hd : phaseLeft c { s.thread t with phase := q } + d = phaseLeft c { s.thread t with phase := p }) :
    (s.goto t q).left c + d = s.left c := by
  have hthread : (s.goto t q).thread = Function.update s.thread t { s.thread t with phase := q } := rfl
  have hsum := left_update ht hthread
  have hth := left_goto_eq hp hd
  dsimp only at hsum hth
  omega

theorem left_goto_lt {p q : Phase} (ht : t ∈ Finset.Icc 1 c.numProcs) (hp : s.phase t = p)
    (hlt : phaseLeft c { s.thread t with phase := q } < phaseLeft c { s.thread t with phase := p }) :
    (s.goto t q).left c < s.left c := by
  obtain ⟨d, hd⟩ := Nat.exists_eq_add_of_lt hlt
  have hsum := left_goto (d := d + 1) ht hp hd.symm
  omega

theorem left_kill (hy : t ∈ Finset.Icc 1 c.numProcs) : (kill t s).left c ≤ s.left c + 502 := by
  unfold kill
  split
  · exact Nat.le_add_right _ _
  · have hthread : (s.setThread t { s.thread t with pending := true }).thread =
        Function.update s.thread t { s.thread t with pending := true } := rfl
    have h := left_update hy hthread
    have hphase : phaseLeft c { s.thread t with pending := true } = phaseLeft c (s.thread t) := rfl
    simp only [Thread.left, hphase, pendingLeft, if_true] at h ⊢
    omega

/-- An access of the loop that is in its last iteration, or that another may follow, pays for the signal behind it. -/
theorem loopLeft_lt {mem : Memory} {r : Loop.Thread × Memory} (hp : th.phase = .inner) (hi : th.loop.i < c.maxLoop)
    (hr : th.loop.step t mem = r) {k : ℕ} (hk : k = if r.1.i = th.loop.i then th.k else th.k + 1) :
    loopLeft c.maxLoop r.1 + phaseLeft c { th with k := k, loop := r.1 } < loopLeft c.maxLoop th.loop + phaseLeft c th := by
  have hnot : ¬ th.loop.Over c.maxLoop := fun h => absurd hi (not_lt.mpr h.2)
  have hlt := Loop.accessesLeft_lt hnot t mem
  rw [hr] at hlt
  simp only [loopLeft, phaseLeft, hp]
  rcases i_step (t := t) mem th.loop with ⟨heq, -⟩ | ⟨heq, -, -⟩
  · rw [hr] at heq
    rw [if_pos heq] at hk
    rw [hk, heq]
    omega
  · rw [hr] at heq
    rw [heq, if_neg (Nat.succ_ne_self _)] at hk
    rw [hk, heq, if_neg (fun h => absurd h.1 (Nat.succ_ne_zero _))]
    split <;> omega

/-- Each step of a thread, and each delivery, uses up some of what is left. -/
theorem left_thread (I : Inv c s) (hok : ∀ t, ∃ n, (s.thread t).Ok c n) (h : step c a s = some s') (ha : a ≠ .main) :
    s'.left c < s.left c := by
  have hmem : ∀ {t p}, s.phase t = p → p ≠ .unborn → t ∈ Finset.Icc 1 c.numProcs := fun hp hne =>
    I.born _ (ne_of_eq_of_ne hp hne)
  have hframed : ∀ t f, (s.thread t).frame = some f → t ∈ Finset.Icc 1 c.numProcs := fun t f hf => by
    obtain ⟨n, hok⟩ := hok t
    exact I.born t (hok.running hf).1
  cases step_cases h with
  | create | main => exact absurd rfl ha
  | setSelf t _ hp => exact left_goto_lt (q := .sigaction) (hmem hp nofun) hp (Nat.lt_succ_self 6)
  | sigaction t _ hp => exact left_goto_lt (q := .arrive) (hmem hp nofun) hp (Nat.lt_succ_self 5)
  | arrive t _ hp => exact left_goto_lt (q := .inBarrier _) (hmem hp nofun) hp (Nat.lt_succ_self 4)
  | pass t _ _ hp => exact left_goto_lt (q := .outer) (hmem hp nofun) hp (Nat.lt_succ_self 3)
  | leave t _ hp => exact left_goto_lt (q := .arriveLast) (hmem hp nofun) hp (Nat.lt_succ_self 2)
  | arriveLast t _ hp => exact left_goto_lt (q := .inBarrierLast _) (hmem hp nofun) hp (Nat.lt_succ_self 1)
  | passLast t _ _ hp => exact left_goto_lt (q := .returned) (hmem hp nofun) hp (Nat.lt_succ_self 0)
  | enter t _ hp hi =>
    have hp' : (s.thread t).phase = .outer := hp
    refine left_lt (hmem hp nofun) rfl ?_
    simp only [Thread.left, phaseLeft, hp', hi, and_self, if_true]
    omega
  | exit t _ hp hexit =>
    have hk : ¬ ((s.thread t).k = 0 ∧ (s.thread t).loop.i < c.maxLoop) := fun h =>
      hexit.2 ⟨h.1.symm ▸ npersig_pos c, h.2⟩
    refine left_goto_lt (q := .kill) (hmem hp nofun) hp ?_
    simp only [phaseLeft, if_neg hk]
    decide
  | access t r _ hp hgoes hr =>
    have hp' : (s.thread t).phase = .inner := hp
    -- The thread is in an iteration, or begins one.
    have hi : (s.thread t).loop.i < c.maxLoop := by
      obtain ⟨n, hok⟩ := hok t
      by_cases hhead : (s.thread t).loop.pc = .head
      · exact (not_not.mp (not_and.mp hgoes hhead)).2
      · exact hok.lt hhead
    have hlt := loopLeft_lt hp' hi hr rfl
    refine left_lt (hmem hp nofun) rfl ?_
    simp only [Thread.left] at hlt ⊢
    omega
  | kill t y _ hp hself =>
    have htarget : s.target c t ∈ Finset.Icc 1 c.numProcs := target_mem (hmem hp nofun)
    rw [(I.ready hp htarget).1] at hself
    cases hself
    have hkill := left_kill (s := s.goto t .outer) htarget
    have hsum := left_goto (d := 503) (q := .outer) (hmem hp nofun) hp rfl
    omega
  | handlerReturns t f hframe hover =>
    refine left_lt (hframed t f hframe) rfl ?_
    have hphase : phaseLeft c { s.thread t with frame := none } = phaseLeft c (s.thread t) := rfl
    simp only [Thread.left, hframe, hphase, handlerLeft]
    omega
  | handlerAccess t f r hframe hgoes hr =>
    have hlt := Loop.accessesLeft_lt hgoes t ⟨s.sig2, s.m⟩
    rw [hr] at hlt
    refine left_lt (hframed t f hframe) rfl ?_
    have hphase : phaseLeft c { s.thread t with frame := some r.1 } = phaseLeft c (s.thread t) := rfl
    simp only [Thread.left, hframe, hphase, handlerLeft]
    omega
  | deliver t hframe _ hborn _ =>
    have hdeliver : deliver t s = some _ := h
    obtain ⟨⟨hpending, -⟩, -⟩ := Option.ite_none_right_eq_some.mp hdeliver
    refine left_lt (I.born t hborn) rfl ?_
    have hphase : phaseLeft c { s.thread t with frame := some ⟨0, .head⟩, pending := false } =
      phaseLeft c (s.thread t) := rfl
    have hstart : Loop.accessesLeft 100 ⟨0, .head⟩ = 500 := rfl
    have htrue : pendingLeft true = 502 := rfl
    have hfalse : pendingLeft false = 0 := rfl
    simp only [Thread.left, hframe, hphase, handlerLeft, hpending, hstart, htrue, hfalse]
    omega

/-- The steps that `main` has before it. -/
def mainLeft (c : Config) : MainPc → ℕ
  | .create i => (c.numProcs - i) + (3 * c.numProcs + 5)
  | .join i => (c.numProcs - i) + (2 * c.numProcs + 4)
  | .first => 2 * c.numProcs + 3
  | .result i _ => (c.numProcs - i) + (c.numProcs + 2)
  | .result2 i _ => (c.numProcs - i) + 1
  | .printed _ => 0

theorem left_main (I : Inv c s) (h : stepMain c s = some s') :
    s'.left c + mainLeft c s'.main < s.left c + mainLeft c s.main := by
  unfold stepMain at h
  split at h
  case h_1 i hmain =>
    rw [hmain]
    split at h
    · rename_i hi
      cases h
      have hunborn := I.fresh i hmain (i + 1) (Nat.lt_succ_self i)
      have hmem : i + 1 ∈ Finset.Icc 1 c.numProcs := Finset.mem_Icc.mpr ⟨Nat.le_add_left 1 i, hi⟩
      have hleft := left_goto (d := 0) (q := .setSelf) hmem hunborn rfl
      refine lt_of_eq_of_lt (congrArg (· + _) hleft) (Nat.add_lt_add_left ?_ _)
      simp only [mainLeft]
      omega
    · cases h
      refine Nat.add_lt_add_left ?_ (s.left c)
      simp only [mainLeft]
      omega
  case h_2 i hmain =>
    rw [hmain]
    split at h
    · obtain ⟨-, ⟨⟩⟩ := Option.ite_none_right_eq_some.mp h
      refine Nat.add_lt_add_left ?_ (s.left c)
      simp only [mainLeft]
      omega
    · cases h
      refine Nat.add_lt_add_left ?_ (s.left c)
      simp only [mainLeft]
      omega
  case h_3 hmain =>
    rw [hmain]
    cases h
    refine Nat.add_lt_add_left ?_ (s.left c)
    simp only [mainLeft]
    omega
  case h_4 i mix_sig hmain | h_5 i mix_sig hmain =>
    rw [hmain]
    split at h
    all_goals
      cases h
      refine Nat.add_lt_add_left ?_ (s.left c)
      simp only [mainLeft]
      omega
  case h_6 => cases h

/-! ### The whole program -/

theorem ok_of_reachable (h : (machine c behind).Reachable s) (t : ℕ) : ∃ n, (s.thread t).Ok c n := by
  obtain ⟨o, ho⟩ := h.watch observer
  exact ⟨o t, (sim_of_reach ho).2.ok t⟩

theorem left_step (h : (machine c behind).Reachable s) (hs : step c a s = some s') :
    s'.left c + mainLeft c s'.main < s.left c + mainLeft c s.main := by
  have I := inv_of_reach h
  by_cases ha : a = .main
  · subst ha
    exact left_main I hs
  · rw [main_step hs ha]
    exact Nat.add_lt_add_right (left_thread I (ok_of_reachable h) hs ha) _

theorem left_start : (start behind).left c = c.numProcs * (510 * c.maxLoop + 7) := by
  have hthread : ∀ t ∈ Finset.Icc 1 c.numProcs, ((start behind).thread t).left c = 510 * c.maxLoop + 7 := fun t _ => by
    show 5 * (c.maxLoop - 0) + 505 * (c.maxLoop - 0) + 7 + 0 + 0 = _
    omega
  rw [State.left, Finset.sum_const_nat hthread, Nat.card_Icc, Nat.add_sub_cancel]

/-- While `main` has not printed, it or a thread can go on. -/
theorem goes_on (h : (machine c behind).Reachable s) : (∃ v, s.main = .printed v) ∨ ∃ a s', step c a s = some s' := by
  have hborn := created_of_reachable h
  unfold Created at hborn
  cases hmain : s.main with
  | printed v => exact .inl ⟨v, rfl⟩
  | create i =>
    refine .inr ⟨.main, ?_⟩
    simp only [step, stepMain, hmain]
    split <;> exact ⟨_, rfl⟩
  | first =>
    refine .inr ⟨.main, ?_⟩
    simp only [step, stepMain, hmain]
    exact ⟨_, rfl⟩
  | result i v | result2 i v =>
    refine .inr ⟨.main, ?_⟩
    simp only [step, stepMain, hmain]
    split <;> exact ⟨_, rfl⟩
  | join i =>
    rw [hmain] at hborn
    by_cases hi : i < c.numProcs
    · by_cases hreturned : (s.thread (i + 1)).phase = .returned
      · refine .inr ⟨.main, ?_⟩
        simp only [step, stepMain, hmain, if_pos hi, if_pos hreturned]
        exact ⟨_, rfl⟩
      · have hmem : i + 1 ∈ Finset.Icc 1 c.numProcs := Finset.mem_Icc.mpr ⟨Nat.le_add_left 1 i, hi⟩
        obtain ⟨u, s', hs⟩ := exists_thread_step (inv_of_reach h) hborn hmem hreturned
        exact .inr ⟨.thread u, s', hs⟩
    · refine .inr ⟨.main, ?_⟩
      simp only [step, stepMain, hmain, if_neg hi]
      exact ⟨_, rfl⟩

/-- The whole program always prints in the end: it never gets stuck before, and every run is bounded, whatever signals are
    sent and whenever they are delivered. -/
theorem every_run_prints (c : Config) (behind : ℕ) :
    (∀ s, (machine c behind).Reachable s → (∃ v, s.main = .printed v) ∨ ∃ a s', step c a s = some s') ∧
      ∀ as s, (machine c behind).run as (start behind) = some s →
        as.length ≤ 510 * c.numProcs * c.maxLoop + 11 * c.numProcs + 5 := by
  refine ⟨fun s => goes_on, fun as s hr => ?_⟩
  have hlen : as.length + (s.left c + mainLeft c s.main) ≤ (start behind).left c + mainLeft c (start behind).main :=
    length_le_of_measure (I := (machine c behind).Reachable) (μ := fun s => s.left c + mainLeft c s.main)
      (fun a s s' h hs => h.step a trivial hs) (fun a s s' h hs => left_step h hs) .init hr
  have hmain : mainLeft c (start behind).main = 4 * c.numProcs + 5 := by
    show (c.numProcs - 0) + (3 * c.numProcs + 5) = _
    omega
  have hbound : c.numProcs * (510 * c.maxLoop + 7) = 510 * c.numProcs * c.maxLoop + 7 * c.numProcs := by ring
  rw [left_start, hmain, hbound] at hlen
  omega

end Racey.Signal
