import Mathlib.Order.Interval.Finset.Nat
import Racey.Signal

/-! racey-signal signals only threads that are ready for it and still there: between the two barriers of one thread no
    other is before its first barrier or past its last. -/

namespace Racey.Signal
open Machine

variable {c : Config} {behind : ℕ} {s s' : State} {t : ℕ} {a : Move}

/-! ### The invariant -/

def State.phase (s : State) (t : ℕ) : Phase := (s.thread t).phase

/-- How often a thread has called `pthread_barrier_wait`. -/
def Phase.calls : Phase → ℕ
  | .unborn | .setSelf | .sigaction | .arrive => 0
  | .inBarrier _ | .outer | .inner | .kill | .arriveLast => 1
  | .inBarrierLast _ | .returned => 2

/-- Which cycles of the barrier are complete when a thread is in a phase, and in which it has arrived. -/
def Phase.Past (b : Barrier) : Phase → Prop
  | .inBarrier cycle => cycle = 0
  | .outer | .inner | .kill | .arriveLast => 1 ≤ b.cycle
  | .inBarrierLast cycle => cycle = 1 ∧ 1 ≤ b.cycle
  | .returned => 2 ≤ b.cycle
  | _ => True

theorem Phase.Past.mono {p : Phase} {b b' : Barrier} (h : p.Past b) (hle : b.cycle ≤ b'.cycle) : p.Past b' := by
  cases p with
  | unborn | setSelf | sigaction | arrive => trivial
  | inBarrier cycle => exact h
  | outer | inner | kill | arriveLast | returned => exact le_trans h hle
  | inBarrierLast cycle => exact ⟨h.1, h.2.trans hle⟩

structure Inv (c : Config) (s : State) : Prop where
  born : ∀ t, s.phase t ≠ .unborn → t ∈ Finset.Icc 1 c.numProcs
  counts : c.numProcs ≠ 0 → s.barrier.Counts (Finset.Icc 1 c.numProcs) fun t => (s.phase t).calls
  past : ∀ t, (s.phase t).Past s.barrier
  selfs : ∀ t, s.phase t ≠ .unborn → s.phase t ≠ .setSelf → s.threadSelfs t = some t
  fresh : ∀ i, s.main = .create i → ∀ t, i < t → s.phase t = .unborn

theorem inv_start : Inv c (start behind) where
  born _ h := absurd rfl h
  counts h := Barrier.Counts.init (Finset.nonempty_Icc.mpr (Nat.one_le_iff_ne_zero.mpr h))
  past _ := trivial
  selfs _ h := absurd rfl h
  fresh _ _ _ _ := rfl

theorem Inv.fresh_of (I : Inv c s) (hmain : s'.main = s.main) (ht : s.phase t ≠ .unborn) :
    ∀ i, s'.main = .create i → ∀ u, i < u → u ≠ t ∧ s.phase u = .unborn := by
  intro i hi u hu
  have hunborn := I.fresh i (hmain ▸ hi) u hu
  exact ⟨fun heq => ht (heq ▸ hunborn), hunborn⟩

/-- Thread `t` goes to another phase, and nobody arrives at the barrier. -/
theorem Inv.goto (I : Inv c s) {p : Phase} (hphase : s'.phase = Function.update s.phase t p)
    (hbarrier : s'.barrier = s.barrier) (hborn : p ≠ .unborn → t ∈ Finset.Icc 1 c.numProcs)
    (hcalls : p.calls = (s.phase t).calls) (hpast : p.Past s.barrier)
    (hself : p ≠ .unborn → p ≠ .setSelf → s'.threadSelfs t = some t)
    (hother : ∀ u, u ≠ t → s'.threadSelfs u = s.threadSelfs u)
    (hfresh : ∀ i, s'.main = .create i → ∀ u, i < u → u ≠ t ∧ s.phase u = .unborn) : Inv c s' := by
  refine ⟨fun u hu => ?_, fun hn => ?_, fun u => ?_, fun u hu hset => ?_, fun i hi u hu => ?_⟩
  · rw [hphase] at hu
    rcases eq_or_ne u t with rfl | hne
    · exact hborn (by simpa using hu)
    · exact I.born u (by simpa [hne] using hu)
  · have heq : (fun u => (s'.phase u).calls) = fun u => (s.phase u).calls := by
      funext u
      rw [hphase]
      rcases eq_or_ne u t with rfl | hne
      · simpa using hcalls
      · simp [hne]
    rw [heq, hbarrier]
    exact I.counts hn
  · rw [hphase, hbarrier]
    rcases eq_or_ne u t with rfl | hne
    · simpa using hpast
    · simpa [hne] using I.past u
  · rw [hphase] at hu hset
    rcases eq_or_ne u t with rfl | hne
    · exact hself (by simpa using hu) (by simpa using hset)
    · rw [hother u hne]
      exact I.selfs u (by simpa [hne] using hu) (by simpa [hne] using hset)
  · obtain ⟨hne, hunborn⟩ := hfresh i hi u hu
    rw [hphase, Function.update_of_ne hne, hunborn]

/-- No thread goes to another phase. -/
theorem Inv.same (I : Inv c s) (hphase : s'.phase = s.phase) (hbarrier : s'.barrier = s.barrier)
    (hselfs : s'.threadSelfs = s.threadSelfs) (hmain : s'.main = s.main ∨ ∀ i, s'.main ≠ .create i) : Inv c s' := by
  refine I.goto (t := 0) (by rw [hphase, Function.update_eq_self]) hbarrier (I.born 0) rfl (I.past 0)
    (fun h h' => by rw [hselfs]; exact I.selfs 0 h h') (fun _ _ => by rw [hselfs]) fun i hi u hu => ?_
  rcases hmain with hmain | hmain
  · exact ⟨(Nat.zero_le i).trans_lt hu |>.ne', I.fresh i (hmain ▸ hi) u hu⟩
  · exact absurd hi (hmain i)

/-- Thread `t` arrives at the barrier. -/
theorem Inv.arrive (I : Inv c s) {p : Phase} (hphase : s'.phase = Function.update s.phase t p)
    (hbarrier : s'.barrier = s.barrier.wait c.numProcs) (hborn : s.phase t ≠ .unborn)
    (hset : s.phase t ≠ .setSelf) (hcalls : p.calls = (s.phase t).calls + 1) (hcycle : (s.phase t).calls = s.barrier.cycle)
    (hpast : p.Past (s.barrier.wait c.numProcs)) (hselfs : s'.threadSelfs = s.threadSelfs)
    (hmain : s'.main = s.main) : Inv c s' := by
  have ht := I.born t hborn
  have hcard : (Finset.Icc 1 c.numProcs).card = c.numProcs := by rw [Nat.card_Icc, Nat.add_sub_cancel]
  refine ⟨fun u hu => ?_, fun hn => ?_, fun u => ?_, fun u hu hset' => ?_, fun i hi u hu => ?_⟩
  · rw [hphase] at hu
    rcases eq_or_ne u t with rfl | hne
    · exact ht
    · exact I.born u (by simpa [hne] using hu)
  · have heq : (fun u => (s'.phase u).calls) =
        Function.update (fun u => (s.phase u).calls) t ((s.phase t).calls + 1) := by
      funext u
      rw [hphase]
      rcases eq_or_ne u t with rfl | hne
      · simpa using hcalls
      · simp [hne]
    have hcounts := (I.counts hn).wait ht hcycle
    rw [hcard] at hcounts
    rw [heq, hbarrier]
    exact hcounts
  · rw [hphase, hbarrier]
    rcases eq_or_ne u t with rfl | hne
    · simpa using hpast
    · simpa [hne] using (I.past u).mono (Barrier.cycle_le_wait _ _)
  · rw [hphase] at hu hset'
    rw [hselfs]
    rcases eq_or_ne u t with rfl | hne
    · exact I.selfs u hborn hset
    · exact I.selfs u (by simpa [hne] using hu) (by simpa [hne] using hset')
  · obtain ⟨hne, hunborn⟩ := I.fresh_of hmain hborn i hi u hu
    rw [hphase, Function.update_of_ne hne, hunborn]

/-- Where a thread has arrived as often as cycles are complete, or once more. -/
theorem Inv.calls_eq (I : Inv c s) (ht : t ∈ Finset.Icc 1 c.numProcs) :
    (s.phase t).calls = s.barrier.cycle ∨ (s.phase t).calls = s.barrier.cycle + 1 := by
  refine (I.counts fun h => ?_).calls_eq t ht
  rw [h] at ht
  simp at ht

/-! ### Steps -/

theorem phase_update {th : Thread} (h : s'.thread = Function.update s.thread t th) :
    s'.phase = Function.update s.phase t th.phase := by
  funext u
  rw [State.phase, h]
  rcases eq_or_ne u t with rfl | hne
  · simp
  · simp [hne, State.phase]

theorem phase_same {th : Thread} (h : s'.thread = Function.update s.thread t th) (hphase : th.phase = s.phase t) :
    s'.phase = s.phase := by
  rw [phase_update h, hphase, Function.update_eq_self]

/-- What a move does. -/
inductive Step (c : Config) (s : State) : Move → State → Prop
  | create (i : ℕ) : s.main = .create i → i < c.numProcs →
      Step c s .main { s.goto (i + 1) .setSelf with main := .create (i + 1) }
  | main (p : MainPc) : (∀ i, p ≠ .create i) → Step c s .main { s with main := p }
  | setSelf (t : ℕ) : (s.thread t).frame = none → s.phase t = .setSelf →
      Step c s (.thread t) { s.goto t .sigaction with threadSelfs := Function.update s.threadSelfs t (some t) }
  | sigaction (t : ℕ) : (s.thread t).frame = none → s.phase t = .sigaction →
      Step c s (.thread t) { s.goto t .arrive with handler := true }
  | arrive (t : ℕ) : (s.thread t).frame = none → s.phase t = .arrive →
      Step c s (.thread t)
        { s.goto t (.inBarrier s.barrier.cycle) with barrier := s.barrier.wait c.numProcs }
  | pass (t cycle : ℕ) : (s.thread t).frame = none → s.phase t = .inBarrier cycle → s.barrier.Released cycle →
      Step c s (.thread t) (s.goto t .outer)
  | enter (t : ℕ) : (s.thread t).frame = none → s.phase t = .outer → (s.thread t).loop.i < c.maxLoop →
      Step c s (.thread t) (s.setThread t { s.thread t with phase := .inner, k := 0 })
  | leave (t : ℕ) : (s.thread t).frame = none → s.phase t = .outer → ¬ (s.thread t).loop.i < c.maxLoop →
      Step c s (.thread t) (s.goto t .arriveLast)
  | exit (t : ℕ) : (s.thread t).frame = none → s.phase t = .inner →
      (s.thread t).loop.pc = .head ∧ ¬ ((s.thread t).k < npersig c ∧ (s.thread t).loop.i < c.maxLoop) →
      Step c s (.thread t) (s.goto t .kill)
  | access (t : ℕ) (r : Loop.Thread × Memory) : (s.thread t).frame = none → s.phase t = .inner →
      ¬ ((s.thread t).loop.pc = .head ∧ ¬ ((s.thread t).k < npersig c ∧ (s.thread t).loop.i < c.maxLoop)) →
      (s.thread t).loop.step t ⟨s.sig, s.m⟩ = r →
      Step c s (.thread t)
        { s.setThread t { s.thread t with
            k := if r.1.i = (s.thread t).loop.i then (s.thread t).k else (s.thread t).k + 1
            loop := r.1 } with
          sig := r.2.sig
          m := r.2.m }
  | kill (t y : ℕ) : (s.thread t).frame = none → s.phase t = .kill → s.threadSelfs (s.target c t) = some y →
      Step c s (.thread t) (kill y (s.goto t .outer))
  | arriveLast (t : ℕ) : (s.thread t).frame = none → s.phase t = .arriveLast →
      Step c s (.thread t)
        { s.goto t (.inBarrierLast s.barrier.cycle) with barrier := s.barrier.wait c.numProcs }
  | passLast (t cycle : ℕ) : (s.thread t).frame = none → s.phase t = .inBarrierLast cycle →
      s.barrier.Released cycle → Step c s (.thread t) (s.goto t .returned)
  | handlerReturns (t : ℕ) (frame : Loop.Thread) : (s.thread t).frame = some frame → frame.Over 100 →
      Step c s (.thread t) (s.setThread t { s.thread t with frame := none })
  | handlerAccess (t : ℕ) (frame : Loop.Thread) (r : Loop.Thread × Memory) : (s.thread t).frame = some frame →
      ¬ frame.Over 100 → frame.step t ⟨s.sig2, s.m⟩ = r →
      Step c s (.thread t)
        { s.setThread t { s.thread t with frame := some r.1 } with sig2 := r.2.sig, m := r.2.m }
  | deliver (t : ℕ) : (s.thread t).frame = none → s.handler = true → s.phase t ≠ .unborn → s.phase t ≠ .returned →
      Step c s (.deliver t) (s.setThread t { s.thread t with frame := some ⟨0, .head⟩, pending := false })

theorem stepMain_cases (h : stepMain c s = some s') : Step c s .main s' := by
  unfold stepMain at h
  split at h
  case h_1 i hmain =>
    split at h
    · rename_i hi
      cases h
      exact .create i hmain hi
    · cases h
      exact .main _ nofun
  case h_2 i hmain =>
    split at h
    · obtain ⟨-, h⟩ := Option.ite_none_right_eq_some.mp h
      cases h
      exact .main _ nofun
    · cases h
      exact .main _ nofun
  case h_3 hmain =>
    cases h
    exact .main _ nofun
  case h_4 | h_5 =>
    split at h
    all_goals
      cases h
      exact .main _ nofun
  case h_6 => cases h

theorem stepBody_cases (hframe : (s.thread t).frame = none) (h : stepBody c t s = some s') :
    Step c s (.thread t) s' := by
  simp only [stepBody] at h
  split at h
  · cases h
  · cases h
  · rename_i hp
    cases h
    exact .setSelf t hframe hp
  · rename_i hp
    cases h
    exact .sigaction t hframe hp
  · rename_i hp
    cases h
    exact .arrive t hframe hp
  · rename_i cycle hp
    obtain ⟨hreleased, h⟩ := Option.ite_none_right_eq_some.mp h
    cases h
    exact .pass t cycle hframe hp hreleased
  · rename_i hp
    split at h
    · rename_i hi
      cases h
      exact .enter t hframe hp hi
    · rename_i hi
      cases h
      exact .leave t hframe hp hi
  · rename_i hp
    split at h
    · rename_i hexit
      cases h
      exact .exit t hframe hp hexit
    · rename_i hgoes
      cases h
      exact .access t _ hframe hp hgoes rfl
  · rename_i hp
    split at h
    · cases h
    · rename_i y hy
      cases h
      exact .kill t y hframe hp hy
  · rename_i hp
    cases h
    exact .arriveLast t hframe hp
  · rename_i cycle hp
    obtain ⟨hreleased, h⟩ := Option.ite_none_right_eq_some.mp h
    cases h
    exact .passLast t cycle hframe hp hreleased

theorem step_cases (h : step c a s = some s') : Step c s a s' := by
  cases a with
  | main => exact stepMain_cases h
  | thread t =>
    simp only [step, stepThread] at h
    split at h
    · rename_i frame hframe
      cases h
      unfold stepHandler
      split
      · rename_i hover
        exact .handlerReturns t frame hframe hover
      · rename_i hgoes
        exact .handlerAccess t frame _ hframe hgoes rfl
    · rename_i hframe
      exact stepBody_cases hframe h
  | deliver t =>
    obtain ⟨⟨-, hframe, hhandler, hborn, hreturned⟩, h⟩ := Option.ite_none_right_eq_some.mp h
    cases h
    exact .deliver t hframe hhandler hborn hreturned

theorem Inv.past_of (I : Inv c s) {p : Phase} (hp : s.phase t = p) : p.Past s.barrier := hp ▸ I.past t

theorem Inv.calls_of (I : Inv c s) {p : Phase} (hp : s.phase t = p) (hborn : p ≠ .unborn) :
    p.calls = s.barrier.cycle ∨ p.calls = s.barrier.cycle + 1 :=
  hp ▸ I.calls_eq (I.born t (ne_of_eq_of_ne hp hborn))

/-- A step of `ThreadBody` from phase `p` to `q`, other than an arrival. -/
theorem Inv.advance (I : Inv c s) {p q : Phase} (hphase : s'.phase = Function.update s.phase t q) (hp : s.phase t = p)
    (hborn : p ≠ .unborn) (hset : p ≠ .setSelf) (hbarrier : s'.barrier = s.barrier)
    (hselfs : s'.threadSelfs = s.threadSelfs) (hmain : s'.main = s.main) (hcalls : q.calls = p.calls)
    (hpast : q.Past s.barrier) : Inv c s' := by
  subst hp
  exact I.goto hphase hbarrier (fun _ => I.born t hborn) hcalls hpast
    (fun _ _ => by rw [hselfs]; exact I.selfs t hborn hset) (fun _ _ => by rw [hselfs]) (I.fresh_of hmain hborn)

theorem Inv.kill (I : Inv c s) (y : ℕ) : Inv c (kill y s) := by
  unfold Signal.kill
  split
  · exact I
  · exact I.same (phase_same rfl rfl) rfl rfl (.inl rfl)

theorem Inv.step (I : Inv c s) (h : step c a s = some s') : Inv c s' := by
  cases step_cases h with
  | create i hmain hi =>
    have hunborn := I.fresh i hmain (i + 1) (Nat.lt_succ_self i)
    have hmem : i + 1 ∈ Finset.Icc 1 c.numProcs := Finset.mem_Icc.mpr ⟨Nat.le_add_left 1 i, hi⟩
    refine I.goto (phase_update rfl) rfl (fun _ => hmem) (by rw [hunborn]; rfl) trivial (fun _ h => absurd rfl h)
      (fun _ _ => rfl) fun j hj u hu => ?_
    cases hj
    exact ⟨hu.ne', I.fresh i hmain u (Nat.lt_of_succ_lt hu)⟩
  | main p hp => exact I.same rfl rfl rfl (.inr hp)
  | setSelf t _ hp =>
    exact I.goto (phase_update rfl) rfl (fun _ => I.born t (by simp [hp])) (by rw [hp]; rfl) trivial (fun _ _ => by simp)
      (fun u hu => by simp [hu]) (I.fresh_of rfl (by simp [hp]))
  | sigaction t _ hp => exact I.advance (phase_update rfl) hp nofun nofun rfl rfl rfl rfl trivial
  | arrive t _ hp =>
    have hzero : s.barrier.cycle = 0 := by
      have hcalls := I.calls_of hp nofun
      simp only [Phase.calls] at hcalls
      omega
    exact I.arrive (phase_update rfl) rfl (by simp [hp]) (by simp [hp]) (by rw [hp]; rfl) (by rw [hp, hzero]; rfl) hzero
      rfl rfl
  | pass t cycle _ hp hreleased =>
    obtain rfl : cycle = 0 := I.past_of hp
    exact I.advance (phase_update rfl) hp nofun nofun rfl rfl rfl rfl (Nat.one_le_iff_ne_zero.mpr hreleased)
  | enter t _ hp _ | leave t _ hp _ | exit t _ hp _ =>
    have hpast := I.past_of hp
    exact I.advance (phase_update rfl) hp nofun nofun rfl rfl rfl rfl hpast
  | access t r _ hp => exact I.same (phase_same rfl rfl) rfl rfl (.inl rfl)
  | kill t y _ hp _ =>
    have hpast := I.past_of hp
    refine Inv.kill ?_ y
    exact I.advance (phase_update rfl) hp nofun nofun rfl rfl rfl rfl hpast
  | arriveLast t _ hp =>
    have hone : s.barrier.cycle = 1 := by
      have hcalls := I.calls_of hp nofun
      have hpast := I.past_of hp
      simp only [Phase.calls, Phase.Past] at hcalls hpast
      omega
    refine I.arrive (phase_update rfl) rfl (by simp [hp]) (by simp [hp]) (by rw [hp]; rfl) (by rw [hp, hone]; rfl)
      ⟨hone, ?_⟩ rfl rfl
    exact hone.ge.trans (Barrier.cycle_le_wait _ _)
  | passLast t cycle _ hp hreleased =>
    obtain ⟨rfl, hle⟩ := I.past_of hp
    exact I.advance (phase_update rfl) hp nofun nofun rfl rfl rfl rfl (lt_of_le_of_ne hle (Ne.symm hreleased))
  | handlerReturns | handlerAccess | deliver => exact I.same (phase_same rfl rfl) rfl rfl (.inl rfl)

theorem inv_of_reach (h : (machine c behind).Reachable s) : Inv c s :=
  h.invariant inv_start fun _ _ _ I _ hs => I.step hs

/-! ### Whom a thread signals -/

/-- When a thread is between the two barriers, every thread has passed the first and none is past the last. -/
theorem Inv.ready (I : Inv c s) (ht : s.phase t = .kill) {x : ℕ} (hx : x ∈ Finset.Icc 1 c.numProcs) : Ready s x := by
  have hpast := I.past t
  have hcalls := I.calls_eq (I.born t (by simp [ht]))
  rw [ht] at hpast hcalls
  simp only [Phase.Past, Phase.calls] at hpast hcalls
  have hone : s.barrier.cycle = 1 := by omega
  have hother := I.calls_eq hx
  rw [hone] at hother
  have hreturned : s.phase x ≠ .returned := by
    intro h
    have hpast := I.past x
    rw [h] at hpast
    simp only [Phase.Past] at hpast
    omega
  have hborn : s.phase x ≠ .unborn := fun h => by simp [h, Phase.calls] at hother
  have hset : s.phase x ≠ .setSelf := fun h => by simp [h, Phase.calls] at hother
  have hsigaction : s.phase x ≠ .sigaction := fun h => by simp [h, Phase.calls] at hother
  exact ⟨I.selfs x hborn hset, hborn, hset, hsigaction, hreturned⟩

/-- Whenever a thread calls `pthread_kill`, the thread that it signals has stored its handle and installed the handler,
    and has not returned. -/
theorem signals_only_ready (h : (machine c behind).Reachable s) (ht : (s.thread t).phase = .kill) :
    1 ≤ s.target c t ∧ s.target c t ≤ c.numProcs ∧ Ready s (s.target c t) := by
  have I := inv_of_reach h
  have hmem : t ∈ Finset.Icc 1 c.numProcs := I.born t fun h => by rw [State.phase, ht] at h; cases h
  have hpos : 0 < c.numProcs := by
    obtain ⟨h1, hn⟩ := Finset.mem_Icc.mp hmem
    exact h1.trans hn
  have htarget : s.target c t ∈ Finset.Icc 1 c.numProcs :=
    Finset.mem_Icc.mpr ⟨Nat.le_add_left 1 _, Nat.succ_le_of_lt (Nat.mod_lt _ hpos)⟩
  obtain ⟨h1, hn⟩ := Finset.mem_Icc.mp htarget
  exact ⟨h1, hn, I.ready ht htarget⟩

/-- Two threads, of which the first has mixed once. -/
theorem signals_only_ready_two : ∃ s, (s.thread 1).phase = .kill ∧ 1 ≤ s.target ⟨2, 1⟩ 1 ∧ s.target ⟨2, 1⟩ 1 ≤ 2 ∧
    Ready s (s.target ⟨2, 1⟩ 1) := by
  obtain ⟨s, hs, hp⟩ := exists_reachable (M := machine ⟨2, 1⟩ 0) (p := fun s => decide ((s.thread 1).phase = .kill))
    ([.main, .main] ++ List.replicate 3 (.thread 1) ++ List.replicate 3 (.thread 2) ++ List.replicate 8 (.thread 1))
    (by decide +kernel)
  have hkill := of_decide_eq_true hp
  exact ⟨s, hkill, signals_only_ready hs hkill⟩

/-! ### The handler is installed before any signal is sent -/

/-- Before the handler is installed, no thread has come further than its `sigaction`, and nobody is signalled. -/
def Unsignalled (s : State) : Prop :=
  ∀ t, (s.phase t = .unborn ∨ s.phase t = .setSelf ∨ s.phase t = .sigaction) ∧ (s.thread t).pending = false ∧
    (s.thread t).frame = none

theorem Unsignalled.goto (h : Unsignalled s) {p : Phase} (hp : p = .unborn ∨ p = .setSelf ∨ p = .sigaction)
    (hthread : s'.thread = Function.update s.thread t { s.thread t with phase := p }) : Unsignalled s' := by
  intro u
  rw [State.phase, hthread]
  rcases eq_or_ne u t with rfl | hne
  · simpa using ⟨hp, (h u).2⟩
  · simpa [hne, State.phase] using h u

theorem handler_step (hs : s.handler = true) (h : step c a s = some s') : s'.handler = true := by
  cases step_cases h with
  | sigaction => rfl
  | kill =>
    unfold kill
    split <;> exact hs
  | _ => exact hs

theorem Unsignalled.step (hs : Unsignalled s) (h : step c a s = some s') : s'.handler = true ∨ Unsignalled s' := by
  cases step_cases h with
  | create => exact .inr (hs.goto (.inr (.inl rfl)) rfl)
  | main => exact .inr hs
  | setSelf => exact .inr (hs.goto (.inr (.inr rfl)) rfl)
  | sigaction => exact .inl rfl
  | deliver t _ hhandler => exact .inl hhandler
  | handlerReturns t frame hframe | handlerAccess t frame _ hframe =>
    exact absurd ((hs t).2.2.symm.trans hframe) nofun
  | arrive t _ hp | pass t _ _ hp | enter t _ hp | leave t _ hp | exit t _ hp
  | access t _ _ hp | kill t _ _ hp | arriveLast t _ hp | passLast t _ _ hp =>
    have hphase := (hs t).1
    rw [hp] at hphase
    simp at hphase

/-- A signal that is pending never meets its default action. -/
theorem handler_of_pending (h : (machine c behind).Reachable s) (ht : (s.thread t).pending = true) :
    s.handler = true := by
  have hs : s.handler = true ∨ Unsignalled s := by
    refine h.invariant (I := fun s => s.handler = true ∨ Unsignalled s) (.inr fun _ => ⟨.inl rfl, rfl, rfl⟩)
      fun a s s' hs _ hstep => ?_
    rcases hs with hs | hs
    · exact .inl (handler_step hs hstep)
    · exact hs.step hstep
  refine hs.resolve_right fun hs => ?_
  rw [(hs t).2.1] at ht
  cases ht

end Racey.Signal
