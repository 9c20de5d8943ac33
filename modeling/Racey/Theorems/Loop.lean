import Racey.Loop
import Racey.Theorems.Basic

/-! The loops with every access to `sig` as a step of its own compute the same signatures as those of racey-basic whose
    accesses to `sig` go with the accesses to `m` next to them: entry `t` of `sig` is thread `t`'s alone. -/

namespace Racey.Loop
open Machine

variable {c : Config} {s s' : State} {t : ℕ} {x : Basic.State}

/-- The thread as one of racey-basic: between its two stores it is already in the next iteration. -/
def Thread.basic (th : Thread) : Basic.Thread :=
  match th.pc with
  | .head | .read1 _ => ⟨th.i, .read1⟩
  | .read2 num => ⟨th.i, .read2 num⟩
  | .write index2 num => ⟨th.i, .write index2 num⟩
  | .setSig _ => ⟨th.i + 1, .read1⟩

/-- The entry of `sig` as racey-basic has it, for a thread whose entry is `sig`. -/
def Thread.sig (th : Thread) (sig : ℕ) : ℕ :=
  match th.pc with
  | .setSig num => num
  | _ => sig

def State.basic (s : State) : Basic.State where
  thread t := (s.thread t).basic
  mem := ⟨fun t => (s.thread t).sig (s.mem.sig t), s.mem.m⟩

theorem basic_update {r : Thread × Memory} (hsig : ∀ u, u ≠ t → r.2.sig u = s.mem.sig u) :
    (s.update t r).basic = ⟨Function.update s.basic.thread t r.1.basic,
      ⟨Function.update s.basic.mem.sig t (r.1.sig (r.2.sig t)), r.2.m⟩⟩ := by
  have hthread : (s.update t r).basic.thread = Function.update s.basic.thread t r.1.basic := by
    funext u
    rcases eq_or_ne u t with rfl | hu
    · simp [State.basic, State.update]
    · simp [State.basic, State.update, hu]
  have hsigs : (s.update t r).basic.mem.sig = Function.update s.basic.mem.sig t (r.1.sig (r.2.sig t)) := by
    funext u
    rcases eq_or_ne u t with rfl | hu
    · simp [State.basic, State.update]
    · simp [State.basic, State.update, hu, hsig u hu]
  rw [← hthread, ← hsigs]
  rfl

theorem sig_step {u : ℕ} (hu : u ≠ t) (th : Thread) (mem : Memory) : (th.step t mem).2.sig u = mem.sig u := by
  unfold Thread.step
  split <;> simp [hu]

/-- A thread in an iteration is one that `main` creates, and knows its entry of `sig`. -/
structure Inside (c : Config) (s : State) : Prop where
  bound : ∀ t, (s.thread t).i ≤ c.maxLoop
  running : ∀ t, (s.thread t).pc ≠ .head → 1 ≤ t ∧ t ≤ c.numProcs ∧ (s.thread t).i < c.maxLoop
  num : ∀ t num, (s.thread t).pc = .read1 num → num = s.mem.sig t

theorem inside_start : Inside c start :=
  ⟨fun _ => Nat.zero_le _, fun _ h => absurd rfl h, fun _ _ h => by simp [start] at h⟩

theorem Inside.update (I : Inside c s) {r : Thread × Memory} (hsig : ∀ u, u ≠ t → r.2.sig u = s.mem.sig u)
    (h1 : 1 ≤ t) (hn : t ≤ c.numProcs) (hbound : r.1.i ≤ c.maxLoop) (hrunning : r.1.pc ≠ .head → r.1.i < c.maxLoop)
    (hnum : ∀ num, r.1.pc = .read1 num → num = r.2.sig t) : Inside c (s.update t r) := by
  refine ⟨fun u => ?_, fun u hu => ?_, fun u num hu => ?_⟩
  · rcases eq_or_ne u t with rfl | hne
    · simpa [State.update] using hbound
    · simpa [State.update, hne] using I.bound u
  · rcases eq_or_ne u t with rfl | hne
    · simp only [State.update, Function.update_self] at hu ⊢
      exact ⟨h1, hn, hrunning hu⟩
    · simp only [State.update, ne_eq, hne, not_false_eq_true, Function.update_of_ne] at hu ⊢
      exact I.running u hu
  · rcases eq_or_ne u t with rfl | hne
    · exact hnum num (by simpa [State.update] using hu)
    · have h := I.num u num (by simpa [State.update, hne] using hu)
      exact h.trans (hsig u hne).symm

/-- The steps that racey-basic does not have. -/
def Pc.Silent : Pc → Prop
  | .head | .setSig _ => True
  | _ => False

/-- A step is one of racey-basic, or a silent one. -/
theorem basic_step (I : Inside c s) (h : step c t s = some s') :
    Inside c s' ∧ ((s.thread t).pc.Silent → s'.basic = s.basic) ∧
      (¬ (s.thread t).pc.Silent → Basic.step c t s.basic = some s'.basic) := by
  obtain ⟨⟨h1, hn, hover⟩, h⟩ := Option.ite_none_right_eq_some.mp h
  cases h
  have hsig : ∀ u, u ≠ t → ((s.thread t).step t s.mem).2.sig u = s.mem.sig u := fun u hu => sig_step hu _ _
  have hthread : s.basic.thread t = (s.thread t).basic := rfl
  have hentry : s.basic.mem.sig t = (s.thread t).sig (s.mem.sig t) := rfl
  have hself := Function.update_eq_self t s.basic.thread
  have hsame := Function.update_eq_self t s.basic.mem.sig
  have hm : s.basic.mem.m = s.mem.m := rfl
  rw [basic_update hsig]
  cases hpc : (s.thread t).pc with
  | head =>
    have hi : (s.thread t).i < c.maxLoop := not_le.mp fun hle => hover ⟨hpc, hle⟩
    have hstep : (s.thread t).step t s.mem = (⟨(s.thread t).i, .read1 (s.mem.sig t)⟩, s.mem) := by
      simp only [Thread.step, hpc]
    rw [hstep] at hsig ⊢
    refine ⟨I.update hsig h1 hn hi.le (fun _ => hi) fun num h => (Pc.read1.inj h).symm, fun _ => ?_, absurd trivial⟩
    simp only [Thread.basic, Thread.sig, hpc] at hthread hentry ⊢
    rw [hthread] at hself
    rw [hentry] at hsame
    rw [hself, hsame]
    rfl
  | read1 num =>
    have hi := (I.running t (by simp [hpc])).2.2
    have hstep : (s.thread t).step t s.mem =
        (⟨(s.thread t).i, .read2 (mix num (unsigned (s.mem.m (num % maxElem))))⟩, s.mem) := by
      simp only [Thread.step, hpc]
    rw [hstep] at hsig ⊢
    refine ⟨I.update hsig h1 hn hi.le (fun _ => hi) (by simp), False.elim, fun _ => ?_⟩
    simp only [Thread.basic, Thread.sig, hpc] at hthread hentry ⊢
    rw [hentry] at hsame
    refine Basic.step_eq_some.mpr ⟨⟨h1, hn, by rw [hthread]; exact hi⟩, ?_⟩
    rw [hthread, hsame, I.num t num hpc]
    simp only [MixPc.count, MixPc.step, hentry, hm]
    rfl
  | read2 num =>
    have hi := (I.running t (by simp [hpc])).2.2
    have hstep : (s.thread t).step t s.mem = (⟨(s.thread t).i, .write (num % maxElem)
        (mix num (unsigned (s.mem.m (num % maxElem))))⟩, s.mem) := by
      simp only [Thread.step, hpc]
    rw [hstep] at hsig ⊢
    refine ⟨I.update hsig h1 hn hi.le (fun _ => hi) (by simp), False.elim, fun _ => ?_⟩
    simp only [Thread.basic, Thread.sig, hpc] at hthread hentry ⊢
    rw [hentry] at hsame
    refine Basic.step_eq_some.mpr ⟨⟨h1, hn, by rw [hthread]; exact hi⟩, ?_⟩
    rw [hthread, hsame]
    simp only [MixPc.count, MixPc.step, hm]
    rfl
  | write index2 num =>
    have hi := (I.running t (by simp [hpc])).2.2
    have hstep : (s.thread t).step t s.mem =
        (⟨(s.thread t).i, .setSig num⟩, { s.mem with m := Function.update s.mem.m index2 (signed num) }) := by
      simp only [Thread.step, hpc]
    rw [hstep] at hsig ⊢
    refine ⟨I.update hsig h1 hn hi.le (fun _ => hi) (by simp), False.elim, fun _ => ?_⟩
    simp only [Thread.basic, Thread.sig, hpc] at hthread ⊢
    refine Basic.step_eq_some.mpr ⟨⟨h1, hn, by rw [hthread]; exact hi⟩, ?_⟩
    rw [hthread]
    simp only [MixPc.count, MixPc.step, hm]
  | setSig num =>
    have hi := (I.running t (by simp [hpc])).2.2
    have hstep : (s.thread t).step t s.mem =
        (⟨(s.thread t).i + 1, .head⟩, { s.mem with sig := Function.update s.mem.sig t num }) := by
      simp only [Thread.step, hpc]
    rw [hstep] at hsig ⊢
    refine ⟨I.update hsig h1 hn hi (absurd rfl) (by simp), fun _ => ?_, absurd trivial⟩
    simp only [Thread.basic, Thread.sig, hpc, Function.update_self] at hthread hentry ⊢
    rw [hthread] at hself
    rw [hentry] at hsame
    rw [hself, hsame]
    rfl

theorem basic_of_reach (h : (machine c).Reachable s) :
    Inside c s ∧ (Basic.machine c Memory.init).Reachable s.basic := by
  refine h.invariant (I := fun s => Inside c s ∧ (Basic.machine c Memory.init).Reachable s.basic)
    ⟨inside_start, .init⟩ fun t s s' ⟨I, hs⟩ _ hstep => ?_
  obtain ⟨I', hsilent, hbasic⟩ := basic_step I hstep
  rcases em (s.thread t).pc.Silent with h | h
  · exact ⟨I', hsilent h ▸ hs⟩
  · exact ⟨I', hs.step t trivial (hbasic h)⟩

/-! ### Following racey-basic -/

/-- No thread is between the load of its entry of `sig` and that of `m[index1]`, or between its two stores. -/
def Settled (s : State) : Prop := ∀ t, (∀ num, (s.thread t).pc ≠ .read1 num) ∧ ∀ num, (s.thread t).pc ≠ .setSig num

theorem Settled.step (h : Settled s) (t : ℕ) (hother : ∀ u, u ≠ t → s'.thread u = s.thread u)
    (hread1 : ∀ num, (s'.thread t).pc ≠ .read1 num) (hset : ∀ num, (s'.thread t).pc ≠ .setSig num) : Settled s' := by
  intro u
  rcases eq_or_ne u t with rfl | hne
  · exact ⟨hread1, hset⟩
  · rw [hother u hne]
    exact h u

theorem step_of_not_over (h1 : 1 ≤ t) (hn : t ≤ c.numProcs) (hover : ¬ (s.thread t).Over c.maxLoop) :
    step c t s = some (s.update t ((s.thread t).step t s.mem)) := if_pos ⟨h1, hn, hover⟩

theorem update_other {u : ℕ} (hu : u ≠ t) (r : Thread × Memory) : (s.update t r).thread u = s.thread u := by
  simp [State.update, hu]

@[simp] theorem update_self (r : Thread × Memory) : (s.update t r).thread t = r.1 := by simp [State.update]

/-- A step of racey-basic is followed by the step, together with the load or the store of `sig` that belongs to it. -/
theorem follow_basic (hs : (machine c).Reachable s) (hsettled : Settled s) (h : Basic.step c t s.basic = some x) :
    ∃ s', (machine c).Reachable s' ∧ Settled s' ∧ s'.basic = x := by
  have I := (basic_of_reach hs).1
  obtain ⟨⟨h1, hn, hi⟩, -⟩ := Basic.step_eq_some.mp h
  cases hpc : (s.thread t).pc with
  | head =>
    have hi : (s.thread t).i < c.maxLoop := by simpa [State.basic, Thread.basic, hpc] using hi
    have hload := step_of_not_over (s := s) h1 hn fun h => (not_le.mpr hi) h.2
    obtain ⟨I', hsilent, -⟩ := basic_step I hload
    have hread := step_of_not_over (s := s.update t ((s.thread t).step t s.mem)) h1 hn
      (by simp [Thread.Over, Thread.step, hpc])
    have hbasic := (basic_step I' hread).2.2 (by simp [Thread.step, hpc, Pc.Silent])
    rw [hsilent (by simp [hpc, Pc.Silent]), h] at hbasic
    refine ⟨_, (hs.step t trivial hload).step t trivial hread, hsettled.step t (fun u hu => ?_) ?_ ?_,
      (Option.some.inj hbasic).symm⟩
    · rw [update_other hu, update_other hu]
    · simp [Thread.step, hpc]
    · simp [Thread.step, hpc]
  | read1 num => exact absurd hpc ((hsettled t).1 num)
  | read2 num =>
    have hread := step_of_not_over (s := s) h1 hn (by simp [Thread.Over, hpc])
    have hbasic := (basic_step I hread).2.2 (by simp [hpc, Pc.Silent])
    rw [h] at hbasic
    refine ⟨_, hs.step t trivial hread, hsettled.step t (fun u hu => update_other hu _) ?_ ?_,
      (Option.some.inj hbasic).symm⟩
    · simp [Thread.step, hpc]
    · simp [Thread.step, hpc]
  | write index2 num =>
    have hwrite := step_of_not_over (s := s) h1 hn (by simp [Thread.Over, hpc])
    obtain ⟨I', -, hbasic⟩ := basic_step I hwrite
    have hstore := step_of_not_over (s := s.update t ((s.thread t).step t s.mem)) h1 hn
      (by simp [Thread.Over, Thread.step, hpc])
    have hsilent := (basic_step I' hstore).2.1 (by simp [Thread.step, hpc, Pc.Silent])
    have hbasic := hbasic (by simp [hpc, Pc.Silent])
    rw [h] at hbasic
    refine ⟨_, (hs.step t trivial hwrite).step t trivial hstore, hsettled.step t (fun u hu => ?_) ?_ ?_,
      hsilent.trans (Option.some.inj hbasic).symm⟩
    · rw [update_other hu, update_other hu]
    · simp [Thread.step, hpc]
    · simp [Thread.step, hpc]
  | setSig num => exact absurd hpc ((hsettled t).2 num)

theorem exists_basic (h : (Basic.machine c Memory.init).Reachable x) :
    ∃ s, (machine c).Reachable s ∧ Settled s ∧ s.basic = x := by
  induction h with
  | init => exact ⟨start, .init, fun _ => ⟨fun _ => nofun, fun _ => nofun⟩, rfl⟩
  | step t _ _ hstep ih =>
    obtain ⟨s, hs, hsettled, rfl⟩ := ih
    exact follow_basic hs hsettled hstep

/-! ### How long the loops go on -/

/-- The accesses that a thread has before it. -/
def accessesLeft (n : ℕ) (th : Thread) : ℕ :=
  match th.pc with
  | .head => 5 * (n - th.i)
  | .read1 _ => 5 * (n - th.i - 1) + 4
  | .read2 _ => 5 * (n - th.i - 1) + 3
  | .write _ _ => 5 * (n - th.i - 1) + 2
  | .setSig _ => 5 * (n - th.i - 1) + 1

theorem accessesLeft_lt {n : ℕ} {th : Thread} (h : ¬ th.Over n) (t : ℕ) (mem : Memory) :
    accessesLeft n (th.step t mem).1 < accessesLeft n th := by
  obtain ⟨i, pc⟩ := th
  cases pc with
  | head =>
    have hi : i < n := not_le.mp fun hle => h ⟨rfl, hle⟩
    simp only [Thread.step, accessesLeft]
    omega
  | read1 num | read2 num | write index2 num | setSig num =>
    simp only [Thread.step, accessesLeft]
    omega

/-! ### The signatures -/

theorem Complete.sig (h : Complete c s) (I : Inside c s) : s.basic.mem.sig = s.mem.sig := by
  have hhead : ∀ t, (s.thread t).pc = .head := by
    intro t
    by_contra hne
    obtain ⟨h1, hn, -⟩ := I.running t hne
    exact hne (h t h1 hn).1
  funext t
  simp only [State.basic, Thread.sig, hhead t]

theorem outcomes_eq_basic (c : Config) : outcomes c = {v | ∃ x, (Basic.machine c Memory.init).Reachable x ∧
    Basic.Complete c x ∧ v = mixSig c.numProcs x.mem.sig} := by
  ext v
  constructor
  · rintro ⟨s, hs, hcomplete, rfl⟩
    obtain ⟨I, hbasic⟩ := basic_of_reach hs
    refine ⟨s.basic, hbasic, fun t h1 hn => ?_, by rw [hcomplete.sig I]⟩
    obtain ⟨hhead, hi⟩ := hcomplete t h1 hn
    simp only [State.basic, Thread.basic, hhead]
    exact le_antisymm (I.bound t) hi
  · rintro ⟨x, hx, hcomplete, rfl⟩
    obtain ⟨s, hs, hsettled, rfl⟩ := exists_basic hx
    have I := (basic_of_reach hs).1
    have hcomplete : Complete c s := by
      intro t h1 hn
      have hi := hcomplete t h1 hn
      cases hpc : (s.thread t).pc with
      | head => exact ⟨hpc, by simp only [State.basic, Thread.basic, hpc] at hi; exact hi.ge⟩
      | read1 num => exact absurd hpc ((hsettled t).1 num)
      | setSig num => exact absurd hpc ((hsettled t).2 num)
      | read2 num | write index2 num =>
        have hlt := (I.running t (by simp [hpc])).2.2
        simp only [State.basic, Thread.basic, hpc] at hi
        exact absurd hi hlt.ne
    exact ⟨s, hs, hcomplete, by rw [hcomplete.sig I]⟩

end Racey.Loop
