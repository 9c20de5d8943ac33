import Racey.Theorems.Signal

/-! The handlers of racey-signal are like further threads: a run leaves the arrays as some interleaving of independent
    mixers does, one for each thread and one for its handlers. -/

namespace Racey.Signal
open Machine

variable {c : Config} {behind : ℕ} {s s' : State} {o o' : ℕ → ℕ} {t : ℕ} {a : Mixers} {x : Mixer}

/-! ### Mixers without quotas -/

/-- The mixers, each of which goes on for ever. -/
def endless (behind : ℕ) : Machine Mixers Mixer := ⟨startMixers behind, fun x a => some (a.access x)⟩

/-- How many accesses a mixer has made. -/
def accesses (th : Loop.Thread) : ℕ :=
  5 * th.i + match th.pc with
    | .head => 0
    | .read1 _ => 1
    | .read2 _ => 2
    | .write _ _ => 3
    | .setSig _ => 4

theorem accesses_step (mem : Memory) (th : Loop.Thread) : accesses (th.step t mem).1 = accesses th + 1 := by
  obtain ⟨i, pc⟩ := th
  cases pc with
  | head | read1 num | read2 num | write index2 num => rfl
  | setSig num =>
    simp only [Loop.Thread.step, accesses]
    omega

theorem access_other {y : Mixer} (hy : y ≠ x) : (a.access x).thread y = a.thread y := by
  cases x <;> simp [Mixers.access, hy]

theorem accesses_access : accesses ((a.access x).thread x) = accesses (a.thread x) + 1 := by
  cases x with
  | main t => simp [Mixers.access, accesses_step]
  | handler t => simp [Mixers.access, accesses_step]

/-- Where no mixer has gone beyond its quota, it could not have been stopped before. -/
theorem reachable_of_endless {quota : Mixer → ℕ} (h : (endless behind).Reachable a)
    (hle : ∀ x, accesses (a.thread x) ≤ 5 * quota x) : (mixers quota behind).Reachable a := by
  induction h with
  | init => exact .init
  | step x _ _ hstep ih =>
    cases hstep
    rename_i a _
    have hx := hle x
    rw [accesses_access] at hx
    refine (ih fun y => ?_).step x trivial (if_neg ?_)
    · rcases eq_or_ne y x with rfl | hne
      · exact (Nat.le_succ _).trans hx
      · have hy := hle y
        rwa [access_other hne] at hy
    · rintro ⟨hhead, hi⟩
      rw [accesses, hhead] at hx
      omega

/-! ### A run as one of mixers -/

/-- What a mixer of handlers has done: those that have returned have made 100 iterations each. -/
def handlerThread (frame : Option Loop.Thread) (handled : ℕ) : Loop.Thread :=
  match frame with
  | none => ⟨100 * handled, .head⟩
  | some f => ⟨100 * (handled - 1) + f.i, f.pc⟩

def State.mixers (s : State) (o : ℕ → ℕ) : Mixers where
  thread
    | .main t => (s.thread t).loop
    | .handler t => handlerThread (s.thread t).frame (o t)
  sig := s.sig
  sig2 := s.sig2
  m := s.m

theorem step_shift (d : ℕ) (th : Loop.Thread) (mem : Memory) :
    Loop.Thread.step t mem ⟨d + th.i, th.pc⟩ = (⟨d + (th.step t mem).1.i, (th.step t mem).1.pc⟩, (th.step t mem).2) := by
  obtain ⟨i, pc⟩ := th
  cases pc <;> rfl

/-- What holds of a thread that has handled so many signals. -/
structure Thread.Ok (c : Config) (handled : ℕ) (th : Thread) : Prop where
  le : th.loop.i ≤ c.maxLoop
  head : th.phase ≠ .inner → th.loop.pc = .head
  lt : th.loop.pc ≠ .head → th.loop.i < c.maxLoop
  unborn : th.phase = .unborn → th.loop.i = 0 ∧ th.frame = none
  finished : th.phase = .arriveLast ∨ (∃ cycle, th.phase = .inBarrierLast cycle) ∨ th.phase = .returned → th.loop.i = c.maxLoop
  frame : ∀ f, th.frame = some f → 1 ≤ handled ∧ f.i ≤ 100 ∧ (f.pc ≠ .head → f.i < 100)
  returned : th.phase = .returned → th.frame = none

section Mixers
variable {th : Thread}

/-- A step that neither the loop nor the handlers of thread `t` take part in. -/
theorem mixers_same (hthread : s'.thread = Function.update s.thread t th) (hloop : th.loop = (s.thread t).loop)
    (hframe : handlerThread th.frame (o' t) = handlerThread (s.thread t).frame (o t)) (ho : ∀ u, u ≠ t → o' u = o u)
    (hsig : s'.sig = s.sig) (hsig2 : s'.sig2 = s.sig2) (hm : s'.m = s.m) : s'.mixers o' = s.mixers o := by
  have hthreads : (s'.mixers o').thread = (s.mixers o).thread := by
    funext x
    cases x with
    | main u =>
      simp only [State.mixers, hthread]
      rcases eq_or_ne u t with rfl | hne
      · rwa [Function.update_self]
      · rw [Function.update_of_ne hne]
    | handler u =>
      simp only [State.mixers, hthread]
      rcases eq_or_ne u t with rfl | hne
      · rwa [Function.update_self]
      · rw [Function.update_of_ne hne, ho u hne]
  exact Mixers.ext hthreads hsig hsig2 hm

/-- An access of the loop of thread `t`. -/
theorem mixers_loop {r : Loop.Thread × Memory} (hr : (s.thread t).loop.step t ⟨s.sig, s.m⟩ = r)
    (hthread : s'.thread = Function.update s.thread t th) (hloop : th.loop = r.1) (hframe : th.frame = (s.thread t).frame)
    (hsig : s'.sig = r.2.sig) (hsig2 : s'.sig2 = s.sig2) (hm : s'.m = r.2.m) :
    s'.mixers o = (s.mixers o).access (.main t) := by
  subst hr
  have hthreads : (s'.mixers o).thread = ((s.mixers o).access (.main t)).thread := by
    funext x
    rcases eq_or_ne x (.main t) with rfl | hne
    · simpa [State.mixers, Mixers.access, hthread] using hloop
    · rw [access_other hne]
      cases x with
      | main u =>
        have hu : u ≠ t := fun h => hne (h ▸ rfl)
        simp [State.mixers, hthread, hu]
      | handler u =>
        simp only [State.mixers, hthread]
        rcases eq_or_ne u t with rfl | hu
        · rw [Function.update_self, hframe]
        · rw [Function.update_of_ne hu]
  exact Mixers.ext hthreads hsig hsig2 hm

/-- An access of the handler that has interrupted thread `t`. -/
theorem mixers_handler {f : Loop.Thread} {r : Loop.Thread × Memory} (hf : (s.thread t).frame = some f)
    (hr : f.step t ⟨s.sig2, s.m⟩ = r) (hthread : s'.thread = Function.update s.thread t th)
    (hloop : th.loop = (s.thread t).loop) (hframe : th.frame = some r.1) (hsig : s'.sig = s.sig)
    (hsig2 : s'.sig2 = r.2.sig) (hm : s'.m = r.2.m) : s'.mixers o = (s.mixers o).access (.handler t) := by
  subst hr
  have hstep : ((s.mixers o).thread (.handler t)).step t ⟨s.sig2, s.m⟩ =
      (handlerThread th.frame (o t), (f.step t ⟨s.sig2, s.m⟩).2) := by
    simp only [State.mixers, hf, hframe, handlerThread]
    exact step_shift _ _ _
  have hthreads : (s'.mixers o).thread = ((s.mixers o).access (.handler t)).thread := by
    funext x
    rcases eq_or_ne x (.handler t) with rfl | hne
    · have haccess : ((s.mixers o).access (.handler t)).thread (.handler t) = handlerThread th.frame (o t) :=
        (Function.update_self _ _ _).trans (congrArg Prod.fst hstep)
      rw [haccess]
      simp [State.mixers, hthread]
    · rw [access_other hne]
      cases x with
      | main u =>
        simp only [State.mixers, hthread]
        rcases eq_or_ne u t with rfl | hu
        · rw [Function.update_self, hloop]
        · rw [Function.update_of_ne hu]
      | handler u =>
        have hu : u ≠ t := fun h => hne (h ▸ rfl)
        simp [State.mixers, hthread, hu]
  have hmem : ((s.mixers o).access (.handler t)).sig2 = (f.step t ⟨s.sig2, s.m⟩).2.sig ∧
      ((s.mixers o).access (.handler t)).m = (f.step t ⟨s.sig2, s.m⟩).2.m :=
    ⟨congrArg (fun r => r.2.sig) hstep, congrArg (fun r => r.2.m) hstep⟩
  exact Mixers.ext hthreads hsig (hsig2.trans hmem.1.symm) (hm.trans hmem.2.symm)

end Mixers

/-! ### Steps -/

/-- A thread goes to another phase. -/
theorem Thread.Ok.goto {n : ℕ} {th : Thread} (h : th.Ok c n) {p : Phase} (hunborn : p ≠ .unborn)
    (hhead : p ≠ .inner → th.loop.pc = .head)
    (hover : p = .arriveLast ∨ (∃ cycle, p = .inBarrierLast cycle) ∨ p = .returned → th.loop.i = c.maxLoop)
    (hreturned : p = .returned → th.frame = none) (k : ℕ) (pending : Bool) :
    Thread.Ok c n { th with phase := p, k := k, pending := pending } where
  le := h.le
  head := hhead
  lt := h.lt
  unborn hp := absurd hp hunborn
  finished := hover
  frame := h.frame
  returned := hreturned

theorem Thread.Ok.pending {n : ℕ} {th : Thread} (h : th.Ok c n) (pending : Bool) :
    Thread.Ok c n { th with pending := pending } :=
  ⟨h.le, h.head, h.lt, h.unborn, h.finished, h.frame, h.returned⟩

/-- The arrays are as the mixers have left them, and every thread is where its mixers are. -/
structure Sim (c : Config) (behind : ℕ) (s : State) (o : ℕ → ℕ) : Prop where
  reach : (endless behind).Reachable (s.mixers o)
  ok : ∀ t, (s.thread t).Ok c (o t)

theorem sim_start : Sim c behind (start behind) observer.start where
  reach := by
    have heq : (start behind).mixers observer.start = startMixers behind := by
      refine Mixers.ext ?_ rfl rfl rfl
      funext x
      cases x <;> rfl
    rw [heq]
    exact .init
  ok t := by
    refine ⟨Nat.zero_le _, fun _ => rfl, fun h => absurd rfl h, fun _ => ⟨rfl, rfl⟩, fun h => ?_, fun f h => ?_, fun _ => rfl⟩
    · simp [start] at h
    · simp [start] at h

section Steps
variable {th : Thread}

theorem ok_update (h : ∀ u, (s.thread u).Ok c (o u)) (hthread : s'.thread = Function.update s.thread t th)
    (hok : th.Ok c (o' t)) (ho : ∀ u, u ≠ t → o' u = o u) (u : ℕ) : (s'.thread u).Ok c (o' u) := by
  rw [hthread]
  rcases eq_or_ne u t with rfl | hne
  · rwa [Function.update_self]
  · rw [Function.update_of_ne hne, ho u hne]
    exact h u

/-- Thread `t` goes on without an access. -/
theorem Sim.quiet (S : Sim c behind s o) (hthread : s'.thread = Function.update s.thread t th) (hok : th.Ok c (o t))
    (hloop : th.loop = (s.thread t).loop) (hframe : th.frame = (s.thread t).frame) (hsig : s'.sig = s.sig)
    (hsig2 : s'.sig2 = s.sig2) (hm : s'.m = s.m) : Sim c behind s' o where
  reach := by
    rw [mixers_same hthread hloop (by rw [hframe]) (fun _ _ => rfl) hsig hsig2 hm]
    exact S.reach
  ok := ok_update S.ok hthread hok fun _ _ => rfl

theorem Sim.goto (S : Sim c behind s o) {p : Phase}
    (hthread : s'.thread = Function.update s.thread t { s.thread t with phase := p })
    (hunborn : p ≠ .unborn) (hhead : p ≠ .inner → (s.thread t).loop.pc = .head)
    (hover : p = .arriveLast ∨ (∃ cycle, p = .inBarrierLast cycle) ∨ p = .returned → (s.thread t).loop.i = c.maxLoop)
    (hreturned : p = .returned → (s.thread t).frame = none) (hsig : s'.sig = s.sig) (hsig2 : s'.sig2 = s.sig2)
    (hm : s'.m = s.m) : Sim c behind s' o :=
  S.quiet hthread ((S.ok t).goto hunborn hhead hover hreturned _ _) rfl rfl hsig hsig2 hm

/-- A step of `main` that creates no thread. -/
theorem Sim.same (S : Sim c behind s o) (hthread : s'.thread = s.thread) (hsig : s'.sig = s.sig)
    (hsig2 : s'.sig2 = s.sig2) (hm : s'.m = s.m) : Sim c behind s' o :=
  S.quiet (t := 0) (by rw [hthread, Function.update_eq_self]) (S.ok 0) rfl rfl hsig hsig2 hm

theorem Sim.kill (S : Sim c behind s o) (y : ℕ) : Sim c behind (kill y s) o := by
  unfold Signal.kill
  split
  · exact S
  · exact S.quiet rfl ((S.ok y).pending true) rfl rfl rfl rfl rfl

theorem Sim.deliver (S : Sim c behind s o) (hframe : (s.thread t).frame = none) (hborn : s.phase t ≠ .unborn)
    (hreturned : s.phase t ≠ .returned) :
    Sim c behind (s.setThread t { s.thread t with frame := some ⟨0, .head⟩, pending := false })
      (Function.update o t (o t + 1)) := by
  have ho : ∀ u, u ≠ t → Function.update o t (o t + 1) u = o u := fun u hu => Function.update_of_ne hu _ _
  have hhandled : Function.update o t (o t + 1) t = o t + 1 := Function.update_self _ _ _
  have heq : (s.setThread t { s.thread t with frame := some ⟨0, .head⟩, pending := false }).mixers
      (Function.update o t (o t + 1)) = s.mixers o :=
    mixers_same rfl rfl (by simp [handlerThread, hframe]) ho rfl rfl rfl
  refine ⟨heq ▸ S.reach, ok_update S.ok rfl ?_ ho⟩
  · obtain ⟨hle, hhead, hlt, -, hover, -, -⟩ := S.ok t
    refine ⟨hle, hhead, hlt, fun h => absurd h hborn, hover, fun f hf => ?_, fun h => absurd h hreturned⟩
    cases hf
    rw [hhandled]
    exact ⟨Nat.le_add_left 1 _, Nat.zero_le _, fun h => absurd rfl h⟩

theorem i_step (mem : Memory) (th : Loop.Thread) :
    ((th.step t mem).1.i = th.i ∧ (th.step t mem).1.pc ≠ .head) ∨
      ((th.step t mem).1.i = th.i + 1 ∧ (th.step t mem).1.pc = .head ∧ th.pc ≠ .head) := by
  obtain ⟨i, pc⟩ := th
  cases pc with
  | head | read1 num | read2 num | write index2 num => exact .inl ⟨rfl, by simp [Loop.Thread.step]⟩
  | setSig num => exact .inr ⟨rfl, rfl, by simp⟩

/-- After an access before which `n` iterations were not complete. -/
theorem le_of_access {n : ℕ} {mem : Memory} {th : Loop.Thread} {r : Loop.Thread × Memory} (hi : th.i < n)
    (hr : th.step t mem = r) : r.1.i ≤ n ∧ (r.1.pc ≠ .head → r.1.i < n) := by
  subst hr
  rcases i_step (t := t) mem th with ⟨heq, -⟩ | ⟨heq, hhead, -⟩
  · rw [heq]
    exact ⟨hi.le, fun _ => hi⟩
  · rw [heq]
    exact ⟨hi, fun h => absurd hhead h⟩

/-- A thread that a handler has interrupted has started and has not returned. -/
theorem Thread.Ok.running {n : ℕ} {th : Thread} (h : th.Ok c n) {f : Loop.Thread} (hf : th.frame = some f) :
    th.phase ≠ .unborn ∧ th.phase ≠ .returned :=
  ⟨fun hp => by simp [(h.unborn hp).2] at hf, fun hp => by simp [h.returned hp] at hf⟩

/-- The handler returns after its 100 iterations. -/
theorem Sim.handlerReturns (S : Sim c behind s o) {f : Loop.Thread} (hf : (s.thread t).frame = some f)
    (hover : f.Over 100) : Sim c behind (s.setThread t { s.thread t with frame := none }) o := by
  have hrunning := (S.ok t).running hf
  obtain ⟨hle, hhead, hlt, -, hfinished, hframe, -⟩ := S.ok t
  obtain ⟨hhandled, hf100, -⟩ := hframe f hf
  obtain ⟨hpc, hi⟩ := hover
  have hcount : handlerThread none (o t) = handlerThread (s.thread t).frame (o t) := by
    have hi100 : 100 * o t = 100 * (o t - 1) + f.i := by omega
    rw [hf]
    simp only [handlerThread, hpc, hi100]
  have heq : (s.setThread t { s.thread t with frame := none }).mixers o = s.mixers o :=
    mixers_same rfl rfl hcount (fun _ _ => rfl) rfl rfl rfl
  refine ⟨heq ▸ S.reach, ok_update S.ok rfl ?_ fun _ _ => rfl⟩
  exact ⟨hle, hhead, hlt, fun h => absurd h hrunning.1, hfinished, nofun, fun _ => rfl⟩

theorem Sim.handlerAccess (S : Sim c behind s o) {f : Loop.Thread} {r : Loop.Thread × Memory}
    (hf : (s.thread t).frame = some f) (hgoes : ¬ f.Over 100) (hr : f.step t ⟨s.sig2, s.m⟩ = r) :
    Sim c behind { s.setThread t { s.thread t with frame := some r.1 } with sig2 := r.2.sig, m := r.2.m } o := by
  have hrunning := (S.ok t).running hf
  obtain ⟨hle, hhead, hlt, -, hfinished, hframe, -⟩ := S.ok t
  obtain ⟨hhandled, -, hf_lt⟩ := hframe f hf
  have hi : f.i < 100 := by
    by_contra hge
    have hpc : f.pc = .head := by
      by_contra hne
      exact hge (hf_lt hne)
    exact hgoes ⟨hpc, not_lt.mp hge⟩
  have heq : State.mixers { s.setThread t { s.thread t with frame := some r.1 } with sig2 := r.2.sig, m := r.2.m } o =
      (s.mixers o).access (.handler t) := mixers_handler hf hr rfl rfl rfl rfl rfl rfl
  refine ⟨heq ▸ S.reach.step (.handler t) trivial rfl, ok_update S.ok rfl ?_ fun _ _ => rfl⟩
  refine ⟨hle, hhead, hlt, fun h => absurd h hrunning.1, hfinished, fun g hg => ?_, fun h => absurd h hrunning.2⟩
  cases hg
  exact ⟨hhandled, le_of_access hi hr⟩

theorem Sim.loopAccess (S : Sim c behind s o) {r : Loop.Thread × Memory} (hp : s.phase t = .inner) (k : ℕ)
    (hgoes : ¬ ((s.thread t).loop.pc = .head ∧ ¬ ((s.thread t).k < npersig c ∧ (s.thread t).loop.i < c.maxLoop)))
    (hr : (s.thread t).loop.step t ⟨s.sig, s.m⟩ = r) :
    Sim c behind { s.setThread t { s.thread t with k := k, loop := r.1 } with sig := r.2.sig, m := r.2.m } o := by
  have hi : (s.thread t).loop.i < c.maxLoop := by
    by_contra hge
    have hpc : (s.thread t).loop.pc = .head := by
      by_contra hne
      exact hge ((S.ok t).lt hne)
    exact hgoes ⟨hpc, fun h => hge h.2⟩
  have heq : State.mixers { s.setThread t { s.thread t with k := k, loop := r.1 } with sig := r.2.sig, m := r.2.m } o =
      (s.mixers o).access (.main t) := mixers_loop hr rfl rfl rfl rfl rfl rfl
  refine ⟨heq ▸ S.reach.step (.main t) trivial rfl, ok_update S.ok rfl ?_ fun _ _ => rfl⟩
  obtain ⟨-, -, -, -, -, hframes, -⟩ := S.ok t
  obtain ⟨hle, hlt⟩ := le_of_access hi hr
  change (s.thread t).phase = .inner at hp
  exact ⟨hle, fun h => absurd hp h, hlt, by simp [hp], by simp [hp], hframes, by simp [hp]⟩

theorem Sim.step (S : Sim c behind s o) (I : Inv c s) {a : Move} (h : step c a s = some s') :
    Sim c behind s' (observer.note a s o) := by
  have hhead {t : ℕ} {p : Phase} (hp : s.phase t = p) (hne : p ≠ .inner) : (s.thread t).loop.pc = .head :=
    (S.ok t).head (ne_of_eq_of_ne hp hne)
  cases step_cases h with
  | create i hmain hi =>
    have hunborn : s.phase (i + 1) = .unborn := I.fresh i hmain (i + 1) (Nat.lt_succ_self i)
    exact S.goto rfl nofun (fun _ => hhead hunborn nofun) (by simp) nofun rfl rfl rfl
  | main p hp => exact S.same rfl rfl rfl rfl
  | setSelf t _ hp | sigaction t _ hp | arrive t _ hp | pass t _ _ hp =>
    exact S.goto rfl nofun (fun _ => hhead hp nofun) (by simp) nofun rfl rfl rfl
  | enter t _ hp _ =>
    exact S.quiet rfl ((S.ok t).goto (by simp) (fun _ => hhead hp nofun) (by simp) (by simp) 0 _) rfl rfl rfl rfl rfl
  | leave t _ hp hi =>
    exact S.goto rfl nofun (fun _ => hhead hp nofun) (fun _ => le_antisymm (S.ok t).le (not_lt.mp hi)) nofun rfl rfl rfl
  | exit t _ hp hexit => exact S.goto rfl nofun (fun _ => hexit.1) (by simp) nofun rfl rfl rfl
  | access t r _ hp hgoes hr => exact S.loopAccess hp _ hgoes hr
  | kill t y _ hp _ =>
    refine Sim.kill ?_ y
    exact S.goto rfl nofun (fun _ => hhead hp nofun) (by simp) nofun rfl rfl rfl
  | arriveLast t _ hp =>
    exact S.goto rfl nofun (fun _ => hhead hp nofun) (fun _ => (S.ok t).finished (.inl hp)) nofun rfl rfl rfl
  | passLast t cycle hframe hp _ =>
    exact S.goto rfl nofun (fun _ => hhead hp nofun) (fun _ => (S.ok t).finished (.inr (.inl ⟨cycle, hp⟩)))
      (fun _ => hframe) rfl rfl rfl
  | handlerReturns t f hf hover => exact S.handlerReturns hf hover
  | handlerAccess t f r hf hgoes hr => exact S.handlerAccess hf hgoes hr
  | deliver t hframe _ hborn hreturned => exact S.deliver hframe hborn hreturned

end Steps

theorem sim_of_reach (h : ((machine c behind).watch observer).Reachable (s, o)) : Inv c s ∧ Sim c behind s o := by
  refine h.invariant (I := fun p => Inv c p.1 ∧ Sim c behind p.1 p.2) ⟨inv_start, sim_start⟩ fun a p q ⟨I, S⟩ _ hs => ?_
  obtain ⟨hstep, ho⟩ := watch_step_eq_some.mp hs
  rw [ho]
  exact ⟨I.step hstep, S.step I hstep⟩

/-! ### The results -/

theorem Sim.thread_eq (S : Sim c behind s o) (I : Inv c s)
    (hend : ∀ t, 1 ≤ t → t ≤ c.numProcs → (s.thread t).phase = .returned) (x : Mixer) :
    (s.mixers o).thread x = ⟨quota c o x, .head⟩ := by
  -- A thread that `main` does not create has done nothing.
  have hphase : ∀ t, ¬ (1 ≤ t ∧ t ≤ c.numProcs) → (s.thread t).phase = .unborn := by
    intro t ht
    by_contra hborn
    exact ht (Finset.mem_Icc.mp (I.born t hborn))
  cases x with
  | main t =>
    have hok := S.ok t
    show (s.thread t).loop = ⟨if 1 ≤ t ∧ t ≤ c.numProcs then c.maxLoop else 0, .head⟩
    split
    · rename_i ht
      have hp := hend t ht.1 ht.2
      rw [← hok.finished (.inr (.inr hp)), ← hok.head (by simp [hp])]
    · rename_i ht
      have hp := hphase t ht
      rw [← (hok.unborn hp).1, ← hok.head (by simp [hp])]
  | handler t =>
    have hframe : (s.thread t).frame = none := by
      rcases em (1 ≤ t ∧ t ≤ c.numProcs) with ht | ht
      · exact (S.ok t).returned (hend t ht.1 ht.2)
      · exact ((S.ok t).unborn (hphase t ht)).2
    simp only [State.mixers, hframe, handlerThread, quota]

/-- A handler leaves alone what the loops hold in `num`, `index1` and `index2`, and `sig`. -/
theorem handler_frame (hframe : (s.thread t).frame ≠ none) (h : step c (.thread t) s = some s') :
    s'.sig = s.sig ∧ ∀ u, (s'.thread u).loop = (s.thread u).loop := by
  simp only [step, stepThread] at h
  split at h
  · cases h
    have hloop : ∀ th u, th.loop = (s.thread t).loop → (Function.update s.thread t th u).loop = (s.thread u).loop := by
      intro th u hth
      rcases eq_or_ne u t with rfl | hne
      · rwa [Function.update_self]
      · rw [Function.update_of_ne hne]
    unfold stepHandler
    split
    · exact ⟨rfl, fun u => hloop _ u rfl⟩
    · exact ⟨rfl, fun u => hloop _ u rfl⟩
  · rename_i hnone
    exact absurd hnone hframe

/-- When all threads have returned, `sig`, `sig2` and `m` are as an interleaving of independent mixers leaves them, which
    share `m` alone: one for the loop of each thread, and one for the 100 iterations of each signal that it has handled.
    At all times a handler leaves alone what the loops hold in `num`, `index1` and `index2`, and `sig`. -/
theorem handlers_are_mixers (h : ((machine c behind).watch observer).Reachable (s, o)) :
    ((∀ t, 1 ≤ t → t ≤ c.numProcs → (s.thread t).phase = .returned) → ∃ a, (mixers (quota c o) behind).Reachable a ∧
      (∀ x, a.thread x = ⟨quota c o x, .head⟩) ∧ a.sig = s.sig ∧ a.sig2 = s.sig2 ∧ a.m = s.m) ∧
    ∀ t s', (s.thread t).frame ≠ none → step c (.thread t) s = some s' →
      s'.sig = s.sig ∧ ∀ u, (s'.thread u).loop = (s.thread u).loop := by
  obtain ⟨I, S⟩ := sim_of_reach h
  refine ⟨fun hend => ?_, fun t s' hframe hstep => handler_frame hframe hstep⟩
  have hthread := S.thread_eq I hend
  refine ⟨s.mixers o, reachable_of_endless S.reach fun x => ?_, hthread, rfl, rfl, rfl⟩
  rw [hthread x, accesses, Nat.add_zero]

/-- Two threads, one iteration each: thread 1 signals thread 2, which is interrupted between the second load of its iteration
    and the store. -/
def interrupted : List Move :=
  List.replicate 3 .main ++ List.replicate 3 (.thread 1) ++ List.replicate 3 (.thread 2) ++ List.replicate 2 (.thread 1) ++
    List.replicate 5 (.thread 2) ++ List.replicate 8 (.thread 1) ++ [.deliver 2] ++ List.replicate 507 (.thread 2) ++
    List.replicate 2 (.thread 1) ++ [.thread 2]

theorem handlers_are_mixers_two : ∃ (s : State) (o : ℕ → ℕ), o 2 = 1 ∧
    ∃ a, (mixers (quota ⟨2, 1⟩ o) 0).Reachable a ∧ (∀ x, a.thread x = ⟨quota ⟨2, 1⟩ o x, .head⟩) ∧ a.sig = s.sig ∧
      a.sig2 = s.sig2 ∧ a.m = s.m := by
  obtain ⟨⟨s, o⟩, hs, hp⟩ := exists_reachable (M := (machine ⟨2, 1⟩ 0).watch observer)
    (p := fun p => decide ((p.1.thread 1).phase = .returned ∧ (p.1.thread 2).phase = .returned ∧ p.2 2 = 1))
    interrupted (by decide +kernel)
  obtain ⟨h1, h2, hhandled⟩ := of_decide_eq_true hp
  refine ⟨s, o, hhandled, (handlers_are_mixers hs).1 fun t ht hn => ?_⟩
  obtain rfl | rfl : t = 1 ∨ t = 2 := by simp only at hn; omega
  · exact h1
  · exact h2

end Racey.Signal
