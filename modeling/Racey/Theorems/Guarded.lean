import Racey.Guarded
import Racey.Theorems.Mix

/-! racey-guarded refines the atomic machine, and is a function of the order in which its locks are acquired.

    The first critical section takes effect at the load of `m[index1]`, the second at the store to
    `m[index2]`. -/

namespace Racey.Guarded
open CellProgram

variable {c : Config} {mem : Memory} {s s' : State} {t u l : ℕ}

/-! ### Who holds which lock -/

/-- The lock whose critical section `pc` is in. -/
def Pc.holds : Pc → Option ℕ
  | .load1 index1 _ | .mix1 index1 _ _ | .unlockItem1 index1 _ => some (index1 % nlock)
  | .load2 index2 _ | .mix2 index2 _ _ | .store index2 _ _ | .unlockItem2 index2 _ => some (index2 % nlock)
  | _ => none

def State.holds (s : State) (t : ℕ) : Option ℕ := (s.thread t).pc.holds

/-- A lock is recorded as held by exactly the thread that is in its critical section. -/
def Held (locks holds : ℕ → Option ℕ) : Prop := ∀ t l, locks l = some t ↔ holds t = some l

namespace Held
variable {locks holds : ℕ → Option ℕ}

theorem exclusive (h : Held locks holds) (ht : holds t = some l) (hu : holds u = some l) : t = u := by
  rw [← h] at ht hu
  exact Option.some.inj (ht.symm.trans hu)

theorem acquire (h : Held locks holds) (hl : locks l = none) (ht : holds t = none) :
    Held (Function.update locks l (some t)) (Function.update holds t (some l)) := by
  intro u k
  by_cases hu : u = t <;> by_cases hk : k = l
  · subst hu hk
    simp
  · subst hu
    have := h u k
    simp_all [eq_comm]
  · subst hk
    have := h u k
    simp_all [eq_comm]
  · simp only [Function.update_of_ne hu, Function.update_of_ne hk]
    exact h u k

theorem release (h : Held locks holds) (ht : holds t = some l) :
    Held (Function.update locks l none) (Function.update holds t none) := by
  intro u k
  by_cases hu : u = t <;> by_cases hk : k = l
  · subst hu hk
    simp
  · subst hu
    have := h u k
    simp_all [eq_comm]
  · subst hk
    have hne : holds u ≠ some k := fun hh => hu (h.exclusive hh ht)
    simp [Function.update_of_ne hu, hne]
  · simp only [Function.update_of_ne hu, Function.update_of_ne hk]
    exact h u k

theorem same (h : Held locks holds) {o : Option ℕ} (ht : o = holds t) : Held locks (Function.update holds t o) := by
  rw [ht, Function.update_eq_self]
  exact h

end Held

theorem holds_update (th : Thread) {m : Memory} {ls : ℕ → Option ℕ} :
    State.holds ⟨Function.update s.thread t th, m, ls⟩ = Function.update s.holds t th.pc.holds := by
  funext u
  by_cases hu : u = t
  · subst hu
    simp [State.holds]
  · simp [State.holds, hu]

/-! ### The invariant -/

/-- The locals of a thread agree with its entry of `sig` and with the cell it has loaded. -/
def Pc.Fits (sig : ℕ) (m : ℕ → ℤ) : Pc → Prop
  | .load1 index1 num => num = sig ∧ index1 = num % maxElem
  | .load2 index2 num => index2 = num % maxElem
  | .mix2 index2 num value => index2 = num % maxElem ∧ value = m index2
  | .store index2 num result => index2 = num % maxElem ∧ result = mix num (unsigned (m index2))
  | _ => True

structure Inv (c : Config) (s : State) : Prop where
  running : ∀ t, (s.thread t).pc ≠ .lockItem1 → Running c t s
  held : Held s.locks s.holds
  fits : ∀ t, (s.thread t).pc.Fits (s.mem.sig t) s.mem.m

theorem lockItem_eq_some {index : ℕ} {locks locks' : ℕ → Option ℕ} : lockItem t index locks = some locks' ↔
    locks (index % nlock) = none ∧ locks' = Function.update locks (index % nlock) (some t) := by
  unfold lockItem
  split
  · rename_i h
    simp [h, eq_comm]
  · rename_i h
    simp [h]

/-- What the step of thread `t` from each place does. -/
inductive Step (s : State) (t : ℕ) : Pc → State → Prop
  | lockItem1 : s.locks (s.mem.sig t % maxElem % nlock) = none →
      Step s t .lockItem1
        { s.goto t (.load1 (s.mem.sig t % maxElem) (s.mem.sig t)) with
          locks := Function.update s.locks (s.mem.sig t % maxElem % nlock) (some t) }
  | load1 (index1 num : ℕ) : Step s t (.load1 index1 num) (s.goto t (.mix1 index1 num (s.mem.m index1)))
  | mix1 (index1 num : ℕ) (value : ℤ) :
      Step s t (.mix1 index1 num value) (s.goto t (.unlockItem1 index1 (mix num (unsigned value))))
  | unlockItem1 (index1 num : ℕ) :
      Step s t (.unlockItem1 index1 num) { s.goto t (.lockItem2 num) with locks := unlockItem index1 s.locks }
  | lockItem2 (num : ℕ) : s.locks (num % maxElem % nlock) = none →
      Step s t (.lockItem2 num)
        { s.goto t (.load2 (num % maxElem) num) with
          locks := Function.update s.locks (num % maxElem % nlock) (some t) }
  | load2 (index2 num : ℕ) : Step s t (.load2 index2 num) (s.goto t (.mix2 index2 num (s.mem.m index2)))
  | mix2 (index2 num : ℕ) (value : ℤ) :
      Step s t (.mix2 index2 num value) (s.goto t (.store index2 num (mix num (unsigned value))))
  | store (index2 num result : ℕ) :
      Step s t (.store index2 num result)
        { s.goto t (.unlockItem2 index2 result) with
          mem := { s.mem with m := Function.update s.mem.m index2 (signed result) } }
  | unlockItem2 (index2 result : ℕ) :
      Step s t (.unlockItem2 index2 result) { s.goto t (.setSig result) with locks := unlockItem index2 s.locks }
  | setSig (result : ℕ) :
      Step s t (.setSig result)
        { s with
          thread := Function.update s.thread t ⟨(s.thread t).i + 1, .lockItem1⟩
          mem := { s.mem with sig := Function.update s.mem.sig t result } }

theorem step_cases (hs : step c t s = some s') : Running c t s ∧ Step s t (s.thread t).pc s' := by
  unfold step at hs
  split at hs
  · rename_i hrun
    refine ⟨hrun, ?_⟩
    cases hpc : (s.thread t).pc <;> rw [hpc] at hs <;>
      simp only [Option.map_eq_some_iff, Option.some.injEq, lockItem_eq_some] at hs
    case lockItem1 =>
      obtain ⟨_, ⟨hfree, rfl⟩, rfl⟩ := hs
      exact .lockItem1 hfree
    case lockItem2 num =>
      obtain ⟨_, ⟨hfree, rfl⟩, rfl⟩ := hs
      exact .lockItem2 num hfree
    all_goals
      subst hs
      constructor
  · cases hs

/-- Whether a thread is in its loop is kept by a step that leaves its counter as it is. -/
theorem Running.update {th : Thread} {m : Memory} {ls : ℕ → Option ℕ} (h : Running c u s)
    (hi : u = t → th.i = (s.thread t).i) : Running c u ⟨Function.update s.thread t th, m, ls⟩ := by
  by_cases hu : u = t
  · subst hu
    exact ⟨h.1, h.2.1, by simpa [hi rfl] using h.2.2⟩
  · exact ⟨h.1, h.2.1, by simpa [hu] using h.2.2⟩

/-- A value loaded from a cell stays what the cell holds while the lock of the cell's class is held. -/
theorem Pc.Fits.update {pc : Pc} {sig index : ℕ} {m : ℕ → ℤ} {v : ℤ} (h : pc.Fits sig m)
    (hne : pc.holds ≠ some (index % nlock)) : pc.Fits sig (Function.update m index v) := by
  have key : ∀ i, i % nlock ≠ index % nlock → Function.update m index v i = m i :=
    fun i hi => Function.update_of_ne (fun heq => hi (by rw [heq])) _ _
  cases pc with
  | mix2 index2 num value =>
    refine ⟨h.1, ?_⟩
    rw [key index2 fun heq => hne (congrArg some heq)]
    exact h.2
  | store index2 num result =>
    refine ⟨h.1, ?_⟩
    rw [key index2 fun heq => hne (congrArg some heq)]
    exact h.2
  | _ => exact h

theorem inv_start : Inv c (start mem) where
  running := fun _ h => absurd rfl h
  held := fun _ _ => by simp [start, State.holds, Pc.holds]
  fits := fun _ => trivial

/-- The invariant after a step of `t` that leaves the cells and the other entries of `sig` as they are. -/
theorem Inv.update {th : Thread} {sig : ℕ → ℕ} {ls : ℕ → Option ℕ} (h : Inv c s) (hrun : Running c t s)
    (hi : th.pc = .lockItem1 ∨ th.i = (s.thread t).i) (hsig : ∀ u, u ≠ t → sig u = s.mem.sig u)
    (hheld : Held ls (Function.update s.holds t th.pc.holds)) (hfits : th.pc.Fits (sig t) s.mem.m) :
    Inv c ⟨Function.update s.thread t th, ⟨sig, s.mem.m⟩, ls⟩ where
  running := by
    intro u hu
    by_cases hut : u = t
    · subst hut
      simp only [Function.update_self] at hu
      exact hrun.update fun _ => hi.resolve_left hu
    · simp only [Function.update_of_ne hut] at hu
      exact (h.running u hu).update fun heq => absurd heq hut
  held := by rwa [holds_update]
  fits := by
    intro u
    by_cases hut : u = t
    · subst hut
      simpa only [Function.update_self] using hfits
    · simpa only [Function.update_of_ne hut, hsig u hut] using h.fits u

theorem Inv.step (h : Inv c s) (hs : step c t s = some s') : Inv c s' := by
  obtain ⟨hrun, hstep⟩ := step_cases hs
  have hfits := h.fits t
  have hholds : s.holds t = (s.thread t).pc.holds := rfl
  generalize (s.thread t).pc = pc at hstep hfits hholds
  cases hstep with
  | lockItem1 hfree => exact h.update hrun (.inr rfl) (fun _ _ => rfl) (h.held.acquire hfree hholds) ⟨rfl, rfl⟩
  | load1 | mix1 => exact h.update hrun (.inr rfl) (fun _ _ => rfl) (h.held.same hholds.symm) trivial
  | unlockItem1 | unlockItem2 => exact h.update hrun (.inr rfl) (fun _ _ => rfl) (h.held.release hholds) trivial
  | lockItem2 num hfree => exact h.update hrun (.inr rfl) (fun _ _ => rfl) (h.held.acquire hfree hholds) rfl
  | load2 => exact h.update hrun (.inr rfl) (fun _ _ => rfl) (h.held.same hholds.symm) ⟨hfits, rfl⟩
  | mix2 =>
    refine h.update hrun (.inr rfl) (fun _ _ => rfl) (h.held.same hholds.symm) ⟨hfits.1, ?_⟩
    rw [hfits.2]
  | store index2 num result =>
    have h' : Inv c (s.goto t (.unlockItem2 index2 result)) :=
      h.update hrun (.inr rfl) (fun _ _ => rfl) (h.held.same hholds.symm) trivial
    refine ⟨h'.running, h'.held, fun u => ?_⟩
    -- No other thread is in a critical section of the lock that `t` holds.
    by_cases hu : u = t
    · subst hu
      simp only [State.goto, Function.update_self]
      trivial
    · refine (h'.fits u).update fun heq => hu ?_
      refine h.held.exclusive (l := index2 % nlock) ?_ hholds
      simpa [State.holds, State.goto, hu] using heq
  | setSig =>
    exact h.update hrun (.inl rfl) (fun _ hu => Function.update_of_ne hu _ _) (h.held.same hholds.symm) trivial

/-- Every step leaves the cells as they are, except that a store puts `mix` of the thread's `num` and of what
    the cell holds then. -/
theorem step_m (h : Inv c s) (hs : step c t s = some s') : s'.mem.m = s.mem.m ∨
    ∃ index2 num result, (s.thread t).pc = .store index2 num result ∧
      s'.mem.m = Function.update s.mem.m index2 (signed (mix num (unsigned (s.mem.m index2)))) := by
  obtain ⟨-, hstep⟩ := step_cases hs
  have hfits := h.fits t
  generalize (s.thread t).pc = pc at hstep hfits ⊢
  cases hstep with
  | store index2 num result =>
    refine Or.inr ⟨index2, num, result, rfl, ?_⟩
    show Function.update s.mem.m index2 (signed result) = _
    rw [hfits.2]
  | _ => exact Or.inl rfl

theorem inv_run {as : List ℕ} (h : Inv c s) (hr : (machine c mem).run as s = some s') : Inv c s' := by
  induction as generalizing s with
  | nil =>
    cases hr
    exact h
  | cons a as ih =>
    obtain ⟨v, hs, hr⟩ := Machine.run_cons_eq_some.mp hr
    exact ih (h.step hs) hr

/-! ### Refinement -/

/-- What the second mix made, from the store until it is in `sig`. -/
def Pc.pending : Pc → Option ℕ
  | .unlockItem2 _ result | .setSig result => some result
  | _ => none

/-- Which critical section of which iteration a thread has not taken effect in yet. -/
def Thread.atomic (th : Thread) : Atomic.Thread :=
  match th.pc with
  | .lockItem1 | .load1 _ _ => ⟨th.i, .first⟩
  | .mix1 _ num value => ⟨th.i, .second (mix num (unsigned value))⟩
  | .unlockItem1 _ num | .lockItem2 num | .load2 _ num | .mix2 _ num _ | .store _ num _ => ⟨th.i, .second num⟩
  | .unlockItem2 _ _ | .setSig _ => ⟨th.i + 1, .first⟩

def State.atomic (s : State) : Atomic.State :=
  ⟨fun t => (s.thread t).atomic, ⟨fun t => (s.thread t).pc.pending.getD (s.mem.sig t), s.mem.m⟩⟩

@[simp] theorem atomic_m : s.atomic.mem.m = s.mem.m := rfl

def Pc.effect : Pc → Option ℕ
  | .load1 index1 _ => some (index1 % nlock)
  | .store index2 _ _ => some (index2 % nlock)
  | _ => none

/-- The step of the atomic machine that a step of thread `t` is answered by. -/
def effect (t : ℕ) (s : State) : Option ℕ := (s.thread t).pc.effect.map fun _ => t

theorem atomic_update {th : Thread} {sig : ℕ → ℕ} {m : ℕ → ℤ} {ls : ℕ → Option ℕ}
    (hsig : ∀ u, u ≠ t → sig u = s.mem.sig u) :
    State.atomic ⟨Function.update s.thread t th, ⟨sig, m⟩, ls⟩ =
      ⟨Function.update s.atomic.thread t th.atomic,
        ⟨Function.update s.atomic.mem.sig t (th.pc.pending.getD (sig t)), m⟩⟩ := by
  simp only [State.atomic, Atomic.State.mk.injEq, Memory.mk.injEq, and_true]
  constructor
  · funext u
    by_cases hu : u = t
    · subst hu
      simp
    · simp [hu]
  · funext u
    by_cases hu : u = t
    · subst hu
      simp
    · simp [hu, hsig u hu]

/-- A step that changes neither the atomic view of its thread nor the cells is not seen above. -/
theorem atomic_stutter {th : Thread} {sig : ℕ → ℕ} {ls : ℕ → Option ℕ} (hsig : ∀ u, u ≠ t → sig u = s.mem.sig u)
    (hth : th.atomic = (s.thread t).atomic)
    (hpend : th.pc.pending.getD (sig t) = (s.thread t).pc.pending.getD (s.mem.sig t)) :
    State.atomic ⟨Function.update s.thread t th, ⟨sig, s.mem.m⟩, ls⟩ = s.atomic := by
  rw [atomic_update hsig, hth, hpend]
  show Atomic.State.mk (Function.update s.atomic.thread t (s.atomic.thread t))
    ⟨Function.update s.atomic.mem.sig t (s.atomic.mem.sig t), s.mem.m⟩ = s.atomic
  rw [Function.update_eq_self, Function.update_eq_self]
  rfl

theorem atomic_running (hrun : Running c t s) (hi : (s.thread t).atomic.i = (s.thread t).i) :
    Atomic.Running c t s.atomic := ⟨hrun.1, hrun.2.1, by simpa only [State.atomic, hi] using hrun.2.2⟩

theorem Atomic.step_first {x : Atomic.State} {i : ℕ} (hrun : Running c t x) (hth : x.thread t = ⟨i, .first⟩) :
    Atomic.step c t x = some ⟨Function.update x.thread t
      ⟨i, .second (mix (x.mem.sig t) (unsigned (x.mem.m (x.mem.sig t % maxElem))))⟩, x.mem⟩ := by
  simp only [Atomic.step, if_pos hrun, hth]

theorem Atomic.step_second {x : Atomic.State} {i num : ℕ} (hrun : Running c t x)
    (hth : x.thread t = ⟨i, .second num⟩) : Atomic.step c t x = some ⟨Function.update x.thread t ⟨i + 1, .first⟩,
      ⟨Function.update x.mem.sig t (mix num (unsigned (x.mem.m (num % maxElem)))),
        Function.update x.mem.m (num % maxElem) (signed (mix num (unsigned (x.mem.m (num % maxElem)))))⟩⟩ := by
  simp only [Atomic.step, if_pos hrun, hth]

/-- A step is answered by the critical section that takes effect with it, or by nothing. -/
theorem atomic_step (h : Inv c s) (hs : step c t s = some s') :
    (Atomic.machine c mem).run (effect t s).toList s.atomic = some s'.atomic := by
  obtain ⟨hrun, hstep⟩ := step_cases hs
  have hfits := h.fits t
  generalize hpc : (s.thread t).pc = pc at hstep hfits
  cases hstep with
  | load1 index1 num =>
    obtain ⟨rfl, rfl⟩ := hfits
    have hth : s.atomic.thread t = ⟨(s.thread t).i, .first⟩ := by simp [State.atomic, Thread.atomic, hpc]
    have hsig : s.atomic.mem.sig t = s.mem.sig t := by simp [State.atomic, Pc.pending, hpc]
    have hself : Function.update s.atomic.mem.sig t (s.mem.sig t) = s.atomic.mem.sig := by
      rw [← hsig, Function.update_eq_self]
    rw [effect, hpc, State.goto, atomic_update fun _ _ => rfl]
    refine Machine.run_cons_eq_some.mpr ⟨_, Atomic.step_first (atomic_running hrun ?_) hth, ?_⟩
    · simp [Thread.atomic, hpc]
    · simp only [Machine.run_nil, hsig, atomic_m, Pc.pending, Option.getD_none, hself, Thread.atomic]
      rw [← atomic_m]
  | store index2 num result =>
    obtain ⟨rfl, hres⟩ := hfits
    have hth : s.atomic.thread t = ⟨(s.thread t).i, .second num⟩ := by simp [State.atomic, Thread.atomic, hpc]
    rw [effect, hpc, State.goto, atomic_update fun _ _ => rfl]
    refine Machine.run_cons_eq_some.mpr ⟨_, Atomic.step_second (atomic_running hrun ?_) hth, ?_⟩
    · simp [Thread.atomic, hpc]
    · rw [Machine.run_nil, atomic_m, ← hres]
      rfl
  | setSig =>
    rw [atomic_stutter (fun _ hu => Function.update_of_ne hu _ _) (by simp [Thread.atomic, hpc])
      (by simp [Pc.pending, hpc])]
    simp [effect, Pc.effect, hpc]
  | _ =>
    rw [State.goto, atomic_stutter (fun _ _ => rfl) (by simp [Thread.atomic, hpc]) (by simp [Pc.pending, hpc])]
    simp [effect, Pc.effect, hpc]

theorem atomic_run {as : List ℕ} (h : Inv c s) (hr : (machine c mem).run as s = some s') :
    (Atomic.machine c mem).run ((machine c mem).labels effect as s) s.atomic = some s'.atomic := by
  obtain ⟨_, hy, -, rfl⟩ := Machine.run_simulates (N := Atomic.machine c mem) (R := fun s x => Inv c s ∧ x = s.atomic)
    (fun t a b x hR hs => ⟨b.atomic, by rw [hR.2]; exact atomic_step hR.1 hs, hR.1.step hs, rfl⟩) ⟨h, rfl⟩ hr
  exact hy

/-- A thread that has left its loop, or was never created, is at the loop head. -/
theorem complete_pc (h : Inv c s) (hc : Complete c s) (t : ℕ) : (s.thread t).pc = .lockItem1 := by
  by_contra hpc
  obtain ⟨h1, hn, hi⟩ := h.running t hpc
  exact absurd (hc t h1 hn) (Nat.ne_of_lt hi)

theorem atomic_mem_of_complete (h : Inv c s) (hc : Complete c s) : s.atomic.mem = s.mem := by
  ext1
  · funext t
    simp [State.atomic, complete_pc h hc t, Pc.pending]
  · rfl

theorem atomic_complete (h : Inv c s) (hc : Complete c s) : Atomic.Complete c s.atomic := by
  intro t h1 hn
  simp only [State.atomic, Thread.atomic, complete_pc h hc t]
  exact hc t h1 hn

/-- A complete run of the fine-grained steps ends with the `sig` and `m` of a complete run of the atomic
    machine, and no update of a cell is lost on the way: a step leaves all cells as they are, or it is a store
    and replaces the value `v` of the cell by `mix(num, v)`, for the writing thread's `num`. -/
theorem refines_atomic {as : List ℕ} (hr : (machine c mem).run as (start mem) = some s) :
    (Complete c s → ∃ bs x, (Atomic.machine c mem).run bs (Atomic.start mem) = some x ∧ Atomic.Complete c x ∧
      x.mem.sig = s.mem.sig ∧ x.mem.m = s.mem.m) ∧
    ∀ t s', step c t s = some s' → s'.mem.m = s.mem.m ∨
      ∃ index2 num result, (s.thread t).pc = .store index2 num result ∧
        s'.mem.m = Function.update s.mem.m index2 (signed (mix num (unsigned (s.mem.m index2)))) := by
  have h := inv_run inv_start hr
  refine ⟨fun hc => ⟨_, s.atomic, atomic_run inv_start hr, atomic_complete h hc, ?_, ?_⟩, fun t s' hs => step_m h hs⟩
  · rw [atomic_mem_of_complete h hc]
  · rw [atomic_mem_of_complete h hc]

theorem complete_two (h1 : (s.thread 1).i = 1) (h2 : (s.thread 2).i = 1) : Complete ⟨2, 1⟩ s := by
  intro t ht htn
  obtain rfl | rfl : t = 1 ∨ t = 2 := by simp only at htn; omega
  · exact h1
  · exact h2

/-- Two threads, one iteration each, the first critical section of thread 2 within the first of thread 1. -/
theorem refines_atomic_nested :
    ∃ s, (machine ⟨2, 1⟩ Memory.init).run [1, 2, 2, 2, 2, 1, 1, 1, 1, 1, 1, 1, 1, 1, 2, 2, 2, 2, 2, 2]
        (start Memory.init) = some s ∧
      ∃ bs x, (Atomic.machine ⟨2, 1⟩ Memory.init).run bs (Atomic.start Memory.init) = some x ∧
        Atomic.Complete ⟨2, 1⟩ x ∧ x.mem.sig = s.mem.sig ∧ x.mem.m = s.mem.m := by
  have hrun : ∃ s, (machine ⟨2, 1⟩ Memory.init).run [1, 2, 2, 2, 2, 1, 1, 1, 1, 1, 1, 1, 1, 1, 2, 2, 2, 2, 2, 2]
      (start Memory.init) = some s ∧ (s.thread 1).i = 1 ∧ (s.thread 2).i = 1 := ⟨_, rfl, rfl, rfl⟩
  obtain ⟨s, hr, h1, h2⟩ := hrun
  exact ⟨s, hr, (refines_atomic hr).1 (complete_two h1 h2)⟩

/-! ### The order of lock acquisition -/

/-- The lock that `pc` has acquired for a critical section that has not taken effect yet. -/
def Pc.early : Pc → Bool
  | .load1 _ _ | .load2 _ _ | .mix2 _ _ _ | .store _ _ _ => true
  | _ => false

/-- The holder of lock `l`, as long as its critical section has not taken effect. -/
def State.early (s : State) (l : ℕ) : List ℕ := ((s.locks l).filter fun t => (s.thread t).pc.early).toList

section Early
variable {th : Thread} {m : Memory} {ls : ℕ → Option ℕ} {k : ℕ}

theorem early_of_free (hl : s.locks l = none) : s.early l = [] := by simp [State.early, hl]

theorem early_of_held (hl : s.locks l = some t) : s.early l = if (s.thread t).pc.early then [t] else [] := by
  simp only [State.early, hl, Option.filter_some]
  split <;> rfl

theorem early_update (hl : ls l = s.locks l) (ht : s.locks l = some t → th.pc.early = (s.thread t).pc.early) :
    State.early ⟨Function.update s.thread t th, m, ls⟩ l = s.early l := by
  cases hs : s.locks l with
  | none => rw [early_of_free hs, early_of_free (hl.trans hs)]
  | some u =>
    rw [early_of_held hs, early_of_held (hl.trans hs)]
    by_cases hu : u = t
    · subst hu
      simp only [Function.update_self, ht hs]
    · simp only [Function.update_of_ne hu]

theorem early_acquire (h : Held s.locks s.holds) (hh : s.holds t = none) (hfree : s.locks k = none)
    (hth : th.pc.early = true) :
    State.early ⟨Function.update s.thread t th, m, Function.update s.locks k (some t)⟩ l =
      s.early l ++ if k = l then [t] else [] := by
  by_cases hk : k = l
  · subst hk
    rw [early_of_free hfree, early_of_held (Function.update_self k (some t) s.locks)]
    simp [hth]
  · rw [early_update (Function.update_of_ne (Ne.symm hk) _ _) fun heq => ?_]
    · simp [hk]
    · rw [h, hh] at heq
      cases heq

theorem early_release (h : Held s.locks s.holds) (hh : s.holds t = some k)
    (hearly : (s.thread t).pc.early = false) :
    State.early ⟨Function.update s.thread t th, m, Function.update s.locks k none⟩ l = s.early l := by
  by_cases hk : k = l
  · subst hk
    rw [early_of_free (Function.update_self k none s.locks), early_of_held ((h t k).mpr hh)]
    simp [hearly]
  · refine early_update (Function.update_of_ne (Ne.symm hk) _ _) fun heq => ?_
    rw [h, hh] at heq
    exact absurd (Option.some.inj heq) hk

theorem early_effect (h : Held s.locks s.holds) (hh : s.holds t = some k)
    (hearly : (s.thread t).pc.early = true) (hth : th.pc.early = false) :
    s.early l = (if k = l then [t] else []) ++ State.early ⟨Function.update s.thread t th, m, s.locks⟩ l := by
  by_cases hk : k = l
  · subst hk
    have hl : s.locks k = some t := (h t k).mpr hh
    rw [early_of_held hl, early_of_held (s := ⟨Function.update s.thread t th, m, s.locks⟩) hl]
    simp [hearly, hth]
  · rw [early_update rfl fun heq => ?_]
    · simp [hk]
    · rw [h, hh] at heq
      exact absurd (Option.some.inj heq) hk

end Early

/-- The critical sections of a lock take effect in the order in which it is acquired: who holds it early before
    a step, then who acquires it, are who takes effect with it, then who holds it early afterwards. -/
theorem early_step (h : Inv c s) (hs : step c t s = some s') :
    s.early l ++ (if (s.thread t).pc.acquires (s.mem.sig t) = some l then [t] else []) =
      (if (s.thread t).pc.effect = some l then [t] else []) ++ s'.early l := by
  obtain ⟨-, hstep⟩ := step_cases hs
  have hholds : s.holds t = (s.thread t).pc.holds := rfl
  generalize hpc : (s.thread t).pc = pc at hstep hholds ⊢
  cases hstep with
  | lockItem1 hfree =>
    rw [State.goto, early_acquire h.held hholds hfree rfl]
    simp [Pc.acquires, Pc.effect]
  | lockItem2 num hfree =>
    rw [State.goto, early_acquire h.held hholds hfree rfl]
    simp [Pc.acquires, Pc.effect]
  | load1 index1 num =>
    have hearly : s.early l = _ ++ State.early (s.goto t (.mix1 index1 num (s.mem.m index1))) l :=
      early_effect h.held hholds (by rw [hpc]; rfl) rfl
    simpa [Pc.acquires, Pc.effect] using hearly
  | store index2 num result =>
    have hearly : s.early l = _ ++ State.early { s.goto t (.unlockItem2 index2 result) with
        mem := ⟨s.mem.sig, Function.update s.mem.m index2 (signed result)⟩ } l :=
      early_effect h.held hholds (by rw [hpc]; rfl) rfl
    simpa [Pc.acquires, Pc.effect] using hearly
  | unlockItem1 | unlockItem2 =>
    rw [State.goto, unlockItem, early_release h.held hholds (by rw [hpc]; rfl)]
    simp [Pc.acquires, Pc.effect]
  | setSig =>
    rw [early_update rfl fun _ => by rw [hpc]; rfl]
    simp [Pc.acquires, Pc.effect]
  | mix1 | load2 | mix2 =>
    rw [State.goto, early_update rfl fun _ => by rw [hpc]; rfl]
    simp [Pc.acquires, Pc.effect]

theorem Atomic.cells_step {x y : Atomic.State} (h : Atomic.step c t x = some y) :
    (program c).cell (x.cells.loc t) = some ((x.thread t).sec.index (x.mem.sig t)) ∧
      y.cells = (program c).after t ((x.thread t).sec.index (x.mem.sig t)) x.cells := by
  unfold Atomic.step at h
  split at h
  · rename_i hrun
    refine ⟨if_pos hrun, ?_⟩
    cases hth : (x.thread t).sec with
    | first =>
      rw [hth] at h
      cases h
      ext1
      · funext u
        by_cases hu : u = t
        · subst hu
          simp [State.cells, after, program, Section.index, hth]
        · simp [State.cells, after, hu]
      · simp [State.cells, after, program, hth]
    | second num =>
      rw [hth] at h
      cases h
      ext1
      · funext u
        by_cases hu : u = t
        · subst hu
          simp [State.cells, after, program, Section.index, hth]
        · simp [State.cells, after, hu]
      · simp [State.cells, after, program, Section.index, hth]
  · cases h

theorem Atomic.exec_of_run {x y : Atomic.State} {as : List ℕ} (h : (Atomic.machine c mem).run as x = some y) :
    (program c).Exec x.cells (trace c mem as x) y.cells :=
  CellProgram.exec_of_run (fun _ _ _ hs => cells_step hs) h

theorem Atomic.finished_of_complete {x : Atomic.State} (h : Atomic.Complete c x) : (program c).Finished x.cells := by
  intro t
  refine if_neg ?_
  rintro ⟨h1, hn, hi⟩
  have := h t h1 hn
  simp only [State.cells] at h1 hn hi
  omega

/-- The critical section that takes effect with a step uses a cell of the lock's class. -/
theorem order_effect (h : Inv c s) (hs : step c t s = some s') :
    order (· % nlock) l (Atomic.trace c mem (effect t s).toList s.atomic) =
      if (s.thread t).pc.effect = some l then [t] else [] := by
  have hfits := h.fits t
  have hrun : (Atomic.machine c mem).run _ _ = _ := atomic_step h hs
  cases hpc : (s.thread t).pc <;> rw [hpc] at hfits <;> simp only [effect, hpc, Pc.effect, Option.map_none,
    Option.map_some, Option.toList_none, Option.toList_some] at hrun ⊢
  case load1 index1 num =>
    obtain ⟨rfl, rfl⟩ := hfits
    obtain ⟨_, hx, -⟩ := Machine.run_cons_eq_some.mp hrun
    rw [Atomic.trace, CellProgram.steps, Machine.labels_cons hx]
    simp [Machine.labels, order, State.atomic, Thread.atomic, Atomic.Section.index, Pc.pending, hpc, List.filter_cons]
    split <;> rfl
  case store index2 num result =>
    obtain ⟨rfl, -⟩ := hfits
    obtain ⟨_, hx, -⟩ := Machine.run_cons_eq_some.mp hrun
    rw [Atomic.trace, CellProgram.steps, Machine.labels_cons hx]
    simp [Machine.labels, order, State.atomic, Thread.atomic, Atomic.Section.index, hpc, List.filter_cons]
    split <;> rfl
  all_goals rfl

/-- Over a whole run: who held lock `l` early, then who acquired it, are the threads whose critical sections
    of it took effect, then who holds it early at the end. -/
theorem early_run {as : List ℕ} (h : Inv c s) (hr : (machine c mem).run as s = some s') :
    s.early l ++ acquired c mem l as s =
      order (· % nlock) l (Atomic.trace c mem ((machine c mem).labels effect as s) s.atomic) ++ s'.early l := by
  induction as generalizing s with
  | nil =>
    cases hr
    simp [acquired, Machine.labels, Atomic.trace, CellProgram.steps, order]
  | cons t as ih =>
    obtain ⟨v, hs, hr⟩ := Machine.run_cons_eq_some.mp hr
    have hs' : step c t s = some v := hs
    have ih := ih (h.step hs') hr
    have hstep := early_step (l := l) h hs'
    have hord : order (· % nlock) l (Atomic.trace c mem _ _) = _ := order_effect h hs'
    rw [acquired, Machine.labels_cons hs, Machine.labels_cons hs, Atomic.trace, CellProgram.steps,
      Machine.labels_append (atomic_step h hs'), order_append]
    simp only [acquired, Atomic.trace, CellProgram.steps] at ih hord
    rw [hord, List.append_assoc, ← ih, ← List.append_assoc, ← List.append_assoc, ← hstep]
    congr 2
    split <;> rfl

theorem early_of_complete (h : Inv c s) (hc : Complete c s) : s.early l = [] := by
  refine early_of_free (Option.eq_none_iff_forall_ne_some.mpr fun t ht => ?_)
  rw [h.held, State.holds, complete_pc h hc t] at ht
  cases ht

theorem acquired_eq_nil {as : List ℕ} (hl : nlock ≤ l) : acquired c mem l as s = [] := by
  have hne : ∀ t (x : State), (x.thread t).pc.acquires (x.mem.sig t) ≠ some l := by
    intro t x
    have hlt : ∀ i, i % nlock ≠ l := fun i => Nat.ne_of_lt (Nat.lt_of_lt_of_le (Nat.mod_lt i (by decide)) hl)
    cases (x.thread t).pc <;> simp [Pc.acquires, hlt]
  induction as generalizing s with
  | nil => rfl
  | cons t as ih =>
    simp only [acquired, Machine.labels, if_neg (hne t s), Option.toList_none, List.nil_append] at ih ⊢
    cases (machine c mem).step t s with
    | none => rfl
    | some v => exact ih

/-- Two complete runs from the same memory in which each of the `NLOCK` locks is acquired by the same threads in
    the same order end with the same `sig`, the same `m` and the same signature. -/
theorem lock_order_determines {as bs : List ℕ} (h : (machine c mem).run as (start mem) = some s)
    (h' : (machine c mem).run bs (start mem) = some s') (hc : Complete c s) (hc' : Complete c s')
    (same : ∀ l < nlock, acquired c mem l as (start mem) = acquired c mem l bs (start mem)) :
    s.mem.sig = s'.mem.sig ∧ s.mem.m = s'.mem.m ∧
      mixSig c.numProcs s.mem.sig = mixSig c.numProcs s'.mem.sig := by
  have hI := inv_run inv_start h
  have hI' := inv_run inv_start h'
  have hmem : s.mem = s'.mem := by
    have horder : ∀ l, order (· % nlock) l (Atomic.trace c mem ((machine c mem).labels effect as (start mem))
        (start mem).atomic) = order (· % nlock) l (Atomic.trace c mem ((machine c mem).labels effect bs (start mem))
        (start mem).atomic) := by
      intro l
      have hr := early_run (l := l) inv_start h
      have hr' := early_run (l := l) inv_start h'
      rw [early_of_complete hI hc, List.append_nil] at hr
      rw [early_of_complete hI' hc', List.append_nil] at hr'
      rw [← hr, ← hr']
      by_cases hl : l < nlock
      · rw [same l hl]
      · rw [acquired_eq_nil (Nat.not_lt.mp hl), acquired_eq_nil (Nat.not_lt.mp hl)]
    have heq : s.atomic.cells = s'.atomic.cells := final_eq_of_order
      (Atomic.exec_of_run (atomic_run inv_start h)) (Atomic.exec_of_run (atomic_run inv_start h'))
      (Atomic.finished_of_complete (atomic_complete hI hc)) (Atomic.finished_of_complete (atomic_complete hI' hc'))
      horder
    rw [← atomic_mem_of_complete hI hc, ← atomic_mem_of_complete hI' hc']
    ext1
    · funext t
      exact congrArg (fun x => (x.loc t).sig) heq
    · exact congrArg CellProgram.State.mem heq
  rw [hmem]
  exact ⟨rfl, rfl, rfl⟩

/-- Thread 2 acquires its first lock before thread 1 does in one of the runs, and after thread 1 has returned
    in the other. -/
theorem lock_order_determines_interleaved :
    ∃ s s', (machine ⟨2, 1⟩ Memory.init).run (List.replicate 10 1 ++ List.replicate 10 2)
        (start Memory.init) = some s ∧
      (machine ⟨2, 1⟩ Memory.init).run ([2, 1] ++ List.replicate 9 1 ++ List.replicate 9 2)
        (start Memory.init) = some s' ∧
      s.mem.sig = s'.mem.sig ∧ s.mem.m = s'.mem.m ∧ mixSig 2 s.mem.sig = mixSig 2 s'.mem.sig := by
  have hrun : ∃ s, (machine ⟨2, 1⟩ Memory.init).run (List.replicate 10 1 ++ List.replicate 10 2)
      (start Memory.init) = some s ∧ (s.thread 1).i = 1 ∧ (s.thread 2).i = 1 := ⟨_, rfl, rfl, rfl⟩
  have hrun' : ∃ s, (machine ⟨2, 1⟩ Memory.init).run ([2, 1] ++ List.replicate 9 1 ++ List.replicate 9 2)
      (start Memory.init) = some s ∧ (s.thread 1).i = 1 ∧ (s.thread 2).i = 1 := ⟨_, rfl, rfl, rfl⟩
  obtain ⟨s, hr, h1, h2⟩ := hrun
  obtain ⟨s', hr', h1', h2'⟩ := hrun'
  exact ⟨s, s', hr, hr',
    lock_order_determines hr hr' (complete_two h1 h2) (complete_two h1' h2') (by decide +kernel)⟩

end Racey.Guarded
