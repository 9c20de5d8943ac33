import Mathlib.Order.Interval.Finset.Nat
import Racey.Start
import Racey.Theorems.Basic

/-! racey-basic, racey-nobarrier and racey-forkmmap can print the same signatures: those of the interleavings of the
    loops. -/

namespace Racey.Start
open Machine

theorem mixSig_succ {i : ℕ} (hi : 1 ≤ i) (sig : ℕ → ℕ) :
    mixSig (i + 1) sig = signed (mix (sig i) (unsigned (mixSig i sig))) := by
  obtain ⟨n, rfl⟩ := Nat.exists_eq_add_of_le hi
  rw [mixSig, show 1 + n + 1 - 1 = n + 1 by omega, List.range'_1_concat, List.foldl_concat, mixSig,
    Nat.add_sub_cancel_left]

section Threads
variable {μ : Type} {c : Config} {s s' : State μ} {t : ℕ}

/-! ### Steps of threads -/

/-- What a step of thread `t` can do. -/
structure ThreadStep (c : Config) (t : ℕ) (s s' : State μ) : Prop where
  main : s'.main = s.main
  alive : s.phase t ≠ .unborn ∧ s.phase t ≠ .returned ∧ s.phase t ≠ .reaped
  born : s'.phase t ≠ .unborn ∧ s'.phase t ≠ .reaped
  finished : s'.phase t = .returned → (s'.thread t).Over c.maxLoop
  loops : 1 ≤ t → t ≤ c.numProcs → s'.loops = s.loops ∨ Loop.step c t s.loops = some s'.loops
  other : ∀ u, u ≠ t → s'.phase u = s.phase u ∧ s'.thread u = s.thread u ∧ s'.mem.sig u = s.mem.sig u

theorem ThreadStep.setPhase {p : Phase} (halive : s.phase t ≠ .unborn ∧ s.phase t ≠ .returned ∧ s.phase t ≠ .reaped)
    (hborn : p ≠ .unborn ∧ p ≠ .reaped) (hover : p = .returned → (s.thread t).Over c.maxLoop) (startCounter : ℤ)
    (threadLock : Option ℕ) :
    ThreadStep c t s { s.setPhase t p with startCounter := startCounter, threadLock := threadLock } where
  main := rfl
  alive := halive
  born := by simpa [State.setPhase] using hborn
  finished h := hover (by simpa [State.setPhase] using h)
  loops _ _ := .inl rfl
  other u hu := ⟨by simp [State.setPhase, hu], rfl, rfl⟩

theorem threadStep_of_step (h : stepThread c t s = some s') : ThreadStep c t s s' := by
  unfold stepThread at h
  split at h
  case h_1 | h_2 | h_3 => cases h
  case h_4 hpc =>
    obtain ⟨-, h⟩ := Option.ite_none_right_eq_some.mp h
    cases h
    exact .setPhase (by simp [hpc]) (by simp) (by simp) _ _
  case h_5 | h_6 | h_7 | h_8 =>
    rename_i hpc
    cases h
    exact .setPhase (by simp [hpc]) (by simp) (by simp) _ _
  case h_9 hpc =>
    cases h
    split
    · exact .setPhase (by simp [hpc]) (by simp) (by simp) _ _
    · exact ⟨rfl, by simp [hpc], by simp [hpc], by simp [hpc], fun _ _ => .inl rfl, fun _ _ => ⟨rfl, rfl, rfl⟩⟩
  case h_10 hpc =>
    split at h
    · rename_i hover
      cases h
      exact .setPhase (by simp [hpc]) (by simp) (fun _ => hover) _ _
    · rename_i hover
      cases h
      refine ⟨rfl, by simp [hpc], by simp [hpc], by simp [hpc], fun h1 hn => .inr (if_pos ⟨h1, hn, hover⟩),
        fun u hu => ⟨rfl, by simp [hu], ?_⟩⟩
      unfold Loop.Thread.step
      split <;> simp [hu]

/-! ### What holds of all three programs -/

structure Inv (c : Config) (s : State μ) : Prop where
  born : ∀ t, s.phase t ≠ .unborn → 1 ≤ t ∧ t ≤ c.numProcs
  finished : ∀ t, s.phase t = .returned ∨ s.phase t = .reaped → (s.thread t).Over c.maxLoop
  loops : (Loop.machine c).Reachable s.loops

theorem inv_start (main : μ) : Inv c (start c main) where
  born _ h := absurd rfl h
  finished _ h := by simp [start] at h
  loops := .init

theorem Inv.thread (I : Inv c s) (h : ThreadStep c t s s') : Inv c s' := by
  obtain ⟨h1, hn⟩ := I.born t h.alive.1
  refine ⟨fun u hu => ?_, fun u hu => ?_, ?_⟩
  · rcases eq_or_ne u t with rfl | hne
    · exact ⟨h1, hn⟩
    · exact I.born u ((h.other u hne).1 ▸ hu)
  · rcases eq_or_ne u t with rfl | hne
    · exact h.finished (hu.resolve_right h.born.2)
    · obtain ⟨hphase, hthread, -⟩ := h.other u hne
      rw [hthread]
      exact I.finished u (hphase ▸ hu)
  · rcases h.loops h1 hn with heq | hstep
    · rw [heq]
      exact I.loops
    · exact I.loops.step t trivial hstep

/-- `main` creates a thread or a child, or waits for one. -/
theorem Inv.setPhase (I : Inv c s) {p : Phase} (h1 : 1 ≤ t) (hn : t ≤ c.numProcs)
    (hover : p = .returned ∨ p = .reaped → (s.thread t).Over c.maxLoop) (main : μ) :
    Inv c { s.setPhase t p with main := main } := by
  refine ⟨fun u hu => ?_, fun u hu => ?_, I.loops⟩
  · rcases eq_or_ne u t with rfl | hne
    · exact ⟨h1, hn⟩
    · exact I.born u (by simpa [State.setPhase, hne] using hu)
  · rcases eq_or_ne u t with rfl | hne
    · exact hover (by simpa [State.setPhase] using hu)
    · exact I.finished u (by simpa [State.setPhase, hne] using hu)

theorem Inv.goto (I : Inv c s) (main : μ) : Inv c { s with main := main } := ⟨I.born, I.finished, I.loops⟩

/-- All threads or children that `main` creates have ended. -/
def Ended (c : Config) (s : State μ) : Prop := ∀ t, 1 ≤ t → t ≤ c.numProcs → s.phase t = .returned ∨ s.phase t = .reaped

theorem Ended.complete (h : Ended c s) (I : Inv c s) : Loop.Complete c s.loops :=
  fun t h1 hn => I.finished t (h t h1 hn)

/-- No thread takes a step after all have ended. -/
theorem Ended.not_threadStep (h : Ended c s) (I : Inv c s) : ¬ ThreadStep c t s s' := by
  intro hs
  obtain ⟨h1, hn⟩ := I.born t hs.alive.1
  rcases h t h1 hn with h | h
  · exact hs.alive.2.1 h
  · exact hs.alive.2.2 h

/-- The result loop: `mix_sig` is the signature of the entries folded so far. -/
def Folded (c : Config) (s : State μ) (i : ℕ) (mix_sig : ℤ) : Prop :=
  1 ≤ i ∧ (i = 1 ∨ i ≤ c.numProcs) ∧ mix_sig = mixSig i s.mem.sig

theorem Folded.next {i : ℕ} {mix_sig : ℤ} (h : Folded c s i mix_sig) (hi : i < c.numProcs) (main : μ) :
    Folded c { s with main := main } (i + 1) (signed (mix (s.mem.sig i) (unsigned mix_sig))) := by
  obtain ⟨h1, -, rfl⟩ := h
  exact ⟨Nat.le_add_left 1 i, .inr hi, (mixSig_succ h1 s.mem.sig).symm⟩

theorem Folded.done {i : ℕ} {mix_sig : ℤ} (h : Folded c s i mix_sig) (hi : ¬ i < c.numProcs) :
    mix_sig = mixSig c.numProcs s.mem.sig := by
  obtain ⟨h1, hle, rfl⟩ := h
  rcases hle with rfl | hle
  · simp only [mixSig, Nat.sub_self, show c.numProcs - 1 = 0 by omega]
  · rw [show i = c.numProcs by omega]

end Threads

/-! ### What threads can print -/

section Join
variable {p : Program} {c : Config} {s s' : State MainPc} {t : ℕ}

/-- What `main` has waited for, and what it has computed. -/
def Joined (c : Config) (s : State MainPc) : Prop :=
  match s.main with
  | .create _ => True
  | .join i => ∀ t, 1 ≤ t → t ≤ i → s.phase t = .returned
  | .first => Ended c s
  | .result i mix_sig => Ended c s ∧ Folded c s i mix_sig
  | .printed mix_sig => Ended c s ∧ mix_sig = mixSig c.numProcs s.mem.sig

theorem Joined.thread (J : Joined c s) (I : Inv c s) (h : ThreadStep c t s s') : Joined c s' := by
  unfold Joined at J ⊢
  rw [h.main]
  cases hmain : s.main with
  | create i => trivial
  | join i =>
    rw [hmain] at J
    intro u h1 hu
    have hne : u ≠ t := fun heq => h.alive.2.1 (heq ▸ J u h1 hu)
    rw [(h.other u hne).1]
    exact J u h1 hu
  | first =>
    rw [hmain] at J
    exact absurd h (J.not_threadStep I)
  | result i mix_sig =>
    rw [hmain] at J
    exact absurd h (J.1.not_threadStep I)
  | printed mix_sig =>
    rw [hmain] at J
    exact absurd h (J.1.not_threadStep I)

theorem joined_main (J : Joined c s) (I : Inv c s) (h : stepMain p c s = some s') : Joined c s' ∧ Inv c s' := by
  unfold Joined at J
  unfold stepMain at h
  split at h
  case h_1 i hmain =>
    split at h
    · rename_i hi
      cases h
      have hentry : p.entry ≠ .returned ∧ p.entry ≠ .reaped := by cases p <;> simp [Program.entry]
      exact ⟨trivial, I.setPhase (Nat.le_add_left 1 i) hi (fun h => (h.elim hentry.1 hentry.2).elim) _⟩
    · cases h
      exact ⟨fun t h1 h0 => absurd h0 (by omega), I.goto _⟩
  case h_2 i hmain =>
    rw [hmain] at J
    split at h
    · split at h
      · rename_i hret
        cases h
        refine ⟨fun t h1 ht => ?_, I.goto _⟩
        rcases Nat.le_succ_iff.mp ht with ht | rfl
        · exact J t h1 ht
        · exact hret
      · cases h
    · rename_i hi
      cases h
      exact ⟨fun t h1 ht => .inl (J t h1 (ht.trans (not_lt.mp hi))), I.goto _⟩
  case h_3 hmain =>
    rw [hmain] at J
    cases h
    exact ⟨⟨J, le_rfl, .inl rfl, rfl⟩, I.goto _⟩
  case h_4 i mix_sig hmain =>
    rw [hmain] at J
    split at h
    · rename_i hi
      cases h
      exact ⟨⟨J.1, J.2.next hi _⟩, I.goto _⟩
    · rename_i hi
      cases h
      exact ⟨⟨J.1, J.2.done hi⟩, I.goto _⟩
  case h_5 => cases h

theorem joined_of_reach (h : (machine p c).Reachable s) : Joined c s ∧ Inv c s := by
  have hstart : Joined c (start c (.create 0)) := trivial
  refine h.invariant (I := fun s => Joined c s ∧ Inv c s) ⟨hstart, inv_start _⟩ fun a s s' ⟨J, I⟩ _ hs => ?_
  cases a with
  | main => exact joined_main J I hs
  | thread t =>
    have h := threadStep_of_step hs
    exact ⟨J.thread I h, I.thread h⟩

theorem outcomes_subset : outcomes p c ⊆ Loop.outcomes c := by
  rintro v ⟨s, hs, hprinted⟩
  obtain ⟨J, I⟩ := joined_of_reach hs
  rw [Joined, hprinted] at J
  exact ⟨s.loops, I.loops, J.1.complete I, J.2⟩

end Join

/-! ### Schedules -/

section Schedule
variable {μ α : Type} {c : Config} {s s' : State μ} {x : Loop.State} {a b : Phase} {k : ℕ}

/-- The threads have gone from phase `a` to phase `b` in turn, up to thread `k`. -/
def Phases (c : Config) (a b : Phase) (k : ℕ) (s : State μ) : Prop :=
  ∀ t, 1 ≤ t → t ≤ c.numProcs → s.phase t = if t ≤ k then b else a

theorem phases_zero (h : ∀ t, 1 ≤ t → t ≤ c.numProcs → s.phase t = a) : Phases c a b 0 s := by
  intro t h1 hn
  rw [if_neg (by omega)]
  exact h t h1 hn

theorem Phases.at_next (h : Phases c a b k s) (hk : k < c.numProcs) : s.phase (k + 1) = a := by
  rw [h (k + 1) (Nat.le_add_left 1 k) hk, if_neg (Nat.not_succ_le_self k)]

theorem Phases.next (h : Phases c a b k s) : Phases c a b (k + 1) (s.setPhase (k + 1) b) := by
  intro t h1 hn
  rcases eq_or_ne t (k + 1) with rfl | hne
  · simp [State.setPhase]
  · have hle : t ≤ k + 1 ↔ t ≤ k := by omega
    simp only [State.setPhase, ne_eq, hne, not_false_eq_true, Function.update_of_ne, hle]
    exact h t h1 hn

theorem Phases.done (h : Phases c a b c.numProcs s) : ∀ t, 1 ≤ t → t ≤ c.numProcs → s.phase t = b := by
  intro t h1 hn
  rw [h t h1 hn, if_pos hn]

variable {M : Machine (State μ) α} {move : ℕ → α}

/-- Where all threads are in their loops, they can follow any interleaving of the loops. -/
theorem exists_follow (hM : ∀ t s, M.step (move t) s = stepThread c t s) (h : M.Reachable s)
    (hloop : ∀ t, 1 ≤ t → t ≤ c.numProcs → s.phase t = .loop) (hstart : s.loops = Loop.start)
    (hx : (Loop.machine c).Reachable x) :
    ∃ s', M.Reachable s' ∧ s'.main = s.main ∧ (∀ t, 1 ≤ t → t ≤ c.numProcs → s'.phase t = .loop) ∧ s'.loops = x := by
  induction hx with
  | init => exact ⟨s, h, rfl, hloop, hstart⟩
  | step t _ _ hstep ih =>
    obtain ⟨u, hu, hmain, hloop, rfl⟩ := ih
    obtain ⟨⟨h1, hn, hover⟩, hstep⟩ := Option.ite_none_right_eq_some.mp hstep
    cases hstep
    let r := (u.thread t).step t u.mem
    refine ⟨{ u with thread := Function.update u.thread t r.1, mem := r.2 }, hu.step (move t) trivial ?_, hmain, hloop,
      rfl⟩
    rw [hM, stepThread, hloop t h1 hn]
    exact if_neg hover

/-- Where all loops are over, the threads can return. -/
theorem exists_returned (hM : ∀ t s, M.step (move t) s = stepThread c t s) (h : M.Reachable s)
    (hloop : ∀ t, 1 ≤ t → t ≤ c.numProcs → s.phase t = .loop) (hover : Loop.Complete c s.loops) :
    ∃ s', M.Reachable s' ∧ s'.main = s.main ∧ (∀ t, 1 ≤ t → t ≤ c.numProcs → s'.phase t = .returned) ∧
      s'.loops = s.loops := by
  obtain ⟨u, hu, hmain, hphases, hloops⟩ := h.exists_stage (n := c.numProcs)
    (I := fun k u => u.main = s.main ∧ Phases c .loop .returned k u ∧ u.loops = s.loops)
    ⟨rfl, phases_zero hloop, rfl⟩ fun k u hk ⟨hmain, hphases, hloops⟩ => by
      refine ⟨[move (k + 1)], u.setPhase (k + 1) .returned, ?_, hmain, hphases.next, hloops⟩
      have hnext : (u.thread (k + 1)).Over c.maxLoop := by
        have := hover (k + 1) (Nat.le_add_left 1 k) hk
        rwa [← hloops] at this
      rw [run_cons, hM, stepThread, hphases.at_next hk]
      exact congrArg (fun r => Option.bind r _) (if_pos hnext)
  exact ⟨u, hu, hmain, hphases.done, hloops⟩

/-- The result loop of `main`, which is the same in all three programs. -/
theorem exists_folded (result : ℕ → ℤ → μ) (printed : ℤ → μ) (a : α)
    (hM : ∀ s i mix_sig, s.main = result i mix_sig → M.step a s =
      if i < c.numProcs then some { s with main := result (i + 1) (signed (mix (s.mem.sig i) (unsigned mix_sig))) }
      else some { s with main := printed mix_sig })
    (h : M.Reachable s) (hmain : s.main = result 1 (signed (s.mem.sig 0))) :
    ∃ s', M.Reachable s' ∧ s'.main = printed (mixSig c.numProcs s.mem.sig) := by
  obtain ⟨u, hu, hmain, hmem⟩ := h.exists_stage (n := c.numProcs - 1)
    (I := fun k u => u.main = result (k + 1) (mixSig (k + 1) s.mem.sig) ∧ u.mem = s.mem) ⟨hmain, rfl⟩
    fun k u hk ⟨hmain, hmem⟩ => by
      refine ⟨[a], { u with main := result (k + 2) (mixSig (k + 2) s.mem.sig) }, ?_, rfl, hmem⟩
      rw [mixSig_succ (Nat.le_add_left 1 k), run_cons, hM u _ _ hmain, if_pos (by omega), hmem]
      rfl
  refine ⟨{ u with main := printed (mixSig c.numProcs s.mem.sig) }, hu.step a trivial ?_, rfl⟩
  rw [hM u _ _ hmain, if_neg (by omega), show mixSig (c.numProcs - 1 + 1) = mixSig c.numProcs from rfl]

end Schedule

section Schedule
variable {p : Program} {c : Config} {s : State MainPc} {x : Loop.State}

theorem exists_created (p : Program) (c : Config) : ∃ s, (machine p c).Reachable s ∧ s.main = .join 0 ∧
    (∀ t, 1 ≤ t → t ≤ c.numProcs → s.phase t = p.entry) ∧ s.loops = Loop.start ∧ s.startCounter = c.numProcs ∧
      s.threadLock = none := by
  obtain ⟨s, hs, hmain, hphases, hrest⟩ := (Reach.init (M := machine p c)).exists_stage (n := c.numProcs)
    (I := fun k s => s.main = .create k ∧ Phases c .unborn p.entry k s ∧ s.loops = Loop.start ∧
      s.startCounter = c.numProcs ∧ s.threadLock = none)
    ⟨rfl, phases_zero fun _ _ _ => rfl, rfl, rfl, rfl⟩ fun k s hk ⟨hmain, hphases, hrest⟩ => by
      refine ⟨[.main], { s.setPhase (k + 1) p.entry with main := .create (k + 1) }, ?_, rfl, hphases.next, hrest⟩
      simp [run_cons, machine, step, stepMain, hmain, hk]
  refine ⟨{ s with main := .join 0 }, hs.step .main trivial ?_, rfl, hphases.done, hrest⟩
  simp [machine, step, stepMain, hmain]

/-- One thread after the other decrements `startCounter`, and then all of them are through. -/
theorem exists_past_barrier (h : (machine .basic c).Reachable s) (hmain : s.main = .join 0)
    (hlock : ∀ t, 1 ≤ t → t ≤ c.numProcs → s.phase t = .lock) (hcounter : s.startCounter = c.numProcs)
    (hfree : s.threadLock = none) :
    ∃ s', (machine .basic c).Reachable s' ∧ s'.main = .join 0 ∧
      (∀ t, 1 ≤ t → t ≤ c.numProcs → s'.phase t = .loop) ∧ s'.loops = s.loops := by
  obtain ⟨u, hu, hmain, hphases, hloops, hcounter, -⟩ := h.exists_stage (n := c.numProcs)
    (I := fun k u => u.main = .join 0 ∧ Phases c .lock .spin k u ∧ u.loops = s.loops ∧
      u.startCounter = c.numProcs - k ∧ u.threadLock = none)
    ⟨hmain, phases_zero hlock, rfl, by simpa using hcounter, hfree⟩
    fun k u hk ⟨hmain, hphases, hloops, hcounter, hfree⟩ => by
      refine ⟨List.replicate 5 (.thread (k + 1)),
        { u.setPhase (k + 1) .spin with startCounter := u.startCounter - 1, threadLock := none }, ?_, hmain,
        hphases.next, hloops, by simp only [hcounter]; push_cast; ring, rfl⟩
      simp [List.replicate, run_cons, machine, step, stepThread, hphases.at_next hk, hfree, State.setPhase]
  obtain ⟨v, hv, hmain, hphases, hloops, -⟩ := hu.exists_stage (n := c.numProcs)
    (I := fun k v => v.main = .join 0 ∧ Phases c .spin .loop k v ∧ v.loops = s.loops ∧ v.startCounter = 0)
    ⟨hmain, phases_zero hphases.done, hloops, by rw [hcounter, sub_self]⟩
    fun k v hk ⟨hmain, hphases, hloops, hcounter⟩ => by
      refine ⟨[.thread (k + 1)], v.setPhase (k + 1) .loop, ?_, hmain, hphases.next, hloops, hcounter⟩
      simp [run_cons, machine, step, stepThread, hphases.at_next hk, hcounter]
  exact ⟨v, hv, hmain, hphases.done, hloops⟩

theorem exists_in_loops (p : Program) (c : Config) : ∃ s, (machine p c).Reachable s ∧ s.main = .join 0 ∧
    (∀ t, 1 ≤ t → t ≤ c.numProcs → s.phase t = .loop) ∧ s.loops = Loop.start := by
  obtain ⟨s, hs, hmain, hentry, hloops, hcounter, hfree⟩ := exists_created p c
  cases p with
  | nobarrier => exact ⟨s, hs, hmain, hentry, hloops⟩
  | basic =>
    obtain ⟨u, hu, hmain, hloop, heq⟩ := exists_past_barrier hs hmain hentry hcounter hfree
    exact ⟨u, hu, hmain, hloop, heq.trans hloops⟩

/-- `main` joins the threads, and folds and prints the signature. -/
theorem exists_printed (h : (machine p c).Reachable s) (hmain : s.main = .join 0)
    (hreturned : ∀ t, 1 ≤ t → t ≤ c.numProcs → s.phase t = .returned) :
    ∃ s', (machine p c).Reachable s' ∧ s'.main = .printed (mixSig c.numProcs s.mem.sig) := by
  obtain ⟨u, hu, hmain, -, hmem⟩ := h.exists_stage (n := c.numProcs)
    (I := fun k u => u.main = .join k ∧ u.phase = s.phase ∧ u.mem = s.mem) ⟨hmain, rfl, rfl⟩
    fun k u hk ⟨hmain, hphase, hmem⟩ => by
      refine ⟨[.main], { u with main := .join (k + 1) }, ?_, rfl, hphase, hmem⟩
      simp [run_cons, machine, step, stepMain, hmain, hk, hphase, hreturned (k + 1) (Nat.le_add_left 1 k) hk]
  have hfirst : (machine p c).run [.main, .main] u = some { u with main := .result 1 (signed (s.mem.sig 0)) } := by
    simp [run_cons, machine, step, stepMain, hmain, hmem]
  have hnext : ∀ v i mix_sig, v.main = .result i mix_sig → (machine p c).step .main v =
      if i < c.numProcs then some { v with main := .result (i + 1) (signed (mix (v.mem.sig i) (unsigned mix_sig))) }
      else some { v with main := .printed mix_sig } := fun v i mix_sig hv => by simp only [machine, step, stepMain, hv]
  obtain ⟨v, hv, hprinted⟩ := exists_folded MainPc.result MainPc.printed Move.main hnext (hu.run hfirst) (by rw [hmem])
  exact ⟨v, hv, by rw [hprinted, hmem]⟩

theorem subset_outcomes : Loop.outcomes c ⊆ outcomes p c := by
  rintro v ⟨x, hx, hcomplete, rfl⟩
  obtain ⟨s, hs, hmain, hloop, hstart⟩ := exists_in_loops p c
  have hM : ∀ t s, (machine p c).step (.thread t) s = stepThread c t s := fun _ _ => rfl
  obtain ⟨u, hu, hmain', hloop, rfl⟩ := exists_follow hM hs hloop hstart hx
  obtain ⟨w, hw, hmain'', hreturned, hloops⟩ := exists_returned hM hu hloop hcomplete
  obtain ⟨s', hs', hprinted⟩ := exists_printed hw (hmain''.trans (hmain'.trans hmain)) hreturned
  refine ⟨s', hs', ?_⟩
  rw [hprinted, show w.mem = u.mem from congrArg Loop.State.mem hloops]
  rfl

theorem outcomes_eq_loop (p : Program) (c : Config) : outcomes p c = Loop.outcomes c :=
  Set.Subset.antisymm outcomes_subset subset_outcomes

end Schedule

end Racey.Start

namespace Racey.Forkmmap
open Machine Start

variable {c : Config} {s s' : State MainPc} {t : ℕ}

/-! ### What processes can print -/

/-- The children that `main` has waited for. -/
def reaped (c : Config) (s : State MainPc) : Finset ℕ := {t ∈ Finset.Icc 1 c.numProcs | s.phase t = .reaped}

/-- How many children `main` has waited for, and what it has computed; `sig[0]` never changes. -/
def Waited (c : Config) (s : State MainPc) : Prop :=
  match s.main with
  | .fork i => 1 ≤ i ∧ ∀ t, s.phase t ≠ .reaped
  | .first => ∀ t, s.phase t ≠ .reaped
  | .wait i mix_sig => i ≤ c.numProcs ∧ (reaped c s).card = i ∧ mix_sig = signed (s.mem.sig 0)
  | .result i mix_sig => Ended c s ∧ Folded c s i mix_sig
  | .printed mix_sig => Ended c s ∧ mix_sig = mixSig c.numProcs s.mem.sig

theorem mem_reaped : t ∈ reaped c s ↔ (1 ≤ t ∧ t ≤ c.numProcs) ∧ s.phase t = .reaped := by
  rw [reaped, Finset.mem_filter, Finset.mem_Icc]

theorem reaped_eq_empty (h : ∀ t, s.phase t ≠ .reaped) : reaped c s = ∅ :=
  Finset.filter_eq_empty_iff.mpr fun t _ => h t

theorem ended_of_card (h : (reaped c s).card = c.numProcs) : Ended c s := by
  have hall : reaped c s = Finset.Icc 1 c.numProcs :=
    Finset.eq_of_subset_of_card_le (Finset.filter_subset _ _) (by rw [h, Nat.card_Icc, Nat.add_sub_cancel])
  intro t h1 hn
  have hmem : t ∈ reaped c s := hall ▸ Finset.mem_Icc.mpr ⟨h1, hn⟩
  exact .inr (mem_reaped.mp hmem).2

theorem card_reaped_succ (h1 : 1 ≤ t) (hn : t ≤ c.numProcs) (ht : s.phase t = .returned) (main : MainPc) :
    (reaped c { s.setPhase t .reaped with main := main }).card = (reaped c s).card + 1 := by
  have hinsert : reaped c { s.setPhase t .reaped with main := main } = insert t (reaped c s) := by
    ext u
    rcases eq_or_ne u t with rfl | hne
    · simp [mem_reaped, State.setPhase, h1, hn]
    · simp [mem_reaped, State.setPhase, hne]
  rw [hinsert, Finset.card_insert_of_notMem]
  simp [mem_reaped, ht]

theorem Waited.child (W : Waited c s) (I : Inv c s) (h : ThreadStep c t s s') : Waited c s' := by
  have hphase : ∀ u, s'.phase u = .reaped ↔ s.phase u = .reaped := by
    intro u
    rcases eq_or_ne u t with rfl | hne
    · simp [h.born.2, h.alive.2.2]
    · rw [(h.other u hne).1]
  have hsig : s'.mem.sig 0 = s.mem.sig 0 :=
    (h.other 0 (by have := (I.born t h.alive.1).1; omega)).2.2
  have hreaped : reaped c s' = reaped c s := Finset.filter_congr fun u _ => hphase u
  unfold Waited at W ⊢
  rw [h.main]
  cases hmain : s.main with
  | fork i =>
    rw [hmain] at W
    exact ⟨W.1, fun u hu => W.2 u ((hphase u).mp hu)⟩
  | first =>
    rw [hmain] at W
    exact fun u hu => W u ((hphase u).mp hu)
  | wait i mix_sig =>
    rw [hmain] at W
    exact ⟨W.1, hreaped ▸ W.2.1, hsig ▸ W.2.2⟩
  | result i mix_sig | printed mix_sig =>
    rw [hmain] at W
    exact absurd h (W.1.not_threadStep I)

theorem waited_main (W : Waited c s) (I : Inv c s) (h : stepMain c s = some s') : Waited c s' ∧ Inv c s' := by
  unfold Waited at W
  unfold stepMain at h
  split at h
  case h_1 i hmain =>
    rw [hmain] at W
    split at h
    · rename_i hi
      cases h
      refine ⟨⟨Nat.le_add_left 1 i, fun t ht => ?_⟩, I.setPhase W.1 hi (by simp) _⟩
      rcases eq_or_ne t i with rfl | hne
      · simp [State.setPhase] at ht
      · exact W.2 t (by simpa [State.setPhase, hne] using ht)
    · cases h
      exact ⟨W.2, I.goto _⟩
  case h_2 hmain =>
    rw [hmain] at W
    cases h
    refine ⟨⟨Nat.zero_le _, ?_, rfl⟩, I.goto _⟩
    exact Finset.card_eq_zero.mpr (reaped_eq_empty W)
  case h_3 i mix_sig hmain =>
    rw [hmain] at W
    obtain ⟨hle, hcard, rfl⟩ := W
    obtain ⟨hi, h⟩ := Option.ite_none_left_eq_some.mp h
    cases h
    exact ⟨⟨ended_of_card (hcard.trans (le_antisymm hle (not_lt.mp hi))), le_rfl, .inl rfl, rfl⟩, I.goto _⟩
  case h_4 i mix_sig hmain =>
    rw [hmain] at W
    split at h
    · rename_i hi
      cases h
      exact ⟨⟨W.1, W.2.next hi _⟩, I.goto _⟩
    · rename_i hi
      cases h
      exact ⟨⟨W.1, W.2.done hi⟩, I.goto _⟩
  case h_5 => cases h

theorem Waited.wait (W : Waited c s) (I : Inv c s) (h : stepWait c t s = some s') : Waited c s' ∧ Inv c s' := by
  unfold Waited at W
  unfold stepWait at h
  split at h
  · rename_i i mix_sig hmain
    rw [hmain] at W
    obtain ⟨⟨hi, ht⟩, h⟩ := Option.ite_none_right_eq_some.mp h
    cases h
    obtain ⟨h1, hn⟩ := I.born t (by simp [ht])
    refine ⟨⟨hi, ?_, W.2.2⟩, I.setPhase h1 hn (fun _ => I.finished t (.inl ht)) _⟩
    rw [card_reaped_succ h1 hn ht, W.2.1]
  · cases h

theorem waited_of_reach (h : (machine c).Reachable s) : Waited c s ∧ Inv c s := by
  have hstart : Waited c (start c (.fork 1)) := ⟨le_rfl, by simp [start]⟩
  refine h.invariant (I := fun s => Waited c s ∧ Inv c s) ⟨hstart, inv_start _⟩ fun a s s' ⟨W, I⟩ _ hs => ?_
  cases a with
  | main => exact waited_main W I hs
  | wait t => exact W.wait I hs
  | child t =>
    have h := threadStep_of_step hs
    exact ⟨W.child I h, I.thread h⟩

theorem outcomes_subset : outcomes c ⊆ Loop.outcomes c := by
  rintro v ⟨s, hs, hprinted⟩
  obtain ⟨W, I⟩ := waited_of_reach hs
  rw [Waited, hprinted] at W
  exact ⟨s.loops, I.loops, W.1.complete I, W.2⟩

/-! ### Schedules -/

/-- All children are forked, and `main` reads `sig[0]` before they take a step. -/
theorem exists_in_loops (c : Config) : ∃ s mix_sig, (machine c).Reachable s ∧ s.main = .wait 0 mix_sig ∧
    (∀ t, 1 ≤ t → t ≤ c.numProcs → s.phase t = .loop) ∧ s.loops = Loop.start := by
  obtain ⟨s, hs, hmain, hphases, hloops⟩ := (Reach.init (M := machine c)).exists_stage (n := c.numProcs)
    (I := fun k s => s.main = .fork (k + 1) ∧ Phases c .unborn .loop k s ∧ s.loops = Loop.start)
    ⟨rfl, phases_zero fun _ _ _ => rfl, rfl⟩ fun k s hk ⟨hmain, hphases, hloops⟩ => by
      refine ⟨[.main], { s.setPhase (k + 1) .loop with main := .fork (k + 2) }, ?_, rfl, hphases.next, hloops⟩
      simp [run_cons, machine, step, stepMain, hmain, Nat.succ_le_of_lt hk]
  have hfirst : (machine c).run [.main, .main] s = some { s with main := .wait 0 (signed (s.mem.sig 0)) } := by
    simp [run_cons, machine, step, stepMain, hmain]
  exact ⟨_, _, hs.run hfirst, rfl, hphases.done, hloops⟩

/-- `main` waits for the children one after the other, and folds and prints the signature. -/
theorem exists_printed {mix_sig : ℤ} (h : (machine c).Reachable s) (hmain : s.main = .wait 0 mix_sig)
    (hreturned : ∀ t, 1 ≤ t → t ≤ c.numProcs → s.phase t = .returned) :
    ∃ s', (machine c).Reachable s' ∧ s'.main = .printed (mixSig c.numProcs s.mem.sig) := by
  have hmix : mix_sig = signed (s.mem.sig 0) := by
    have W := (waited_of_reach h).1
    rw [Waited, hmain] at W
    exact W.2.2
  obtain ⟨u, hu, hmain, -, hmem⟩ := h.exists_stage (n := c.numProcs)
    (I := fun k u => u.main = .wait k mix_sig ∧ Phases c .returned .reaped k u ∧ u.mem = s.mem)
    ⟨hmain, phases_zero hreturned, rfl⟩ fun k u hk ⟨hmain, hphases, hmem⟩ => by
      refine ⟨[.wait (k + 1)], { u.setPhase (k + 1) .reaped with main := .wait (k + 1) mix_sig }, ?_, rfl,
        hphases.next, hmem⟩
      simp [run_cons, machine, step, stepWait, hmain, hk, hphases.at_next hk]
  have hlast : (machine c).step .main u = some { u with main := .result 1 mix_sig } := by
    simp [machine, step, stepMain, hmain]
  have hnext : ∀ v i mix_sig, v.main = .result i mix_sig → (machine c).step .main v =
      if i < c.numProcs then some { v with main := .result (i + 1) (signed (mix (v.mem.sig i) (unsigned mix_sig))) }
      else some { v with main := .printed mix_sig } := fun v i mix_sig hv => by simp only [machine, step, stepMain, hv]
  obtain ⟨v, hv, hprinted⟩ := exists_folded MainPc.result MainPc.printed Move.main hnext (hu.step .main trivial hlast)
    (by rw [hmix, hmem])
  exact ⟨v, hv, by rw [hprinted, hmem]⟩

theorem subset_outcomes : Loop.outcomes c ⊆ outcomes c := by
  rintro v ⟨x, hx, hcomplete, rfl⟩
  obtain ⟨s, mix_sig, hs, hmain, hloop, hstart⟩ := exists_in_loops c
  have hM : ∀ t s, (machine c).step (.child t) s = stepThread c t s := fun _ _ => rfl
  obtain ⟨u, hu, hmain', hloop, rfl⟩ := exists_follow hM hs hloop hstart hx
  obtain ⟨w, hw, hmain'', hreturned, hloops⟩ := exists_returned hM hu hloop hcomplete
  obtain ⟨s', hs', hprinted⟩ := exists_printed hw (hmain''.trans (hmain'.trans hmain)) hreturned
  refine ⟨s', hs', ?_⟩
  rw [hprinted, show w.mem = u.mem from congrArg Loop.State.mem hloops]
  rfl

theorem outcomes_eq_loop (c : Config) : outcomes c = Loop.outcomes c :=
  Set.Subset.antisymm outcomes_subset subset_outcomes

/-- Neither the start barrier nor processes instead of threads change the signatures that can be computed. -/
theorem start_changes_nothing (c : Config) :
    Start.outcomes .basic c = Start.outcomes .nobarrier c ∧ Start.outcomes .nobarrier c = outcomes c :=
  ⟨(Start.outcomes_eq_loop .basic c).trans (Start.outcomes_eq_loop .nobarrier c).symm,
    (Start.outcomes_eq_loop .nobarrier c).trans (outcomes_eq_loop c).symm⟩

end Racey.Forkmmap
