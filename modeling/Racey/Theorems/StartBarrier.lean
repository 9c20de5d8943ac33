import Mathlib.Algebra.BigOperators.Group.Finset.Basic
import Racey.Lib.Latch
import Racey.StartBarrier
import Racey.Theorems.Start

/-! The start barrier: `startCounter` is a latch that every thread counts down once, under `threadLock`. -/

namespace Racey.StartBarrier
open Machine Start

variable {σ : Type} {L : Loops σ} {c : Config} {s s' : State σ} {t : ℕ}

/-! ### Steps -/

/-- What a step of thread `t` does to the thread's phase, to `startCounter` and to `threadLock`. -/
inductive Moves (t : ℕ) (counter : ℤ) (owner : Option ℕ) : Phase → Phase → ℤ → Option ℕ → Prop
  | lock (hfree : owner = none) : Moves t counter owner .lock .load counter (some t)
  | load : Moves t counter owner .load (.store counter) counter owner
  | store (v : ℤ) : Moves t counter owner (.store v) .test (v - 1) owner
  | test : Moves t counter owner .test .unlock counter owner
  | unlock : Moves t counter owner .unlock .spin counter none
  | wait : Moves t counter owner .spin .spin counter owner
  | leave (hzero : counter = 0) : Moves t counter owner .spin .loop counter owner
  | loop : Moves t counter owner .loop .loop counter owner
  | ended : Moves t counter owner .loop .returned counter owner

theorem thread_cases (h : stepThread L t s = some s') :
    ∃ p, Moves t s.startCounter s.threadLock (s.phase t) p s'.startCounter s'.threadLock ∧
      s'.phase = Function.update s.phase t p ∧ s'.main = s.main := by
  unfold stepThread at h
  split at h
  case h_1 | h_2 | h_3 => cases h
  case h_4 hp =>
    obtain ⟨hfree, ⟨⟩⟩ := Option.ite_none_right_eq_some.mp h
    exact ⟨.load, hp ▸ .lock hfree, rfl, rfl⟩
  case h_5 hp =>
    cases h
    exact ⟨_, hp ▸ .load, rfl, rfl⟩
  case h_6 v hp =>
    cases h
    exact ⟨.test, hp ▸ .store v, rfl, rfl⟩
  case h_7 hp =>
    cases h
    exact ⟨.unlock, hp ▸ .test, rfl, rfl⟩
  case h_8 hp =>
    cases h
    exact ⟨.spin, hp ▸ .unlock, rfl, rfl⟩
  case h_9 hp =>
    split at h
    · rename_i hzero
      cases h
      exact ⟨.loop, hp ▸ .leave hzero, rfl, rfl⟩
    · cases h
      exact ⟨.spin, by rw [hp]; exact .wait, by rw [← hp, Function.update_eq_self], rfl⟩
  case h_10 hp =>
    split at h
    · cases h
      exact ⟨.returned, hp ▸ .ended, rfl, rfl⟩
    · obtain ⟨loops, -, rfl⟩ := Option.map_eq_some_iff.mp h
      exact ⟨.loop, by rw [hp]; exact .loop, by rw [← hp, Function.update_eq_self], rfl⟩

/-- How many threads `main` has created. -/
def State.created (c : Config) (s : State σ) : ℕ :=
  match s.main with
  | .create i => min i c.numProcs
  | _ => c.numProcs

theorem created_le : s.created c ≤ c.numProcs := by
  unfold State.created
  split
  · exact Nat.min_le_right _ _
  · exact le_rfl

theorem created_of_ne (h : ∀ i, s.main ≠ .create i) : s.created c = c.numProcs := by
  unfold State.created
  split
  · rename_i i hmain
    exact absurd hmain (h i)
  · rfl

/-- `main` creates a thread, or does nothing that concerns the barrier. -/
theorem main_cases (h : stepMain L c s = some s') :
    (∃ i, s.main = .create i ∧ i < c.numProcs ∧ s' = { s.setPhase (i + 1) .lock with main := .create (i + 1) }) ∨
      s'.phase = s.phase ∧ s'.startCounter = s.startCounter ∧ s'.threadLock = s.threadLock ∧
        s'.created c = s.created c := by
  unfold stepMain at h
  split at h
  case h_1 i hmain =>
    split at h
    · rename_i hi
      cases h
      exact .inl ⟨i, hmain, hi, rfl⟩
    · rename_i hi
      cases h
      refine .inr ⟨rfl, rfl, rfl, ?_⟩
      rw [State.created, State.created, hmain]
      exact (Nat.min_eq_right (Nat.not_lt.mp hi)).symm
  case h_2 i hmain =>
    have hcreated : s.created c = c.numProcs := created_of_ne (by simp [hmain])
    split at h
    · obtain ⟨-, ⟨⟩⟩ := Option.ite_none_right_eq_some.mp h
      exact .inr ⟨rfl, rfl, rfl, hcreated.symm⟩
    · cases h
      exact .inr ⟨rfl, rfl, rfl, hcreated.symm⟩
  case h_3 hmain =>
    have hcreated : s.created c = c.numProcs := created_of_ne (by simp [hmain])
    cases h
    exact .inr ⟨rfl, rfl, rfl, hcreated.symm⟩
  case h_4 i mix_sig hmain =>
    have hcreated : s.created c = c.numProcs := created_of_ne (by simp [hmain])
    split at h <;> cases h <;> exact .inr ⟨rfl, rfl, rfl, hcreated.symm⟩
  case h_5 => cases h

/-! ### The lock -/

/-- The thread is between `pthread_mutex_lock` and `pthread_mutex_unlock`. -/
def inside : Phase → Bool
  | .load | .store _ | .test | .unlock => true
  | _ => false

/-- The owner of the lock is the thread inside. -/
def Owner (owner : Option ℕ) (phase : ℕ → Phase) : Prop := ∀ t, owner = some t ↔ inside (phase t) = true

namespace Owner
variable {owner : Option ℕ} {phase : ℕ → Phase} {p : Phase}

theorem lock (h : Owner owner phase) (hfree : owner = none) (hp : inside p = true) :
    Owner (some t) (Function.update phase t p) := by
  intro u
  rcases eq_or_ne u t with rfl | hu
  · rw [Function.update_self]
    exact iff_of_true rfl hp
  · rw [Function.update_of_ne hu, ← h u, hfree]
    exact iff_of_false (fun heq => hu (Option.some.inj heq).symm) (fun heq => by cases heq)

theorem unlock (h : Owner owner phase) (ht : inside (phase t) = true) (hp : inside p = false) :
    Owner none (Function.update phase t p) := by
  intro u
  rcases eq_or_ne u t with rfl | hu
  · rw [Function.update_self, hp]
    exact iff_of_false (fun heq => by cases heq) (fun heq => by cases heq)
  · rw [Function.update_of_ne hu, ← h u, (h t).mpr ht]
    exact iff_of_false (fun heq => by cases heq) (fun heq => hu (Option.some.inj heq).symm)

theorem same (h : Owner owner phase) (hp : inside p = inside (phase t)) : Owner owner (Function.update phase t p) := by
  intro u
  rcases eq_or_ne u t with rfl | hu
  · rw [Function.update_self, hp]
    exact h u
  · rw [Function.update_of_ne hu]
    exact h u

theorem moves {counter counter' : ℤ} {owner' : Option ℕ} (h : Owner owner phase)
    (hm : Moves t counter owner (phase t) p counter' owner') : Owner owner' (Function.update phase t p) := by
  generalize hpt : phase t = pt at hm
  cases hm with
  | lock hfree => exact h.lock hfree rfl
  | unlock => exact h.unlock (hpt ▸ rfl) rfl
  | _ => exact h.same (hpt ▸ rfl)

end Owner

/-! ### The latch -/

/-- The latch that `startCounter` implements. -/
def State.latch (c : Config) (s : State σ) : Latch ℕ := ⟨s.startCounter, s.decremented c, s.released c⟩

section Filter
variable {P : Finset ℕ} {f : Phase → Bool} {phase : ℕ → Phase} {p : Phase}

theorem filter_same (hp : f p = f (phase t)) :
    (P.filter fun u => f (Function.update phase t p u)) = P.filter fun u => f (phase u) := by
  refine Finset.filter_congr fun u _ => ?_
  rcases eq_or_ne u t with rfl | hu
  · rw [Function.update_self, hp]
  · rw [Function.update_of_ne hu]

theorem filter_insert (ht : t ∈ P) (hp : f p = true) :
    (P.filter fun u => f (Function.update phase t p u)) = insert t (P.filter fun u => f (phase u)) := by
  ext u
  rw [Finset.mem_insert, Finset.mem_filter, Finset.mem_filter]
  rcases eq_or_ne u t with rfl | hu
  · rw [Function.update_self]
    exact iff_of_true ⟨ht, hp⟩ (.inl rfl)
  · rw [Function.update_of_ne hu, or_iff_right hu]

end Filter

/-- The threads that `main` has created are at work, at most one of them inside; what it has loaded is still the value of
    `startCounter`; and the latch has come about by its own moves. -/
structure Inv (c : Config) (s : State σ) : Prop where
  born : ∀ t, s.phase t ≠ .unborn ↔ 1 ≤ t ∧ t ≤ s.created c
  owner : Owner s.threadLock s.phase
  loaded : ∀ t v, s.phase t = .store v → v = s.startCounter
  latch : (Latch.machine (Finset.Icc 1 c.numProcs)).Reachable (s.latch c)

theorem inv_start : Inv c (start L c) where
  born t := by
    refine iff_of_false (fun h => h rfl) fun ⟨h1, hle⟩ => ?_
    have hcreated : (start L c).created c = 0 := Nat.zero_min _
    omega
  owner t := iff_of_false (fun h => by cases h) (fun h => by cases h)
  loaded t v h := by cases h
  latch := by
    have hlatch : (start L c).latch c = (Latch.machine (Finset.Icc 1 c.numProcs)).init := by
      have hdec : (start L c).decremented c = ∅ := Finset.filter_false_of_mem fun t _ h => by cases h
      have hrel : (start L c).released c = ∅ := Finset.filter_false_of_mem fun t _ h => by cases h
      rw [State.latch, hdec, hrel, Latch.machine, Nat.card_Icc, Nat.add_sub_cancel]
      rfl
    rw [hlatch]
    exact .init

theorem Inv.range (I : Inv c s) (ht : s.phase t ≠ .unborn) : t ∈ Finset.Icc 1 c.numProcs := by
  obtain ⟨h1, hle⟩ := (I.born t).mp ht
  exact Finset.mem_Icc.mpr ⟨h1, hle.trans created_le⟩

/-- A step is one of the latch's, or does not move it. -/
def Follows (c : Config) (s s' : State σ) : Prop :=
  s'.latch c = s.latch c ∨ ∃ b, Latch.step (Finset.Icc 1 c.numProcs) b (s.latch c) = some (s'.latch c)

theorem Follows.reachable (h : Follows c s s') (hs : (Latch.machine (Finset.Icc 1 c.numProcs)).Reachable (s.latch c)) :
    (Latch.machine (Finset.Icc 1 c.numProcs)).Reachable (s'.latch c) := by
  rcases h with heq | ⟨b, hb⟩
  · rwa [heq]
  · exact hs.step b trivial hb

theorem follows_same {p : Phase} (hphase : s'.phase = Function.update s.phase t p)
    (hcounter : s'.startCounter = s.startCounter) (hdec : decremented p = decremented (s.phase t))
    (hrel : released p = released (s.phase t)) : Follows c s s' := by
  refine .inl ?_
  rw [State.latch, State.decremented, State.released, hphase, hcounter, filter_same hdec, filter_same hrel]
  rfl

theorem Inv.follows {p : Phase} (I : Inv c s)
    (hm : Moves t s.startCounter s.threadLock (s.phase t) p s'.startCounter s'.threadLock)
    (hphase : s'.phase = Function.update s.phase t p) : Follows c s s' := by
  have hrange := I.range (t := t)
  have hloaded := I.loaded t
  generalize hpt : s.phase t = pt at hm hrange hloaded
  generalize hcounter : s'.startCounter = counter at hm
  generalize s'.threadLock = owner at hm
  cases hm with
  | store v =>
    -- The value loaded is still there, so this counts the latch down.
    have hv : v = s.startCounter := hloaded v rfl
    have ht := hrange (fun h => by cases h)
    have hnot : t ∉ s.decremented c := by
      rw [State.decremented, Finset.mem_filter, hpt]
      exact fun h => Bool.false_ne_true h.2
    have hdec : s'.decremented c = insert t (s.decremented c) := by
      rw [State.decremented, hphase]
      exact filter_insert ht rfl
    have hrel : s'.released c = s.released c := by
      rw [State.released, hphase]
      exact filter_same (hpt ▸ rfl)
    refine .inr ⟨.countDown t, ?_⟩
    simp only [State.latch, hdec, hrel, hcounter, hv]
    exact Latch.step_countDown ht hnot
  | leave hzero =>
    have ht := hrange (fun h => by cases h)
    have hdone : t ∈ s.decremented c := by
      rw [State.decremented, Finset.mem_filter, hpt]
      exact ⟨ht, rfl⟩
    have hdec : s'.decremented c = s.decremented c := by
      rw [State.decremented, hphase]
      exact filter_same (hpt ▸ rfl)
    have hrel : s'.released c = insert t (s.released c) := by
      rw [State.released, hphase]
      exact filter_insert ht rfl
    refine .inr ⟨.pass t, ?_⟩
    simp only [State.latch, hdec, hrel, hcounter]
    exact Latch.step_pass hdone hzero
  | _ => exact follows_same hphase hcounter (hpt ▸ rfl) (hpt ▸ rfl)

/-- Nobody but the thread inside has loaded a value, so that it is the one stored back. -/
theorem Inv.loaded_moves {p : Phase} (I : Inv c s)
    (hm : Moves t s.startCounter s.threadLock (s.phase t) p s'.startCounter s'.threadLock) {u : ℕ} {v : ℤ}
    (hu : Function.update s.phase t p u = .store v) : v = s'.startCounter := by
  rcases eq_or_ne u t with rfl | hne
  · rw [Function.update_self] at hu
    subst hu
    generalize s.phase u = pt at hm
    generalize s'.startCounter = counter at hm ⊢
    generalize s'.threadLock = owner at hm
    cases hm with
    | load => rfl
  · rw [Function.update_of_ne hne] at hu
    have hstill : s'.startCounter = s.startCounter := by
      have howner := (I.owner u).mpr (by rw [hu]; rfl)
      have hnot : inside (s.phase t) = false := by
        refine Bool.eq_false_iff.mpr fun hin => hne ?_
        exact Option.some.inj (howner.symm.trans ((I.owner t).mpr hin))
      generalize s.phase t = pt at hm hnot
      generalize s'.startCounter = counter at hm ⊢
      generalize s'.threadLock = owner at hm
      cases hm with
      | store v => cases hnot
      | _ => rfl
    rw [hstill]
    exact I.loaded u v hu

theorem Inv.thread (I : Inv c s) (h : stepThread L t s = some s') : Inv c s' ∧ Follows c s s' := by
  obtain ⟨p, hm, hphase, hmain⟩ := thread_cases h
  have hcreated : s'.created c = s.created c := by rw [State.created, State.created, hmain]
  have hunborn : s.phase t ≠ .unborn ∧ p ≠ .unborn := by
    generalize s.phase t = pt at hm
    generalize s'.startCounter = counter at hm
    generalize s'.threadLock = owner at hm
    cases hm <;> exact ⟨by simp, by simp⟩
  have hfollows := I.follows hm hphase
  refine ⟨⟨fun u => ?_, ?_, fun u v hu => ?_, hfollows.reachable I.latch⟩, hfollows⟩
  · rw [hcreated, hphase]
    rcases eq_or_ne u t with rfl | hu
    · rw [Function.update_self]
      exact iff_of_true hunborn.2 ((I.born u).mp hunborn.1)
    · rw [Function.update_of_ne hu]
      exact I.born u
  · rw [hphase]
    exact I.owner.moves hm
  · rw [hphase] at hu
    exact I.loaded_moves hm hu

theorem Inv.main (I : Inv c s) (h : stepMain L c s = some s') : Inv c s' ∧ Follows c s s' := by
  rcases main_cases h with ⟨i, hmain, hi, rfl⟩ | ⟨hphase, hcounter, hlock, hcreated⟩
  · have hnow : s.created c = i := by
      rw [State.created, hmain]
      exact Nat.min_eq_left hi.le
    have hunborn : s.phase (i + 1) = .unborn := by
      refine not_not.mp fun hne => ?_
      obtain ⟨-, hle⟩ := (I.born (i + 1)).mp hne
      omega
    have hfollows : Follows c s { s.setPhase (i + 1) .lock with main := .create (i + 1) } :=
      follows_same rfl rfl (by rw [hunborn]; rfl) (by rw [hunborn]; rfl)
    refine ⟨⟨fun u => ?_, I.owner.same (by rw [hunborn]; rfl), fun u v hu => ?_, hfollows.reachable I.latch⟩, hfollows⟩
    · have hnext : State.created c { s.setPhase (i + 1) .lock with main := .create (i + 1) } = i + 1 := Nat.min_eq_left hi
      rw [hnext]
      rcases eq_or_ne u (i + 1) with rfl | hu
      · simp [State.setPhase]
      · have hold := I.born u
        simp only [State.setPhase, Function.update_of_ne hu]
        rw [hold, hnow]
        omega
    · rcases eq_or_ne u (i + 1) with rfl | hne
      · simp [State.setPhase] at hu
      · simp only [State.setPhase, Function.update_of_ne hne] at hu
        exact I.loaded u v hu
  · have hlatch : s'.latch c = s.latch c := by
      rw [State.latch, State.decremented, State.released, hphase, hcounter]
      rfl
    refine ⟨⟨?_, ?_, ?_, by rw [hlatch]; exact I.latch⟩, .inl hlatch⟩
    · rw [hphase, hcreated]
      exact I.born
    · rw [hphase, hlock]
      exact I.owner
    · rw [hphase, hcounter]
      exact I.loaded

theorem Inv.step {a : Move} (I : Inv c s) (h : step L c a s = some s') : Inv c s' ∧ Follows c s s' := by
  cases a with
  | main => exact I.main h
  | thread t => exact I.thread h

theorem inv_of_reachable (h : (machine L c).Reachable s) : Inv c s :=
  h.invariant inv_start fun _ _ _ I _ hs => (I.step hs).1

theorem Inv.sound (I : Inv c s) : Latch.Sound (Finset.Icc 1 c.numProcs) (s.latch c) := Latch.sound_of_reachable I.latch

theorem Inv.stays_zero {as : List Move} (I : Inv c s) (hzero : s.startCounter = 0)
    (hr : (machine L c).run as s = some s') : s'.startCounter = 0 := by
  induction as generalizing s with
  | nil =>
    cases hr
    exact hzero
  | cons a as ih =>
    obtain ⟨u, hs, hr⟩ := run_cons_eq_some.mp hr
    obtain ⟨I', hfollows⟩ := I.step hs
    refine ih I' ?_ hr
    rcases hfollows with heq | ⟨b, hb⟩
    · exact (congrArg Latch.counter heq).trans hzero
    · exact I.sound.stays_zero hzero hb

/-! ### Opening -/

/-- The steps that a thread is away from `while(startCounter) {}`. -/
def distance : Phase → ℕ
  | .unborn => 6
  | .lock => 5
  | .load => 4
  | .store _ => 3
  | .test => 2
  | .unlock => 1
  | _ => 0

/-- The steps that all threads are away from it. -/
def State.distance (c : Config) (s : State σ) : ℕ := ∑ t ∈ Finset.Icc 1 c.numProcs, StartBarrier.distance (s.phase t)

theorem distance_of_inside {p : Phase} (h : inside p = true) : p ≠ .unborn ∧ p ≠ .lock ∧ distance p ≠ 0 := by
  cases p with
  | load | store v | test | unlock => simp [distance]
  | _ => cases h

theorem distance_of_not_decremented {p : Phase} (h : decremented p = false) : distance p ≠ 0 := by
  cases p with
  | unborn | lock | load | store v => simp [distance]
  | _ => cases h

theorem distance_lt {p : Phase} (ht : t ∈ Finset.Icc 1 c.numProcs) (hp : distance p < distance (s.phase t))
    (hphase : s'.phase = Function.update s.phase t p) : s'.distance c < s.distance c := by
  have hsum := sum_change (f := fun u => distance (s.phase u)) (g := fun u => distance (s'.phase u)) ht fun u hu => by
    rw [hphase, Function.update_of_ne hu]
  simp only [State.distance]
  rw [hphase, Function.update_self, ← hphase] at hsum
  omega

/-- A thread that is created and not waiting for the lock or for the counter comes closer with its next step. -/
theorem exists_closer (ht : t ∈ Finset.Icc 1 c.numProcs) (hp : distance (s.phase t) ≠ 0) (hborn : s.phase t ≠ .unborn)
    (hfree : s.phase t = .lock → s.threadLock = none) :
    ∃ s', stepThread L t s = some s' ∧ s'.distance c < s.distance c := by
  unfold stepThread
  cases hpt : s.phase t with
  | unborn => exact absurd hpt hborn
  | lock =>
    simp only [if_pos (hfree hpt)]
    exact ⟨_, rfl, distance_lt ht (by rw [hpt]; decide) rfl⟩
  | load => exact ⟨_, rfl, distance_lt ht (by rw [hpt]; simp [distance]) rfl⟩
  | store v => exact ⟨_, rfl, distance_lt ht (by rw [hpt]; simp [distance]) rfl⟩
  | test => exact ⟨_, rfl, distance_lt ht (by rw [hpt]; decide) rfl⟩
  | unlock => exact ⟨_, rfl, distance_lt ht (by rw [hpt]; decide) rfl⟩
  | _ =>
    rw [hpt] at hp
    exact absurd rfl hp

/-- Until `startCounter` is zero somebody can come closer. -/
theorem Inv.exists_closer (I : Inv c s) (hne : s.startCounter ≠ 0) :
    ∃ a s', StartBarrier.step L c a s = some s' ∧ s'.distance c < s.distance c := by
  obtain ⟨t, ht, hnot⟩ : ∃ t ∈ Finset.Icc 1 c.numProcs, decremented (s.phase t) = false := by
    by_contra hall
    push Not at hall
    refine hne (I.sound.counter_eq_zero.mpr ?_)
    exact Finset.filter_true_of_mem fun t ht => by simpa using hall t ht
  by_cases hborn : s.phase t = .unborn
  · -- `main` has not created it, so it can create the next thread.
    obtain ⟨h1, hn⟩ := Finset.mem_Icc.mp ht
    have hlt : s.created c < t := by
      by_contra hle
      exact (I.born t).mpr ⟨h1, not_lt.mp hle⟩ hborn
    cases hmain : s.main with
    | create i =>
      simp only [State.created, hmain] at hlt
      have hi : i < c.numProcs := by omega
      have hunborn : s.phase (i + 1) = .unborn := by
        refine not_not.mp fun hne => ?_
        obtain ⟨-, hle⟩ := (I.born (i + 1)).mp hne
        simp only [State.created, hmain] at hle
        omega
      refine ⟨.main, { s.setPhase (i + 1) .lock with main := .create (i + 1) }, ?_, ?_⟩
      · show stepMain L c s = _
        rw [stepMain, hmain]
        exact if_pos hi
      · exact distance_lt (Finset.mem_Icc.mpr ⟨Nat.le_add_left 1 i, hi⟩) (by rw [hunborn]; decide) rfl
    | _ =>
      simp only [State.created, hmain] at hlt
      omega
  · by_cases hwaits : s.phase t = .lock ∧ s.threadLock ≠ none
    · -- The thread inside goes on.
      obtain ⟨u, hu⟩ := Option.ne_none_iff_exists'.mp hwaits.2
      obtain ⟨hborn, hlock, hdist⟩ := distance_of_inside ((I.owner u).mp hu)
      obtain ⟨s', hs, hlt⟩ := StartBarrier.exists_closer (L := L) (I.range hborn) hdist hborn fun h => absurd h hlock
      exact ⟨.thread u, s', hs, hlt⟩
    · have hfree : s.phase t = .lock → s.threadLock = none := fun hlock => by
        by_contra hheld
        exact hwaits ⟨hlock, hheld⟩
      obtain ⟨s', hs, hlt⟩ := StartBarrier.exists_closer (L := L) ht (distance_of_not_decremented hnot) hborn hfree
      exact ⟨.thread t, s', hs, hlt⟩

/-- The barrier works whatever the loops after it do. -/
theorem holdsBack (L : Loops σ) (c : Config) : HoldsBack L c where
  counts s h := by
    have hcount := (inv_of_reachable h).sound.counter_eq
    rwa [Nat.card_Icc, Nat.add_sub_cancel] at hcount
  nonneg s h := (inv_of_reachable h).sound.nonneg
  together s h t ht u h1 hn := by
    have I := inv_of_reachable h
    have hborn : s.phase t ≠ .unborn := fun hunborn => by
      rw [hunborn] at ht
      cases ht
    have hzero := I.sound.zero_of_passed t (Finset.mem_filter.mpr ⟨I.range hborn, ht⟩)
    have hall := I.sound.counter_eq_zero.mp hzero
    have hu : u ∈ s.decremented c := by
      rw [show s.decremented c = Finset.Icc 1 c.numProcs from hall]
      exact Finset.mem_Icc.mpr ⟨h1, hn⟩
    exact (Finset.mem_filter.mp hu).2
  stays s h hzero as s' hr := (inv_of_reachable h).stays_zero hzero hr
  opens s h := h.exists_run fun s h hne => (inv_of_reachable h).exists_closer hne

/-- The start barrier of racey-basic, of racey-mmaptmpfile and of racey-freqsyscall. -/
theorem start_barrier (c : Config) :
    HoldsBack (basic c) c ∧ HoldsBack (mmaptmpfile c) c ∧ HoldsBack (freqsyscall c) c :=
  ⟨holdsBack _ c, holdsBack _ c, holdsBack _ c⟩

/-! ### One program with the barrier -/

/-- A state of racey-basic as it stands in `Start`. -/
def view (x : Start.State MainPc) : State Loop.State := ⟨x.main, x.phase, x.startCounter, x.threadLock, x.loops⟩

theorem step_view {a : Move} {x : Start.State MainPc} (I : Start.Inv c x) :
    (Start.step .basic c a x).map view = step (basic c) c a (view x) := by
  cases a with
  | main =>
    simp only [Start.step, step, Start.stepMain, stepMain, view]
    cases x.main with
    | create i | result i mix_sig => exact apply_ite (Option.map view) _ _ _
    | join i =>
      dsimp only
      rw [apply_ite (Option.map view), apply_ite (Option.map view)]
      rfl
    | first | printed mix_sig => rfl
  | thread t =>
    simp only [Start.step, step, Start.stepThread, stepThread, view]
    cases hp : x.phase t with
    | lock => exact apply_ite (Option.map view) _ _ _
    | spin => exact congrArg some (apply_ite view _ _ _)
    | loop =>
      dsimp only
      by_cases hover : (x.thread t).Over c.maxLoop
      · have hbool : (basic c).ended t x.loops = true := decide_eq_true hover
        rw [if_pos hover]
        exact (if_pos hbool).symm
      · have hbool : ¬ (basic c).ended t x.loops = true := fun h => hover (of_decide_eq_true h)
        obtain ⟨h1, hn⟩ := I.born t (by rw [hp]; exact fun h => by cases h)
        have hstep : (basic c).step t x.loops = _ := if_pos ⟨h1, hn, hover⟩
        rw [if_neg hover]
        refine ((if_neg hbool).trans ?_).symm
        rw [hstep]
        rfl
    | _ => rfl

/-- Its states here are its states there. -/
theorem reachable_view_iff {y : State Loop.State} :
    (machine (basic c) c).Reachable y ↔ ∃ x, (Start.machine .basic c).Reachable x ∧ view x = y := by
  constructor
  · intro h
    induction h with
    | init => exact ⟨_, .init, rfl⟩
    | step a _ _ hs ih =>
      obtain ⟨x, hx, rfl⟩ := ih
      have hview : step (basic c) c a (view x) = _ := hs
      rw [← step_view (joined_of_reach hx).2] at hview
      obtain ⟨x', hs', hx'⟩ := Option.map_eq_some_iff.mp hview
      exact ⟨x', hx.step a trivial hs', hx'⟩
  · rintro ⟨x, h, rfl⟩
    induction h with
    | init => exact .init
    | @step x x' a hx _ hs ih =>
      have hview : (Start.step .basic c a x).map view = some (view x') := by
        rw [show Start.step .basic c a x = some x' from hs]
        rfl
      rw [step_view (joined_of_reach hx).2] at hview
      exact ih.step a trivial hview

theorem initMmap_eq {i : ℕ} (hi : i < 33) : initMmap i = sigInit i := by
  revert i
  decide

end Racey.StartBarrier
