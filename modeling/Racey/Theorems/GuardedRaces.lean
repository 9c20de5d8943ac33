import Racey.Theorems.GuardedStart

/-! racey-guarded has no data races: who accesses a cell holds the lock of its class, `sig[t]` is thread `t`'s until it has
    returned, and `main` reads `sig` only when all threads have. -/

namespace Racey.GuardedStart
open Machine
open Start (MainPc Move)

variable {c : Config} {s : State} {t u k : ℕ} {x y : Access}

/-- What holds of the threads of a reachable state, and of `main`. -/
theorem inv_of_machine (h : (machine c).Reachable s) : Inv c s.threads.born ∧ (fork c).Joined (view s) := by
  obtain ⟨hJ, hW⟩ := ForkJoin.invariant (proper c) ((mirrors c).reachable h)
  exact ⟨inv_of_reachable hW, hJ⟩

theorem access_thread (h : access c (.thread t) s = some x) :
    s.threads.phase t = .loop ∧ loopAccess t (s.threads.loops.thread t).pc = some x := by
  obtain ⟨⟨hp, -⟩, h⟩ := Option.ite_none_right_eq_some.mp h
  exact ⟨hp, h⟩

/-- A thread accesses its own entry of `sig`, or a cell whose lock it holds. -/
theorem loopAccess_cases {pc : Guarded.Pc} (h : loopAccess t pc = some x) :
    x.loc = .sig t ∨ ∃ k, x.loc = .m k ∧ pc.holds = some (k % Guarded.nlock) := by
  cases pc with
  | lockItem1 | setSig result =>
    cases h
    exact .inl rfl
  | load1 index num | load2 index num | store index num result =>
    cases h
    exact .inr ⟨index, rfl, rfl⟩
  | mix1 | unlockItem1 | lockItem2 | mix2 | unlockItem2 => cases h

theorem guarded_held (h : (machine c).Reachable s) : Guarded.Held s.threads.loops.locks s.threads.loops.holds :=
  (guarded_invs (inv_of_machine h).1.loops).1.held

/-- Two threads do not touch the same location, unless one of them is the other. -/
theorem eq_of_loc_eq (h : (machine c).Reachable s) (ht : access c (.thread t) s = some x)
    (hu : access c (.thread u) s = some y) (hloc : x.loc = y.loc) : t = u := by
  rcases loopAccess_cases (access_thread ht).2 with hx | ⟨k, hx, hholds⟩ <;>
    rcases loopAccess_cases (access_thread hu).2 with hy | ⟨j, hy, hholds'⟩ <;> rw [hx, hy] at hloc
  · cases hloc
    rfl
  · cases hloc
  · cases hloc
  · cases hloc
    exact (guarded_held h).exclusive hholds hholds'

/-- While `main` accesses `sig` no thread is in its loop. -/
theorem not_access_both (h : (machine c).Reachable s) (hm : access c .main s = some x) : access c (.thread t) s = none := by
  obtain ⟨I, hJ⟩ := inv_of_machine h
  have hover : (fork c).Over s.threads.born := by
    rw [ForkJoin.Joined, view] at hJ
    unfold access at hm
    cases hmain : s.main <;> rw [hmain] at hJ hm
    case create i | join i | printed mix_sig => cases hm
    case first | result i mix_sig => exact hJ.1
  refine Option.eq_none_iff_forall_ne_some.mpr fun y hy => ?_
  have hloop := (access_thread hy).1
  have hborn : s.threads.phase t ≠ .unborn := by simp [hloop]
  have hexists := Crew.born_of_reachable (lawful c) ((mirrors_crew c).reachable h)
  obtain ⟨h1, hle⟩ := (hexists.iff t).mp hborn
  have hreturned := of_decide_eq_true (hover t h1 (hle.trans hexists.le))
  rw [born_phase hborn, hloop] at hreturned
  cases hreturned

/-- In no reachable state are two threads, or a thread and `main`, about to make conflicting accesses to an entry of `sig` or to a
    cell; and a thread that is about to access a cell holds the cell's lock. -/
theorem no_races (c : Config) : ∀ s, (machine c).Reachable s → ¬ Race c s ∧
    ∀ t x k, access c (.thread t) s = some x → x.loc = .m k → s.threads.loops.locks (k % Guarded.nlock) = some t := by
  intro s hs
  refine ⟨?_, fun t x k ht hloc => ?_⟩
  · rintro ⟨a, b, x, y, hne, ha, hb, hloc, -⟩
    cases a with
    | main =>
      cases b with
      | main => exact hne rfl
      | thread u =>
        rw [not_access_both hs ha] at hb
        cases hb
    | thread t =>
      cases b with
      | main =>
        rw [not_access_both hs hb] at ha
        cases ha
      | thread u => exact hne (congrArg Move.thread (eq_of_loc_eq hs ha hb hloc))
  · rcases loopAccess_cases (access_thread ht).2 with hx | ⟨j, hx, hholds⟩
    · rw [hx] at hloc
      cases hloc
    · rw [hx] at hloc
      cases hloc
      exact ((guarded_held hs) t _).mpr hholds

/-- Thread 1 is about to store to a cell, and thread 2 to load another. -/
theorem no_races_locked : ∃ s, (machine ⟨2, 1⟩).Reachable s ∧ access ⟨2, 1⟩ (.thread 1) s = some ⟨.m 8, true⟩ ∧
    ¬ Race ⟨2, 1⟩ s ∧ s.threads.loops.locks 0 = some 1 ∧ s.threads.loops.locks 2 = some 2 := by
  obtain ⟨s, hs, hp⟩ := exists_reachable (M := machine ⟨2, 1⟩)
    (p := fun s => decide (access ⟨2, 1⟩ (.thread 1) s = some ⟨.m 8, true⟩ ∧
      access ⟨2, 1⟩ (.thread 2) s = some ⟨.m 2, false⟩))
    (List.replicate 3 .main ++ [.thread 1, .thread 2, .thread 1, .thread 2] ++ List.replicate 7 (.thread 1) ++ [.thread 2])
    (by decide +kernel)
  obtain ⟨h1, h2⟩ := of_decide_eq_true hp
  obtain ⟨hrace, hlocks⟩ := no_races ⟨2, 1⟩ s hs
  exact ⟨s, hs, h1, hrace, hlocks 1 _ 8 h1 rfl, hlocks 2 _ 2 h2 rfl⟩

end Racey.GuardedStart
