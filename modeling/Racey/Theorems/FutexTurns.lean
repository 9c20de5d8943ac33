import Racey.Theorems.FutexProgress

/-! What racey-futex is meant to guarantee, where it does, and runs in which it does not: one turn at a time, a
    barrier that is left when it is full, one scheduler for each round, and no deadlock.

    The schedules give the threads in the order in which they run, each with the number of its steps. -/

namespace Racey.Futex
open Turns

variable {c : Config} {s : State} {logs : ℕ → Log} {p : State × (ℕ → Log)} {i t u : ℕ}

/-- A schedule, as stretches of steps of one thread. -/
def schedule (stretches : List (ℕ × ℕ)) : List ℕ := stretches.flatMap fun x => List.replicate x.2 x.1

theorem accepted_two {maxLoop : ℕ} (h : 0 < maxLoop) : Config.Accepted ⟨2, maxLoop⟩ :=
  ⟨Nat.two_pos, Nat.le_add_left 2 30, h⟩

theorem placed_two (maxLoop : ℕ) : Placed ⟨2, maxLoop⟩ := by
  intro t h1 h2
  obtain rfl | rfl : t = 1 ∨ t = 2 := by simp only at h2; omega
  · rfl
  · rfl

/-- Two threads, one iteration each, to the end: both add themselves to `owner`, thread 1 schedules. -/
def fairRun : List ℕ := schedule [(1, 4), (2, 4), (1, 6), (2, 8), (1, 40), (2, 1)]

theorem step_eq_none_of_done (h : ∀ t, 1 ≤ t → t ≤ c.numProcs → (p.1.thread t).pc = .done) :
    ((machine c).watch (observer c)).step t p = none := by
  refine Option.eq_none_iff_forall_ne_some.mpr fun q hs => ?_
  obtain ⟨k, o, ht, ho, -⟩ := exists_of_watch hs
  rw [act_eq_none_iff.mpr (Or.inl (h t ht.1 ht.2.1))] at ho
  cases ho

/-- Two threads, two iterations each, to the end: after the round of all, thread 2 has a turn, and then thread 1. -/
def turnsRun : List ℕ :=
  schedule [(1, 9), (2, 11), (1, 8), (2, 2), (1, 1), (2, 4), (1, 1), (2, 8), (1, 1), (2, 1), (1, 46)]

/-- That run from where thread 1 has added itself to `owner` and thread 2 has not: a fair run, under the conditions. -/
theorem exists_fair_two : ∃ r : ((machine ⟨2, 2⟩).watch (observer ⟨2, 2⟩)).Trace,
    ((machine ⟨2, 2⟩).watch (observer ⟨2, 2⟩)).Reach (fun t p => Settled ⟨2, 2⟩ t p.1 ∧ WakesPast ⟨2, 2⟩ t p.1) (r.state 0) ∧
      (r.Meets fun t p => Settled ⟨2, 2⟩ t p.1 ∧ WakesPast ⟨2, 2⟩ t p.1) ∧ r.Fair ∧ ((r.state 0).2 0).cur.value = -2 ∧
      ((r.state 0).2 0).cur.adds 1 = 1 ∧ ((r.state 0).2 0).cur.adds 2 = 0 := by
  have hrun : ∃ p, ((machine ⟨2, 2⟩).watch (observer ⟨2, 2⟩)).Reach
      (fun t p => Settled ⟨2, 2⟩ t p.1 ∧ WakesPast ⟨2, 2⟩ t p.1) p ∧
      (decide ((p.2 0).cur.value = -2 ∧ (p.2 0).cur.adds 1 = 1 ∧ (p.2 0).cur.adds 2 = 0) &&
        (((machine ⟨2, 2⟩).watch (observer ⟨2, 2⟩)).runIf
          (fun t p => decide (Settled ⟨2, 2⟩ t p.1 ∧ WakesPast ⟨2, 2⟩ t p.1)) (turnsRun.drop 12) p).any fun q =>
            decide ((q.1.thread 1).pc = .done ∧ (q.1.thread 2).pc = .done)) = true :=
    Machine.exists_reach (turnsRun.take 12) (by decide +kernel)
  obtain ⟨p, hreach, hp⟩ := hrun
  rw [Bool.and_eq_true] at hp
  obtain ⟨q, hr, hq⟩ := (Option.any_eq_true _ _).mp hp.2
  obtain ⟨h1, h2⟩ := of_decide_eq_true hq
  have hstop : ∀ t, ((machine ⟨2, 2⟩).watch (observer ⟨2, 2⟩)).step t q = none := by
    refine fun t => step_eq_none_of_done fun u hu hn => ?_
    obtain rfl | rfl : u = 1 ∨ u = 2 := by simp only at hn; omega
    · exact h1
    · exact h2
  obtain ⟨r, rfl, hmeets, hfair⟩ := Machine.Trace.exists_of_run hr hstop
  exact ⟨r, hreach, hmeets, hfair, of_decide_eq_true hp.1⟩

/-! ### Exclusive turns -/

/-- In a run under the conditions, whoever executes a batch because `owner` was its id is alone. -/
theorem exclusive_of_settled (hc : c.Accepted) (hplaced : Placed c) (h : (machine c).Reach (Settled c) s) :
    Exclusive c s := by
  obtain ⟨logs, hw⟩ := h.watch (observer c)
  intro i hi t u turn ht hu hexec howner hne
  have hinv := (good_of_reach hc hplaced hw i hi).inv
  have hrt := hinv.role t
  have hru := hinv.role u
  rw [view_role ht] at hrt
  rw [view_role hu] at hru
  cases hpt : (s.thread t).pc <;> rw [hpt] at hexec hrt <;> try cases hexec
  case execute k q =>
    -- The round's value is `t`, so it is neither the turn of another member nor a round of all.
    simp only [Pc.role, if_neg (by omega : ¬ turn.owner < 0)] at hrt
    cases hpu : (s.thread u).pc <;> try rfl
    case execute turn' k' q' =>
      rw [hpu] at hru
      simp only [Pc.role] at hru
      split at hru
      · have := hru.1.value
        have := hrt.1
        omega
      · have := hru.1
        have := hrt.1
        omega

theorem exclusive_of_settled_two : ∃ s, (machine ⟨2, 2⟩).Reach (Settled ⟨2, 2⟩) s ∧
    (s.thread 2).pc.executes = some ⟨2, true, 1⟩ ∧ Exclusive ⟨2, 2⟩ s := by
  have hrun : ∃ s, (machine ⟨2, 2⟩).Reach (Settled ⟨2, 2⟩) s ∧
      decide ((s.thread 2).pc.executes = some ⟨2, true, 1⟩) = true :=
    Machine.exists_reach (turnsRun.take 30) (by decide +kernel)
  obtain ⟨s, hreach, hs⟩ := hrun
  exact ⟨s, hreach, of_decide_eq_true hs, exclusive_of_settled (accepted_two Nat.two_pos) (placed_two 2) hreach⟩

/-- Thread 1 samples `round` for a batch of all while thread 2 is between its stores, and takes the next turn by
    `owner` while thread 2 executes for the round of all. -/
theorem turns_not_exclusive :
    ¬ ∀ c : Config, c.Accepted → Placed c → ∀ s, (machine c).Reachable s → Exclusive c s := by
  intro h
  obtain ⟨s, hreach, hs⟩ := Machine.exists_reachable (M := machine ⟨2, 4⟩)
    (p := fun s => (s.thread 1).pc.executes = some ⟨1, true, 5⟩ ∧ (s.thread 2).pc.executes = some ⟨-1, false, 4⟩)
    (schedule [(1, 4), (2, 4), (1, 5), (2, 7), (1, 10), (2, 13), (1, 14), (2, 45), (1, 4), (2, 2), (1, 6), (2, 4),
      (1, 10)]) (by decide +kernel)
  obtain ⟨h1, h2⟩ := of_decide_eq_true hs
  have := h ⟨2, 4⟩ (accepted_two (by decide)) (placed_two 4) s hreach 0 (by decide) 1 2 _ (by decide) (by decide) h1
    rfl (by decide)
  rw [h2] at this
  cases this

/-! ### The execution barrier -/

theorem barrier_of_reach (hc : c.Accepted) (hplaced : Placed c)
    (h : ((machine c).watch (observer c)).Reach (fun t p => Settled c t p.1) p) : Barrier p := by
  intro i hi j hj hv
  have hinv := (good_of_reach hc hplaced h i hi).inv
  rcases Nat.lt_or_eq_of_le hj with hlt | rfl
  · -- A round that is over: every member has done its part.
    obtain ⟨-, hval, hcount⟩ := hinv.earlier j hlt
    have hcount := hcount hv
    refine ⟨hval hv, fun t => ?_, fun t ht => ((hcount t).2 ht).1, fun _ t ht => (hcount t).1 ht,
      fun _ _ u hu => ((hcount u).1 hu).2⟩
    by_cases ht : t ∈ ((p.2 i).round j).members
    · have := (hcount t).1 ht
      simp only [view] at this
      omega
    · have := (hcount t).2 ht
      simp only [view] at this
      omega
  · refine ⟨(hinv.owner.all hv).2, fun t => ?_, fun t ht => ?_, fun hlt => absurd hlt (Nat.lt_irrefl _),
      fun t ht => hinv.leaves hv t ht⟩
    · rcases hinv.count hv t with ⟨-, hb, ha⟩ | ⟨-, ⟨hb, ha⟩ | ⟨hb, ha, -⟩ | ⟨hb, ha, -⟩⟩ <;>
        simp only [view, View.cur, Log.cur] at hb ha <;> omega
    · rcases hinv.count hv t with ⟨-, hb, -⟩ | ⟨hm, -⟩
      · exact hb
      · exact absurd hm ht

/-- In a fair run under the conditions every round of all members is completed: in the end it is over. -/
theorem barriersComplete_of_fair (hc : c.Accepted) (hplaced : Placed c) {r : ((machine c).watch (observer c)).Trace}
    (h : ((machine c).watch (observer c)).Reach (fun t p => Settled c t p.1 ∧ WakesPast c t p.1) (r.state 0))
    (hmeets : r.Meets fun t p => Settled c t p.1 ∧ WakesPast c t p.1) (hfair : r.Fair) : BarriersComplete c r := by
  intro n i hi j hj hv
  obtain ⟨m, hnm, hlt⟩ := exists_gen_lt hc hplaced h hmeets hfair hi hj hv.ne
  have hlater : ((r.state n).2 i).Later ((r.state m).2 i) := trace_later hnm
  have hbarrier := barrier_of_reach hc hplaced ((hmeets.reach h m).mono fun _ _ h => h.1)
  obtain ⟨-, -, -, hdone, -⟩ := hbarrier i hi j hlt.le (hlater.value j hj ▸ hv)
  refine ⟨m, hnm, fun t ht => hdone hlt t ?_⟩
  rwa [hlater.members j hj]

/-- In a run under the conditions, in which moreover a wake-up on `round` finds nobody who waits for the current round, every
    round of all members is a barrier; and if the run goes on, and nobody who can go on is kept from it for ever, then
    every such round is completed. -/
theorem barrier_of_settled (hc : c.Accepted) (hplaced : Placed c)
    (h : ((machine c).watch (observer c)).Reach (fun t p => Settled c t p.1 ∧ WakesPast c t p.1) p) :
    Barrier p ∧ ∀ r : ((machine c).watch (observer c)).Trace, r.state 0 = p →
      (r.Meets fun t p => Settled c t p.1 ∧ WakesPast c t p.1) → r.Fair → BarriersComplete c r := by
  refine ⟨barrier_of_reach hc hplaced (h.mono fun _ _ h => h.1), ?_⟩
  rintro r rfl hmeets hfair
  exact barriersComplete_of_fair hc hplaced h hmeets hfair

theorem barrier_of_settled_two : ∃ r : ((machine ⟨2, 2⟩).watch (observer ⟨2, 2⟩)).Trace, r.Fair ∧
    ((r.state 0).2 0).cur.value = -2 ∧ ((r.state 0).2 0).cur.adds 1 = 1 ∧ ((r.state 0).2 0).cur.adds 2 = 0 ∧
      Barrier (r.state 0) ∧ BarriersComplete ⟨2, 2⟩ r := by
  obtain ⟨r, hreach, hmeets, hfair, hp⟩ := exists_fair_two
  obtain ⟨hbarrier, hcomplete⟩ := barrier_of_settled (accepted_two Nat.two_pos) (placed_two 2) hreach
  exact ⟨r, hfair, hp.1, hp.2.1, hp.2.2, hbarrier, hcomplete r rfl hmeets hfair⟩

/-- Thread 1 samples `round` for a batch of all while thread 2 is between its stores, so that the store of thread 2
    lets it leave the barrier before thread 2 has come. -/
theorem barrier_left_early :
    ¬ ∀ c : Config, c.Accepted → Placed c → ∀ p, ((machine c).watch (observer c)).Reachable p → Barrier p := by
  intro h
  obtain ⟨p, hreach, hp⟩ := Machine.exists_reachable (M := (machine ⟨2, 4⟩).watch (observer ⟨2, 4⟩))
    (p := fun p => 4 ≤ (p.2 0).gen ∧ ((p.2 0).round 4).value < 0 ∧ 0 < ((p.2 0).round 4).leaves 1 ∧
      2 ∈ ((p.2 0).round 4).members ∧ ((p.2 0).round 4).adds 2 = 0)
    (schedule [(1, 4), (2, 4), (1, 5), (2, 7), (1, 10), (2, 13), (1, 14), (2, 45), (1, 4), (2, 1), (1, 7)])
    (by decide +kernel)
  obtain ⟨hgen, hv, hleaves, hmem, hadds⟩ := of_decide_eq_true hp
  have := (h ⟨2, 4⟩ (accepted_two (by decide)) (placed_two 4) p hreach 0 (by decide) 4 hgen hv).2.2.2.2 1 hleaves 2 hmem
  omega

/-! ### One scheduler for each round -/

theorem isWindow_roleIn : (roleIn c i s.thread u).isWindow = true ↔ Member c i u ∧ (s.thread u).pc.window = true := by
  unfold roleIn
  split
  · rename_i hu
    rw [role_isWindow]
    exact (and_iff_right hu).symm
  · rename_i hu
    exact iff_of_false Bool.false_ne_true fun h => hu h.1

theorem oneScheduler_of_reach (hc : c.Accepted) (hplaced : Placed c)
    (h : ((machine c).watch (observer c)).Reach (fun t p => Settled c t p.1) p) : OneScheduler c p := by
  intro i hi
  have hinv := (good_of_reach hc hplaced h i hi).inv
  refine ⟨fun j hj => ?_, hinv.blank⟩
  obtain ⟨u, hu⟩ := (hinv.earlier j hj).scheduler
  refine ⟨u, fun t => ⟨(hu t).1, (hu t).2.trans ?_⟩⟩
  have hwin := isWindow_roleIn (c := c) (s := p.1) (i := i) (u := u)
  simp only [view, hwin, and_assoc]

/-- In a fair run under the conditions every round that has members is over in the end, and whoever has scheduled it has
    stored to `round` some time after. -/
theorem roundsScheduled_of_fair (hc : c.Accepted) (hplaced : Placed c) {r : ((machine c).watch (observer c)).Trace}
    (h : ((machine c).watch (observer c)).Reach (fun t p => Settled c t p.1 ∧ WakesPast c t p.1) (r.state 0))
    (hmeets : r.Meets fun t p => Settled c t p.1 ∧ WakesPast c t p.1) (hfair : r.Fair) : RoundsScheduled c r := by
  intro n i hi j hj hv
  have hone : ∀ m, OneScheduler c (r.state m) :=
    fun m => oneScheduler_of_reach hc hplaced ((hmeets.reach h m).mono fun _ _ h => h.1)
  obtain ⟨m, hnm, hlt⟩ := exists_gen_lt hc hplaced h hmeets hfair hi hj hv
  obtain ⟨u, hu⟩ := (hone m i hi).1 j hlt
  have hclosed : ∃ m', m ≤ m' ∧ ¬ (Member c i u ∧ ((r.state m').1.thread u).pc.window = true) := by
    by_cases hmem : Member c i u
    · obtain ⟨m', hm', hwindow⟩ := (window_progress hmem).eventually (fun _ _ _ => trivial) hfair (n := m) trivial
      exact ⟨m', hm', fun hopen => Bool.false_ne_true (hwindow.symm.trans hopen.2)⟩
    · exact ⟨m, le_rfl, fun hopen => hmem hopen.1⟩
  obtain ⟨m', hm', hclosed⟩ := hclosed
  have hlater : ((r.state m).2 i).Later ((r.state m').2 i) := trace_later hm'
  obtain ⟨u', hu'⟩ := (hone m' i hi).1 j (hlt.trans_le hlater.gen)
  -- It is the same thread still.
  obtain rfl : u = u' := by
    by_contra hne
    have hkept := hlater.owners j hlt.le u
    rw [(hu u).1, (hu' u).1, if_pos rfl, if_neg hne] at hkept
    exact absurd hkept (Nat.not_succ_le_zero 0)
  refine ⟨m', hnm.trans hm', u, fun t => ⟨(hu' t).1, (hu' t).2.trans ?_⟩⟩
  have hdone : ¬ (Member c i u ∧ ((r.state m').1.thread u).pc.window = true ∧ ((r.state m').2 i).joined u = j) :=
    fun hopen => hclosed ⟨hopen.1, hopen.2.1⟩
  simp only [hdone, not_false_eq_true, and_true]

/-- In a run under the conditions, in which moreover a wake-up on `round` finds nobody who waits for the current round, no
    round is scheduled by more than one thread, and every one that is over has been by one; and if the run goes on, and
    nobody who can go on is kept from it for ever, then every round that has members is scheduled. -/
theorem oneScheduler_of_settled (hc : c.Accepted) (hplaced : Placed c)
    (h : ((machine c).watch (observer c)).Reach (fun t p => Settled c t p.1 ∧ WakesPast c t p.1) p) :
    OneScheduler c p ∧ ∀ r : ((machine c).watch (observer c)).Trace, r.state 0 = p →
      (r.Meets fun t p => Settled c t p.1 ∧ WakesPast c t p.1) → r.Fair → RoundsScheduled c r := by
  refine ⟨oneScheduler_of_reach hc hplaced (h.mono fun _ _ h => h.1), ?_⟩
  rintro r rfl hmeets hfair
  exact roundsScheduled_of_fair hc hplaced h hmeets hfair

theorem oneScheduler_of_settled_two : ∃ r : ((machine ⟨2, 2⟩).watch (observer ⟨2, 2⟩)).Trace, r.Fair ∧
    ((r.state 0).2 0).cur.value = -2 ∧ ((r.state 0).2 0).cur.adds 1 = 1 ∧ ((r.state 0).2 0).cur.adds 2 = 0 ∧
      OneScheduler ⟨2, 2⟩ (r.state 0) ∧ RoundsScheduled ⟨2, 2⟩ r := by
  obtain ⟨r, hreach, hmeets, hfair, hp⟩ := exists_fair_two
  obtain ⟨hone, hscheduled⟩ := oneScheduler_of_settled (accepted_two Nat.two_pos) (placed_two 2) hreach
  exact ⟨r, hfair, hp.1, hp.2.1, hp.2.2, hone, hscheduled r rfl hmeets hfair⟩

/-- Thread 2 looks for the leader after thread 1, the leader, has removed itself: both schedule. -/
theorem two_schedulers :
    ¬ ∀ c : Config, c.Accepted → Placed c → ∀ p, ((machine c).watch (observer c)).Reachable p → OneScheduler c p := by
  intro h
  obtain ⟨p, hreach, hp⟩ := Machine.exists_reachable (M := (machine ⟨2, 1⟩).watch (observer ⟨2, 1⟩))
    (p := fun p => 0 < (p.2 0).gen ∧ ((p.2 0).round 0).owners 1 = 1 ∧ ((p.2 0).round 0).owners 2 = 1)
    (schedule [(1, 10), (2, 11), (1, 36), (2, 36)]) (by decide +kernel)
  obtain ⟨hgen, h1, h2⟩ := of_decide_eq_true hp
  obtain ⟨u, hu⟩ := (h ⟨2, 1⟩ (accepted_two Nat.one_pos) (placed_two 1) p hreach 0 (by decide)).1 0 hgen
  have hu1 := (hu 1).1
  have hu2 := (hu 2).1
  rw [h1] at hu1
  rw [h2] at hu2
  split at hu1 <;> split at hu2 <;> omega

/-! ### Deadlock -/

/-- In a run under the conditions, in which moreover a wake-up on `round` finds nobody who waits for the current
    round, no group deadlocks. -/
theorem not_deadlocked_of_settled (hc : c.Accepted) (hplaced : Placed c)
    (h : (machine c).Reach (fun t s => Settled c t s ∧ WakesPast c t s) s) : ¬ Deadlocked c s := by
  rintro ⟨i, hi, ⟨t, ht, hlt⟩, hall⟩
  obtain ⟨logs, hw⟩ := h.watch (observer c)
  have hg := good_of_reach hc hplaced (hw.mono fun _ _ h => h.1) i hi
  have hsl := sleep_of_reach hc hplaced hw i hi
  have hempty : (view c i s logs).live = ∅ := by
    refine live_eq_empty hg.inv hsl fun u => hg.blocked fun hgoes => ?_
    rcases hall u hgoes.1 with hdone | hasleep
    · exact hgoes.2.1 hdone
    · rw [hgoes.2.2.1] at hasleep
      cases hasleep
  -- The thread with iterations left has not removed itself.
  have hok := (hg.thread t ht).2
  have hth : (s.group i).threads t = true := by
    rcases hall t ht with hdone | hasleep
    · rw [hdone] at hok
      exact absurd hok.1 (Nat.ne_of_lt hlt)
    · cases hpc : (s.thread t).pc <;> rw [hpc] at hasleep hok <;> first
        | exact hok.mpr hlt
        | cases hasleep
  have hmem : t ∈ (view c i s logs).live := mem_live.mpr ⟨lt_slots hc ht.2.1, hth⟩
  rw [hempty] at hmem
  exact absurd hmem (Finset.notMem_empty t)

theorem not_deadlocked_of_settled_two :
    ∃ s, (machine ⟨2, 1⟩).Reach (fun t s => Settled ⟨2, 1⟩ t s ∧ WakesPast ⟨2, 1⟩ t s) s ∧
      (s.thread 2).pc = .sleepRound 0 ∧ ¬ Deadlocked ⟨2, 1⟩ s := by
  have hrun : ∃ s, (machine ⟨2, 1⟩).Reach (fun t s => Settled ⟨2, 1⟩ t s ∧ WakesPast ⟨2, 1⟩ t s) s ∧
      decide ((s.thread 2).pc = .sleepRound 0) = true :=
    Machine.exists_reach (fairRun.take 40) (by decide +kernel)
  obtain ⟨s, hreach, hs⟩ := hrun
  exact ⟨s, hreach, of_decide_eq_true hs, not_deadlocked_of_settled (accepted_two Nat.one_pos) (placed_two 1) hreach⟩

/-- Thread 1 sleeps for good on the turn of thread 2, which has returned. -/
theorem deadlock :
    ¬ ∀ c : Config, c.Accepted → Placed c → ∀ s, (machine c).Reachable s → ¬ Deadlocked c s := by
  intro h
  obtain ⟨s, hreach, hs⟩ := Machine.exists_reachable (M := machine ⟨2, 4⟩)
    (p := fun s => (s.thread 1).i = 3 ∧ (s.thread 1).pc = .sleepOwner 2 ∧ (s.thread 2).pc = .done)
    (schedule [(1, 4), (2, 4), (1, 5), (2, 7), (1, 10), (2, 13), (1, 14), (2, 45), (1, 4), (2, 2), (1, 6), (2, 4),
      (1, 8), (2, 6), (1, 2), (2, 4)]) (by decide +kernel)
  obtain ⟨h1, h2, h3⟩ := of_decide_eq_true hs
  refine h ⟨2, 4⟩ (accepted_two (by decide)) (placed_two 4) s hreach
    ⟨0, by decide, ⟨1, by decide, by rw [h1]; decide⟩, fun t ht => ?_⟩
  have h1t := ht.1
  have htn := ht.2.1
  obtain rfl | rfl : t = 1 ∨ t = 2 := by simp only at htn; omega
  · exact Or.inr (by rw [h2]; rfl)
  · exact Or.inl h3

end Racey.Futex
