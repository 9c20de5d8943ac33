import Racey.Theorems.TestPl

/-! A call of `testprog` that begins with no open pipes: never more than `-j` of its runs are in flight, their
    outputs are read in the order in which the runs were started, and what it returns depends on these outputs
    alone. The exit status of test.pl does not depend on what the calls return. -/

namespace Racey.TestPl

variable {nrep njobs : ℕ} {runs : ℕ → Output}

/-! ### What holds of a call -/

/-- What a call keeps, where `read` are the runs whose outputs it has read: these and then the runs in flight are
    the runs it has started, in order. -/
structure Inv (nrep njobs : ℕ) (runs : ℕ → Output) (s : Call) (read : List ℕ) : Prop where
  queue : read ++ s.pipes = List.range s.started
  done : read.length = s.done
  started_le : s.started ≤ nrep
  flight : s.pipes.length ≤ njobs
  more : s.pc = .fill ∨ s.pc = .wait → s.done < nrep
  wait : s.pc = .wait → s.pipes ≠ []
  seen : (∀ v, s.pc ≠ .returned v) → Seen runs s.done s.sig
  returned : ∀ v, s.pc = .returned v → (v = 1 ∧ s.done = nrep ∧ Agree runs nrep) ∨ (v = 0 ∧ ¬Agree runs nrep)

theorem Inv.length {s : Call} {read : List ℕ} (h : Inv nrep njobs runs s read) :
    s.done + s.pipes.length = s.started := by
  rw [← h.done, ← List.length_append, h.queue, List.length_range]

theorem inv_start : Inv nrep njobs runs (call nrep njobs runs).init [] where
  queue := rfl
  done := rfl
  started_le := Nat.zero_le nrep
  flight := Nat.zero_le njobs
  more h := by rcases h with h | h <;> cases h
  wait h := by cases h
  seen _ := .inl ⟨rfl, rfl⟩
  returned v h := by cases h

/-- The run at the head of the queue is the next one in the order of the starts. -/
theorem Inv.head {s : Call} {read pipes : List ℕ} {r : ℕ} (h : Inv nrep njobs runs s read) (hp : s.pipes = r :: pipes) :
    r = s.done := by
  have hq := h.queue
  rw [hp] at hq
  have hr : (read ++ r :: pipes)[read.length]? = some r := by simp
  rw [hq, h.done, List.getElem?_range] at hr
  · exact (Option.some.inj hr).symm
  · have := h.length
    rw [hp, List.length_cons] at this
    omega

/-- A read moves the head of the queue to the runs that have been read. -/
theorem Inv.queue_read {s : Call} {read pipes : List ℕ} {r : ℕ} (h : Inv nrep njobs runs s read)
    (hp : s.pipes = r :: pipes) :
    (read ++ s.pipes.head?.toList) ++ pipes = List.range s.started ∧
    (read ++ s.pipes.head?.toList).length = s.done + 1 ∧ pipes.length ≤ njobs := by
  have hq := h.queue
  have hl := h.flight
  rw [hp] at hq hl ⊢
  refine ⟨by simpa using hq, by simp [h.done], Nat.le_of_succ_le hl⟩

/-- A call that reads one of its outputs and does not go on returns 0, for good reason. -/
theorem Inv.fail {s : Call} {read pipes : List ℕ} {r : ℕ} (h : Inv nrep njobs runs s read)
    (hp : s.pipes = r :: pipes) (hlt : s.done < nrep) (hnot : ¬Agree runs (s.done + 1)) :
    Inv nrep njobs runs { s with pc := .returned 0, done := s.done + 1, pipes := pipes }
      (read ++ s.pipes.head?.toList) where
  queue := (h.queue_read hp).1
  done := (h.queue_read hp).2.1
  started_le := h.started_le
  flight := (h.queue_read hp).2.2
  more h := by rcases h with h | h <;> cases h
  wait h := by cases h
  seen h := absurd rfl (h 0)
  returned v hv := by
    cases hv
    exact .inr ⟨rfl, fun hagree => hnot (hagree.mono hlt)⟩

theorem Inv.step (hj : 0 < njobs) {s s' : Call} {read : List ℕ} (h : Inv nrep njobs runs s read)
    (hs : Call.step nrep njobs runs s = some s') : Inv nrep njobs runs s' (reader.note () s read) := by
  obtain ⟨pc, started, done, pipes, sig⟩ := s
  cases pc with
  | loop =>
    obtain rfl := Option.some.inj hs
    have hseen := h.seen (fun v hv => by cases hv)
    have hlen : done + pipes.length = started := h.length
    have hle : started ≤ nrep := h.started_le
    by_cases hlt : done < nrep
    · simp only [if_pos hlt]
      exact ⟨h.queue, h.done, h.started_le, h.flight, fun _ => hlt, fun hpc => (by cases hpc), fun _ => hseen,
        fun v hv => by cases hv⟩
    · obtain rfl : done = nrep := by omega
      simp only [if_neg hlt]
      refine ⟨h.queue, h.done, h.started_le, h.flight, fun hpc => ?_, fun hpc => (by cases hpc),
        fun hpc => absurd rfl (hpc 1), fun v hv => ?_⟩
      · rcases hpc with hpc | hpc <;> cases hpc
      · cases hv
        exact .inl ⟨rfl, rfl, hseen.agree⟩
  | fill =>
    have hlen : done + pipes.length = started := h.length
    have hlt : done < nrep := h.more (.inl rfl)
    have hseen := h.seen (fun v hv => by cases hv)
    simp only [Call.step] at hs
    split at hs
    · rename_i hroom
      obtain rfl := Option.some.inj hs
      refine ⟨?_, h.done, hroom.1, ?_, fun _ => hlt, fun hpc => (by cases hpc), fun _ => hseen, fun v hv => by cases hv⟩
      · have hq : read ++ pipes = List.range started := h.queue
        show read ++ (pipes ++ [started]) = List.range (started + 1)
        rw [← List.append_assoc, hq, List.range_succ]
      · show (pipes ++ [started]).length ≤ njobs
        rw [List.length_append]
        exact hroom.2
    · rename_i hroom
      obtain rfl := Option.some.inj hs
      refine ⟨h.queue, h.done, h.started_le, h.flight, fun _ => hlt, fun _ hnil => ?_, fun _ => hseen,
        fun v hv => by cases hv⟩
      -- With no run in flight, there is one to start, and room for it.
      simp only at hnil
      rw [hnil, List.length_nil] at hlen hroom
      exact hroom ⟨by omega, hj⟩
  | wait =>
    have hlt : done < nrep := h.more (.inr rfl)
    have hseen := h.seen (fun v hv => by cases hv)
    simp only [Call.step] at hs
    cases pipes with
    | nil => exact absurd rfl (h.wait rfl)
    | cons r pipes =>
      obtain rfl : r = done := h.head rfl
      simp only at hs
      cases hm : signature (runs r) with
      | none =>
        rw [hm] at hs
        obtain rfl := Option.some.inj hs
        refine h.fail rfl hlt ?_
        rintro ⟨m, hagree⟩
        have := hagree r (Nat.lt_succ_self r)
        rw [hm] at this
        cases this
      | some m =>
        simp only [hm] at hs
        split at hs
        · rename_i heq
          obtain rfl := Option.some.inj hs
          obtain ⟨hq, hd, hl⟩ := h.queue_read rfl
          refine ⟨hq, hd, h.started_le, hl, fun hpc => ?_, fun hpc => (by cases hpc), fun _ => hseen.next hm heq,
            fun v hv => by cases hv⟩
          rcases hpc with hpc | hpc <;> cases hpc
        · rename_i hne
          obtain rfl := Option.some.inj hs
          exact h.fail rfl hlt (hseen.not_agree hm hne)
  | returned v => cases hs

theorem inv_of_reachable (hj : 0 < njobs) {p : Call × List ℕ}
    (h : ((call nrep njobs runs).watch reader).Reachable p) : Inv nrep njobs runs p.1 p.2 := by
  refine h.invariant (I := fun p => Inv nrep njobs runs p.1 p.2) inv_start fun _ p q hp _ hs => ?_
  obtain ⟨hstep, hnote⟩ := Machine.watch_step_eq_some.mp hs
  rw [hnote]
  exact hp.step hj hstep

/-! ### A call returns what `testprog` computes -/

theorem reach_step {s s' : Call} (h : (call nrep njobs runs).Reachable s) (hs : Call.step nrep njobs runs s = some s') :
    (call nrep njobs runs).Reachable s' := h.step () trivial hs

theorem fill_reaches {done : ℕ} {sig : Option (List Char)} (todo : ℕ) {started : ℕ} {pipes : List ℕ}
    (htodo : todo = nrep - started) (h : (call nrep njobs runs).Reachable ⟨.fill, started, done, pipes, sig⟩) :
    ∃ pipes', (startprogs njobs runs todo started (pipes.map runs)).2 = pipes'.map runs ∧
      (call nrep njobs runs).Reachable
        ⟨.wait, (startprogs njobs runs todo started (pipes.map runs)).1, done, pipes', sig⟩ := by
  induction todo generalizing started pipes with
  | zero =>
    refine ⟨pipes, rfl, reach_step h ?_⟩
    have hfull : ¬(started < nrep ∧ pipes.length < njobs) := by omega
    exact if_neg hfull
  | succ todo ih =>
    unfold startprogs
    rw [List.length_map]
    split
    · rename_i hlt
      have hroom : started < nrep ∧ pipes.length < njobs := ⟨by omega, hlt⟩
      have hnext : (call nrep njobs runs).Reachable ⟨.fill, started + 1, done, pipes ++ [started], sig⟩ :=
        reach_step h (if_pos hroom)
      have hmap : pipes.map runs ++ [runs started] = (pipes ++ [started]).map runs := by
        rw [List.map_append, List.map_singleton]
      rw [hmap]
      exact ih (by omega) hnext
    · rename_i hge
      have hfull : ¬(started < nrep ∧ pipes.length < njobs) := fun hroom => hge hroom.2
      exact ⟨pipes, rfl, reach_step h (if_neg hfull)⟩

/-- The call has returned with this result. -/
def Call.Returns (runs : ℕ → Output) (s : Call) (r : Result) : Prop :=
  s.pc = .returned r.value ∧ s.started = r.started ∧ s.pipes.map runs = r.pipes

theorem loop_reaches (left : ℕ) {started done : ℕ} {pipes : List ℕ} {sig : Option (List Char)}
    (hleft : left = nrep - done) (h : (call nrep njobs runs).Reachable ⟨.loop, started, done, pipes, sig⟩) :
    ∃ s, (call nrep njobs runs).Reachable s ∧
      s.Returns runs (testLoop nrep njobs runs left started sig (pipes.map runs)) := by
  induction left generalizing started done pipes sig with
  | zero =>
    have hdone : ¬done < nrep := by omega
    refine ⟨⟨.returned 1, started, done, pipes, sig⟩, reach_step h ?_, rfl, rfl, rfl⟩
    simp only [Call.step, if_neg hdone]
  | succ left ih =>
    have hlt : done < nrep := by omega
    have hfill : (call nrep njobs runs).Reachable ⟨.fill, started, done, pipes, sig⟩ := by
      refine reach_step h ?_
      simp only [Call.step, if_pos hlt]
    obtain ⟨pipes', hpipes, hwait⟩ := fill_reaches (nrep - started) rfl hfill
    unfold testLoop
    generalize startprogs njobs runs (nrep - started) started (pipes.map runs) = p at hpipes hwait
    obtain ⟨started', outputs⟩ := p
    simp only at hpipes hwait ⊢
    subst hpipes
    cases pipes' with
    | nil => exact ⟨_, reach_step hwait rfl, rfl, rfl, rfl⟩
    | cons r pipes' =>
      simp only [List.map_cons]
      cases hm : signature (runs r) with
      | none =>
        refine ⟨⟨.returned 0, started', done + 1, pipes', sig⟩, reach_step hwait ?_, rfl, rfl, rfl⟩
        simp only [Call.step, hm]
      | some m =>
        simp only
        split
        · rename_i heq
          have hnext : (call nrep njobs runs).Reachable ⟨.loop, started', done + 1, pipes', some (sig.getD m)⟩ := by
            refine reach_step hwait ?_
            simp only [Call.step, hm, if_pos heq]
          exact ih (by omega) hnext
        · rename_i hne
          refine ⟨⟨.returned 0, started', done + 1, pipes', sig⟩, reach_step hwait ?_, rfl, rfl, rfl⟩
          simp only [Call.step, hm, if_neg hne]

theorem call_returns : ∃ s, (call nrep njobs runs).Reachable s ∧ s.Returns runs (testprog nrep njobs runs []) :=
  loop_reaches nrep rfl .init

theorem value_eq_one_iff_agree (runs : ℕ → Output) (hn : 0 < nrep) (hj : 0 < njobs) :
    (testprog nrep njobs runs []).value = 1 ↔ Agree runs nrep := by
  rw [value_eq_one_iff runs hn hj, feed_nil]

theorem value_cases (runs : ℕ → Output) (hn : 0 < nrep) (hj : 0 < njobs) :
    (testprog nrep njobs runs []).value = 0 ∨ (testprog nrep njobs runs []).value = 1 := value_le_one runs hn hj

theorem value_eq_of_njobs {njobs' : ℕ} (hn : 0 < nrep) (hj : 0 < njobs) (hj' : 0 < njobs') :
    (testprog nrep njobs' runs []).value = (testprog nrep njobs runs []).value := by
  have hiff := (value_eq_one_iff_agree runs hn hj').trans (value_eq_one_iff_agree runs hn hj).symm
  rcases value_cases runs hn hj with h | h
  · rw [h] at hiff ⊢
    exact (value_cases runs hn hj').resolve_right fun h' => Nat.zero_ne_one (hiff.mp h')
  · rw [h] at hiff ⊢
    exact hiff.mpr rfl

/-- What a call of `testprog` that begins with no open pipes does. -/
structure Tested (nrep njobs : ℕ) (runs : ℕ → Output) : Prop where
  /-- At most `-j` runs are in flight at any time. -/
  flight : ∀ p, ((call nrep njobs runs).watch reader).Reachable p → p.1.pipes.length ≤ njobs
  /-- The outputs are read in the order in which the runs were started. -/
  order : ∀ p, ((call nrep njobs runs).watch reader).Reachable p → p.2 ++ p.1.pipes = List.range p.1.started
  returns : ∃ s, (call nrep njobs runs).Reachable s ∧ s.Returns runs (testprog nrep njobs runs [])
  /-- It returns 1 exactly if the outputs all have a signature, and the same one. -/
  verdict : ∀ p v, ((call nrep njobs runs).watch reader).Reachable p → p.1.pc = .returned v →
    v = (testprog nrep njobs runs []).value ∧ (v = 1 ↔ ∃ sig, ∀ r < nrep, signature (runs r) = some sig)
  /-- Then `-n` runs have been started, and all have been read. -/
  complete : ∀ p, ((call nrep njobs runs).watch reader).Reachable p → p.1.pc = .returned 1 →
    p.1.started = nrep ∧ p.2 = List.range nrep ∧ p.1.pipes = []
  /-- What it returns does not depend on `-j`. -/
  jobs : ∀ njobs' ≥ 1, (testprog nrep njobs' runs []).value = (testprog nrep njobs runs []).value

theorem tested (hn : 2 ≤ nrep) (hj : 1 ≤ njobs) (runs : ℕ → Output) : Tested nrep njobs runs where
  flight _ hp := (inv_of_reachable hj hp).flight
  order _ hp := (inv_of_reachable hj hp).queue
  returns := call_returns
  verdict p v hp hv := by
    have hpos : 0 < nrep := by omega
    have hone := value_eq_one_iff_agree runs hpos hj
    rcases (inv_of_reachable hj hp).returned v hv with ⟨rfl, -, hagree⟩ | ⟨rfl, hnot⟩
    · exact ⟨(hone.mpr hagree).symm, iff_of_true rfl hagree⟩
    · have hzero : (testprog nrep njobs runs []).value = 0 :=
        (value_cases runs hpos hj).resolve_right fun h1 => hnot (hone.mp h1)
      exact ⟨hzero.symm, iff_of_false Nat.zero_ne_one hnot⟩
  complete p hp hv := by
    have h := inv_of_reachable hj hp
    rcases h.returned 1 hv with ⟨-, hdone, -⟩ | ⟨h10, -⟩
    · have hlen := h.length
      have hle := h.started_le
      have hnil : p.1.pipes = [] := List.eq_nil_of_length_eq_zero (by omega)
      have hstarted : p.1.started = nrep := by omega
      have hq := h.queue
      rw [hnil, List.append_nil, hstarted] at hq
      exact ⟨hstarted, hq, hnil⟩
    · exact absurd h10 Nat.one_ne_zero
  jobs _ hj' := value_eq_of_njobs (by omega) hj hj'

theorem tested_three : Tested 3 2 fun _ => goodOutput ['0'] := tested (by decide) (by decide) _

/-! ### The exit status -/

theorem pipes_eq_nil_of_value {runs : ℕ → Output} (hn : 0 < nrep) (hj : 0 < njobs)
    (h : (testprog nrep njobs runs []).value = 1) : (testprog nrep njobs runs []).pipes = [] :=
  (pipes_eq_nil_iff runs hn hj).mpr
    (.inr (((value_eq_one_iff_agree runs hn hj).mp h).mono (Nat.sub_le nrep 1)))

/-- As long as the calls return 1 they leave no pipes open, so that each judges its program by its own runs. -/
theorem testAll_eq_one_iff (hn : 0 < nrep) (hj : 0 < njobs) (runs : String → ℕ → Output) (progs : List String) :
    (∀ v ∈ (testAll nrep njobs runs progs []).1, v = 1) ↔ ∀ p ∈ progs, Agree (runs p) nrep := by
  induction progs with
  | nil => exact iff_of_true (fun v hv => absurd hv List.not_mem_nil) fun p hp => absurd hp List.not_mem_nil
  | cons p progs ih =>
    simp only [testAll, List.forall_mem_cons, value_eq_one_iff_agree (runs p) hn hj]
    refine and_congr_right fun hagree => ?_
    rw [pipes_eq_nil_of_value hn hj ((value_eq_one_iff_agree (runs p) hn hj).mpr hagree)]
    exact ih

theorem testpl_of_accepted {o : Options} {runs : String → ℕ → Output} (h : o.rejected = false) :
    testpl o runs = (0, (testAll (o.nrep.getD 0).toNat o.njobs.toNat runs o.progs []).1) := by
  rw [testpl, h]
  rfl

theorem accepted_bounds {o : Options} (h : o.rejected = false) :
    0 < (o.nrep.getD 0).toNat ∧ 0 < o.njobs.toNat := by
  simp only [Options.rejected, Bool.or_eq_false_iff, decide_eq_false_iff_not] at h
  omega

/-- Every program passes exactly if the outputs of its own runs agree. -/
theorem passed_iff {o : Options} (h : o.rejected = false) (runs : String → ℕ → Output) :
    (∀ v ∈ (testpl o runs).2, v = 1) ↔ ∀ p ∈ o.progs, Agree (runs p) (o.nrep.getD 0).toNat := by
  obtain ⟨hn, hj⟩ := accepted_bounds h
  rw [testpl_of_accepted h]
  exact testAll_eq_one_iff hn hj runs o.progs

theorem reported_iff {o : Options} (h : o.rejected = false) (runs : String → ℕ → Output) :
    Reported o runs ↔ ∀ p ∈ o.progs, Agree (runs p) (o.nrep.getD 0).toNat := by
  rw [← passed_iff h, Reported, testpl_of_accepted h]
  exact iff_true_left rfl

theorem testEach_eq_zero_iff {status : Setting → ℕ} (l : List Setting) :
    (testEach status l).1 = 0 ↔ ∀ s ∈ l, status s = 0 := by
  induction l with
  | nil => exact iff_of_true rfl fun s hs => absurd hs List.not_mem_nil
  | cons s l ih =>
    rw [testEach, List.forall_mem_cons]
    split
    · rename_i hs
      rw [ih, and_iff_right hs]
    · rename_i hs
      exact iff_of_false Nat.one_ne_zero fun h => hs h.1

theorem testEach_congr {status status' : Setting → ℕ} {l : List Setting} (h : ∀ s ∈ l, status s = status' s) :
    testEach status l = testEach status' l := by
  induction l with
  | nil => rfl
  | cons s l ih =>
    rw [List.forall_mem_cons] at h
    rw [testEach, testEach, h.1, ih h.2]

theorem Setting.options_rejected {o : Options} (h : o.rejected = false) (s : Setting) :
    (s.options o).rejected = false := by
  simp only [Options.rejected, Bool.or_eq_false_iff, decide_eq_false_iff_not] at h ⊢
  exact ⟨⟨⟨⟨⟨⟨rfl, rfl⟩, rfl⟩, h.1.1.1.2⟩, (by decide : ¬(100 : ℤ) < 2)⟩, h.1.2⟩, h.2⟩

/-- testmany.sh goes through all its settings whatever the outcomes. -/
theorem stopsAtFirst_iff {o : Options} (h : o.rejected = false) (runs : Setting → String → ℕ → Output) :
    StopsAtFirst o runs ↔ ∀ s ∈ settings, ∀ p ∈ o.progs, Agree (runs s p) 100 := by
  have hall : testmany o runs = testEach (fun _ => 0) settings := testEach_congr fun s _ => by
    rw [testpl_of_accepted (s.options_rejected h)]
  have hpass (s : Setting) := passed_iff (s.options_rejected h) (runs s)
  rw [StopsAtFirst, hall]
  constructor
  · intro heq s hs
    have hzero : (testEach (fun _ => 0) settings).1 = 0 := (testEach_eq_zero_iff settings).mpr fun _ _ => rfl
    rw [heq, testEach_eq_zero_iff] at hzero
    have hs' := hzero s hs
    split at hs'
    · rename_i hone
      exact (hpass s).mp hone
    · cases hs'
  · intro hagree
    refine testEach_congr fun s hs => ?_
    rw [if_pos ((hpass s).mpr (hagree s hs))]

/-- The exit status of test.pl tells whether all programs have passed, and testmany.sh stops at the first failure,
    exactly if nothing fails: every program's outputs agree, for testmany.sh in every setting. -/
theorem failure_reported_iff {o : Options} (h : o.rejected = false) :
    (∀ runs, Reported o runs ↔ ∀ p ∈ o.progs, ∃ sig, ∀ r < (o.nrep.getD 0).toNat, signature (runs p r) = some sig) ∧
    ∀ runs, StopsAtFirst o runs ↔
      ∀ s ∈ settings, ∀ p ∈ o.progs, ∃ sig, ∀ r < 100, signature (runs s p r) = some sig :=
  ⟨reported_iff h, stopsAtFirst_iff h⟩

/-- Two runs of racey-basic, one at a time. -/
def twoRuns : Options := ⟨some 2, some 2, some 1003, 1, "", ["basic"]⟩

theorem failure_reported_iff_two :
    (∀ runs, Reported twoRuns runs ↔
      ∀ p ∈ twoRuns.progs, ∃ sig, ∀ r < (twoRuns.nrep.getD 0).toNat, signature (runs p r) = some sig) ∧
    ∀ runs, StopsAtFirst twoRuns runs ↔
      ∀ s ∈ settings, ∀ p ∈ twoRuns.progs, ∃ sig, ∀ r < 100, signature (runs s p r) = some sig :=
  failure_reported_iff (by decide)

/-- The runs print nothing: `testprog` returns 0 for the one program, and test.pl exits with status 0. In testmany.sh,
    the same happens in each setting, and the script goes on to the last. -/
theorem failure_not_reported : (testpl twoRuns fun _ _ => []) = (0, [0]) ∧ ¬Reported twoRuns (fun _ _ => []) ∧
    testmany twoRuns (fun _ _ _ => []) = (0, settings) ∧ ¬StopsAtFirst twoRuns fun _ _ _ => [] := by
  decide +kernel

end Racey.TestPl
