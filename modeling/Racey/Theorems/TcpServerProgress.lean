import Racey.Theorems.TcpServerStreams

/-! racey-tcp-server closes what it has accepted: there is always a worker, or `main`, that can get a connection on, and each
    of these steps lowers what is left to do. -/

namespace Racey.TcpServer
open Machine Holders

variable {memory : ℤ → ℤ} {streams : ℕ → List UInt8} {old : List UInt8} {s s' : State} {o : Log} {a : Move} {w : ℕ}

/-! ### Who can get on -/

/-- Descriptors are positive, and there are `WORKER_NUM` workers. -/
structure Sound (s : State) : Prop where
  positive : ∀ fd, s.conn fd ≠ none → 0 < fd
  idle : ∀ w, workerNum ≤ w → s.worker w = .poll

theorem sound_start : Sound (start memory streams old) where
  positive _ h := absurd rfl h
  idle _ _ := rfl

def Move.worker : Move → Option ℕ
  | .poll w | .read w _ | .readFails w | .write w | .close w => some w
  | _ => none

theorem lt_workerNum_of_step (hs : step a s = some s') (ha : a.worker = some w) : w < workerNum := by
  cases a with
  | accept | acceptFails | push => cases ha
  | poll v | read v n | readFails v | write v | close v =>
    cases ha
    simp only [step, stepWorker, Option.ite_none_right_eq_some] at hs
    exact hs.1.1

/-- A step of a worker leaves the others, and closes no descriptor but its own. -/
theorem Sound.step (H : Sound s) (hok : Assumed a s) (hs : TcpServer.step a s = some s') : Sound s' := by
  have hlt : ∀ {w}, a.worker = some w → ∀ v, workerNum ≤ v → v ≠ w := fun ha v hv =>
    (lt_of_lt_of_le (lt_workerNum_of_step hs ha) hv).ne'
  cases step_cases hs with
  | accept fd hmain hfd =>
    refine ⟨fun fd' h => ?_, H.idle⟩
    by_cases heq : fd' = fd
    · subst heq
      exact hok
    · exact H.positive fd' fun hnone => h ((Function.update_of_ne heq _ _).trans hnone)
  | acceptFails | push | full | empty => exact ⟨H.positive, H.idle⟩
  | take w hw | read w n fd k hw | readFails w fd hw | write w fd chunk hw | writeFails w fd hw =>
    exact ⟨H.positive, fun v hv => (Function.update_of_ne (hlt rfl v hv) _ _).trans (H.idle v hv)⟩
  | close w fd hw =>
    refine ⟨fun fd' h => ?_, fun v hv => (Function.update_of_ne (hlt rfl v hv) _ _).trans (H.idle v hv)⟩
    by_cases heq : fd' = fd
    · subst heq
      exact absurd (Function.update_self ..) h
    · exact H.positive fd' fun hnone => h ((Function.update_of_ne heq _ _).trans hnone)

/-- Some step can be made by which a connection gets on. -/
def Goes (s : State) : Prop := ∃ a, Works a s ∧ (step a s).isSome

theorem exists_canRead (unread : List UInt8) : ∃ n, CanRead unread n := by
  refine ⟨min 256 unread.length, Nat.min_le_left _ _, Nat.min_le_right _ _, fun h => ?_⟩
  exact List.length_eq_zero_iff.mp (by omega)

/-- A worker that has a connection can get on. -/
theorem goes_of_worker (T : Table s) (hmain : s.main ≠ .returned) (hw : w < workerNum) (hpc : s.worker w ≠ .poll) : Goes s := by
  cases hworker : s.worker w with
  | poll => exact absurd hworker hpc
  | read fd =>
    obtain ⟨k, hk⟩ := T.exists_conn (h := .worker w) (r := fd) (by rw [holds, hworker]; rfl)
    obtain ⟨n, hn⟩ := exists_canRead (s.unread k)
    exact ⟨.read w n, trivial, by simp [step, stepWorker, hw, hmain, hworker, hk, hn]⟩
  | write fd chunk => exact ⟨.write w, trivial, by simp [step, stepWorker, hw, hmain, hworker]⟩
  | close fd => exact ⟨.close w, trivial, by simp [step, stepWorker, hw, hmain, hworker]⟩

/-- What is on the stack can be taken, unless the worker has something else to do. -/
theorem goes_of_stack (T : Table s) (H : Sound s) (hmain : s.main ≠ .returned) (hidx : 0 ≤ s.clientIdx) : Goes s := by
  have hw : 0 < workerNum := by decide
  by_cases hpc : s.worker 0 = .poll
  · obtain ⟨k, hk⟩ := T.exists_conn (holds_slot ⟨hidx, le_refl s.clientIdx⟩)
    have htop := H.positive _ (by rw [hk]; simp)
    exact ⟨.poll 0, htop, by simp [step, stepWorker, hw, hmain, hpc]⟩
  · exact goes_of_worker T hmain hw hpc

/-- As long as a connection is open, some connection can get on. -/
theorem goes_of_open (T : Table s) (H : Sound s) (hmain : s.main ≠ .returned) {fd : ℤ} (hfd : s.conn fd ≠ none) : Goes s := by
  obtain ⟨h, hh⟩ := (T.owned.live_iff fd).mp hfd
  cases h with
  | main =>
    obtain ⟨clientFd, hpush⟩ : ∃ clientFd, s.main = .push clientFd := by
      cases hpc : s.main with
      | push clientFd => exact ⟨clientFd, rfl⟩
      | _ =>
        simp only [holds, hpc] at hh
        cases hh
    by_cases hroom : s.clientIdx + 1 < workerNum
    · exact ⟨.push, hroom, by simp [step, stepMain, hpush]⟩
    · have hpos : (0 : ℤ) < workerNum := by decide
      exact goes_of_stack T H hmain (by omega)
  | slot i =>
    obtain ⟨hi, -⟩ := Option.ite_none_right_eq_some.mp hh
    exact goes_of_stack T H hmain (hi.1.trans hi.2)
  | worker w =>
    have hpc : s.worker w ≠ .poll := fun hpc => by
      rw [holds, hpc] at hh
      cases hh
    refine goes_of_worker T hmain (not_le.mp fun hge => hpc (H.idle w hge)) hpc

/-! ### What is left to do -/

/-- How many steps the worker has still to make if its connection holds no more bytes. -/
def WorkerPc.left : WorkerPc → ℕ
  | .poll => 0
  | .read _ => 3
  | .write _ none => 2
  | .write _ (some chunk) => if chunk.length > 0 then 4 else 2
  | .close _ => 1

def MainPc.left : MainPc → ℕ
  | .push _ => 5
  | _ => 0

def workersLeft (worker : ℕ → WorkerPc) : ℕ := ∑ w ∈ Finset.range workerNum, (worker w).left

def bytesLeft (accepted : ℕ) (unread : ℕ → List UInt8) : ℕ := ∑ k ∈ Finset.range accepted, (unread k).length

def left (s : State) : ℕ :=
  3 * bytesLeft s.accepted s.unread + workersLeft s.worker + 4 * (s.clientIdx + 1).toNat + s.main.left

theorem workersLeft_update (worker : ℕ → WorkerPc) (hw : w < workerNum) (pc : WorkerPc) :
    workersLeft (Function.update worker w pc) + (worker w).left = workersLeft worker + pc.left := by
  have hsum := sum_change (S := Finset.range workerNum) (f := fun v => (worker v).left)
    (g := fun v => (Function.update worker w pc v).left) (i := w) (Finset.mem_range.mpr hw) fun v hv => by
      simp only [Function.update_of_ne hv]
  simp only [Function.update_self] at hsum
  exact hsum

/-- What is read is not left to be read. -/
theorem bytesLeft_update {accepted k n : ℕ} {unread : ℕ → List UInt8} (hk : k < accepted) (hn : n ≤ (unread k).length) :
    bytesLeft accepted (Function.update unread k ((unread k).drop n)) + n = bytesLeft accepted unread := by
  have hsum := sum_change (S := Finset.range accepted) (f := fun j => (unread j).length)
    (g := fun j => (Function.update unread k ((unread k).drop n) j).length) (i := k) (Finset.mem_range.mpr hk)
    fun j hj => by simp only [Function.update_of_ne hj]
  simp only [Function.update_self, List.length_drop] at hsum
  unfold bytesLeft
  omega

theorem left_step (T : Table s) (ha : Works a s) (hs : step a s = some s') : left s' < left s := by
  have hlt : ∀ {w}, a.worker = some w → w < workerNum := fun ha => lt_workerNum_of_step hs ha
  cases step_cases hs with
  | accept | acceptFails | readFails => exact ha.elim
  | full fd hmain hroom =>
    have hroom' : s.clientIdx + 1 < workerNum := ha
    exact absurd (by omega) hroom
  | empty w hw htop => exact absurd ha htop
  | push fd hmain hroom =>
    have hlow := T.bounded.1
    simp only [left, hmain, MainPc.left]
    omega
  | take w hw htop =>
    have h0 := T.idx_nonneg htop
    have hworkers := workersLeft_update s.worker (hlt rfl) (.read (s.clientFds s.clientIdx))
    simp only [hw, WorkerPc.left] at hworkers
    simp only [left, State.setWorker]
    omega
  | read w n fd k hw hk hcan =>
    have hworkers := workersLeft_update s.worker (hlt rfl) (.write fd (some ((s.unread k).take n)))
    have hbytes := bytesLeft_update (T.conn_lt fd k hk) hcan.2.1
    simp only [hw, WorkerPc.left, List.length_take, min_eq_left hcan.2.1] at hworkers
    simp only [left, State.read, State.setWorker]
    split at hworkers <;> omega
  | write w fd chunk hw =>
    have hworkers := workersLeft_update s.worker (hlt rfl) (if chunk.length > 0 then .read fd else .close fd)
    have hdown : (if chunk.length > 0 then WorkerPc.read fd else .close fd).left + 1 = (s.worker w).left := by
      rw [hw]
      by_cases hlen : chunk.length > 0
      · simp only [WorkerPc.left, if_pos hlen]
      · simp only [WorkerPc.left, if_neg hlen]
    simp only [left, State.write, State.setWorker]
    omega
  | writeFails w fd hw =>
    have hworkers := workersLeft_update s.worker (hlt rfl) (.close fd)
    simp only [hw, WorkerPc.left] at hworkers
    simp only [left, State.setWorker]
    omega
  | close w fd hw =>
    have hworkers := workersLeft_update s.worker (hlt rfl) .poll
    simp only [hw, WorkerPc.left] at hworkers
    simp only [left, State.close, State.setWorker]
    omega

/-! ### Everything is closed -/

/-- What holds in every state reached while the assumptions are met. -/
structure Running (streams : ℕ → List UInt8) (old : List UInt8) (p : State × Log) : Prop where
  table : Table p.1
  streams : Streams streams old p.1 p.2
  sound : Sound p.1

theorem running_start (hm : memory (-1) ≤ 0) : Running streams old (start memory streams old, .start) :=
  ⟨table_start hm, streams_start, sound_start⟩

theorem Running.step {p q : State × Log} (R : Running streams old p) (hok : Assumed a p.1)
    (hs : ((machine memory streams old).watch observer).step a p = some q) : Running streams old q := by
  obtain ⟨hs, ho⟩ := watch_step_eq_some.mp hs
  exact ⟨R.table.step hok (step_cases hs), ho ▸ R.streams.step R.table hok (step_cases hs), R.sound.step hok hs⟩

theorem running_of_reach {p : State × Log} (hm : memory (-1) ≤ 0)
    (h : ((machine memory streams old).watch observer).Reach (fun a p => Assumed a p.1) p) : Running streams old p :=
  h.invariant (running_start hm) fun _ _ _ R hok hs => R.step hok hs

theorem assumed_of_works (h : Works a s) : Assumed a s := by
  cases a with
  | push => exact h
  | accept | acceptFails | readFails => exact h.elim
  | poll | read | write | close => trivial

/-- These steps leave `main` running, and accept nothing. -/
theorem main_of_works (ha : Works a s) (hmain : s.main ≠ .returned) (hs : step a s = some s') :
    s'.main ≠ .returned ∧ s'.accepted = s.accepted := by
  cases step_cases hs with
  | accept | acceptFails | readFails => exact ha.elim
  | push => exact ⟨nofun, rfl⟩
  | full | take | empty | read | write | writeFails | close => exact ⟨hmain, rfl⟩

/-- As long as an accepted connection is not closed, some connection can get on. -/
theorem Running.goes {p : State × Log} (R : Running streams old p) (hmain : p.1.main ≠ .returned)
    (hopen : ¬ ∀ k < p.1.accepted, k ∈ p.2.closed) : Goes p.1 := by
  obtain ⟨k, hk, hnot⟩ : ∃ k, k < p.1.accepted ∧ k ∉ p.2.closed := by simpa using hopen
  obtain ⟨fd, hfd⟩ := (R.streams.gone k hk).resolve_left hnot
  exact goes_of_open R.table R.sound hmain (by rw [hfd]; simp)

/-- While `main` runs, the number of steps by which connections get on is bounded, whatever their order, by what is left to
    do; and when no such step can be made, everything that has been accepted is closed. -/
theorem connections_closed {p q : State × Log} (hm : memory (-1) ≤ 0)
    (h : ((machine memory streams old).watch observer).Reach (fun a p => Assumed a p.1) p) (hmain : p.1.main ≠ .returned)
    {as : List Move} (hr : ((machine memory streams old).watch observer).runIf (fun a p => decide (Works a p.1)) as p = some q) :
    as.length + left q.1 ≤ left p.1 ∧ q.1.accepted = p.1.accepted ∧
      ((∀ a, Works a q.1 → step a q.1 = none) → ∀ k < q.1.accepted, k ∈ q.2.closed) := by
  obtain ⟨hlength, ⟨R, hmain', haccepted⟩⟩ := length_le_of_runIf (μ := fun p => left p.1)
    (I := fun q => Running streams old q ∧ q.1.main ≠ .returned ∧ q.1.accepted = p.1.accepted)
    (fun a s t ⟨R, hmain, hacc⟩ (ha : Works a s.1) hs => by
      obtain ⟨hmain', hacc'⟩ := main_of_works ha hmain (watch_step_eq_some.mp hs).1
      exact ⟨R.step (assumed_of_works ha) hs, hmain', hacc'.trans hacc⟩)
    (fun a s t ⟨R, _⟩ ha hs => left_step R.table ha (watch_step_eq_some.mp hs).1)
    ⟨running_of_reach hm h, hmain, rfl⟩ hr
  refine ⟨hlength, haccepted, fun hstuck => ?_⟩
  by_contra hopen
  obtain ⟨a, ha, hs⟩ := R.goes hmain' hopen
  rw [hstuck a ha] at hs
  cases hs

/-- Nothing works where `main` is at `accept`, the workers look at the stack, and find no descriptor there. -/
theorem step_eq_none_of_idle (hmain : s.main = .accept) (hworker : ∀ w < workerNum, s.worker w = .poll)
    (htop : s.clientFds s.clientIdx ≤ 0) : ∀ a, Works a s → step a s = none := by
  have hidle : ∀ w a, (∀ v, a ≠ .poll v) → stepWorker w a s = none := by
    intro w a ha
    unfold stepWorker
    split
    · rename_i hw
      rw [hworker w hw.1]
      cases a <;> first | rfl | exact absurd rfl (ha _)
    · rfl
  intro a ha
  cases a with
  | push => simp only [step, stepMain, hmain]
  | poll w => exact absurd ha (not_lt.mpr htop)
  | read w n => exact hidle w _ fun v => by simp
  | write w => exact hidle w _ fun v => by simp
  | close w => exact hidle w _ fun v => by simp
  | accept | acceptFails | readFails => exact ha.elim

/-- Two connections that are accepted, the second while the first is on the stack, and the steps by which both are closed, the
    chunks of one between those of the other; when no more can be made, both are. -/
theorem connections_closed_two : ∃ (p q : State × Log) (as : List Move), as.length + left q.1 ≤ left p.1 ∧
    q.1.accepted = 2 ∧ as.length = 17 ∧ ∀ k < 2, k ∈ q.2.closed := by
  have hp : ∃ p, ((machine (fun _ => 0) (fun k => if k = 0 then [7, 8, 9] else [4, 5]) []).watch observer).Reach
      (fun a p => Assumed a p.1) p ∧ (decide (p.1.main = .push 6) &&
        (((machine (fun _ => 0) (fun k => if k = 0 then [7, 8, 9] else [4, 5]) []).watch observer).runIf
          (fun a p => decide (Works a p.1)) [.push, .poll 3, .poll 4, .read 3 1, .read 4 2, .write 4, .write 3, .read 4 1,
            .read 3 1, .write 3, .write 4, .read 3 0, .write 3, .close 3, .read 4 0, .write 4, .close 4] p).any fun q =>
              decide (q.1.main = .accept ∧ (∀ w < workerNum, q.1.worker w = .poll) ∧ q.1.clientFds q.1.clientIdx ≤ 0 ∧
                q.1.accepted = 2)) = true :=
    exists_reach [.accept 5, .push, .accept 6] (by decide +kernel)
  obtain ⟨p, h, hp⟩ := hp
  rw [Bool.and_eq_true] at hp
  have hmain : p.1.main ≠ .returned := by
    rw [of_decide_eq_true hp.1]
    exact MainPc.noConfusion
  obtain ⟨q, hr, hq⟩ := (Option.any_eq_true _ _).mp hp.2
  obtain ⟨hq, hworker, htop, haccepted⟩ := of_decide_eq_true hq
  obtain ⟨hlength, -, hclosed⟩ := connections_closed (le_refl 0) h hmain hr
  exact ⟨p, q, _, hlength, haccepted, rfl, haccepted ▸ hclosed (step_eq_none_of_idle hq hworker htop)⟩

/-! ### A run that serves any number of connections -/

/-- What has been accepted can be served. -/
theorem exists_closed {p : State × Log} (hm : memory (-1) ≤ 0)
    (h : ((machine memory streams old).watch observer).Reach (fun a p => Assumed a p.1) p) (hmain : p.1.main ≠ .returned) :
    ∃ q, ((machine memory streams old).watch observer).Reach (fun a p => Assumed a p.1) q ∧ q.1.main ≠ .returned ∧
      q.1.accepted = p.1.accepted ∧ ∀ k < p.1.accepted, k ∈ q.2.closed := by
  obtain ⟨q, hq, ⟨hqmain, hqacc⟩, hclosed⟩ := h.exists_within
    (P := fun q => q.1.main ≠ .returned ∧ q.1.accepted = p.1.accepted) (Q := fun q => ∀ k < q.1.accepted, k ∈ q.2.closed)
    (μ := fun q => left q.1) (fun q hq hI hopen => by
      have R := running_of_reach hm hq
      obtain ⟨a, ha, hs⟩ := R.goes hI.1 hopen
      obtain ⟨t, hs⟩ := Option.isSome_iff_exists.mp hs
      obtain ⟨hmain, hacc⟩ := main_of_works ha hI.1 hs
      exact ⟨a, (t, observer.note a q.1 q.2), assumed_of_works ha, watch_step_eq_some.mpr ⟨hs, rfl⟩,
        ⟨hmain, hacc.trans hI.2⟩, left_step R.table ha hs⟩) ⟨hmain, rfl⟩
  exact ⟨q, hq, hqmain, hqacc, fun k hk => hclosed k (hqacc ▸ hk)⟩

/-- Where all that has been accepted is closed, no descriptor is open, and `main` can accept. -/
theorem Running.main_accept {p : State × Log} (R : Running streams old p) (hmain : p.1.main ≠ .returned)
    (hclosed : ∀ k < p.1.accepted, k ∈ p.2.closed) : (∀ fd, p.1.conn fd = none) ∧ p.1.main = .accept := by
  have hnone : ∀ fd, p.1.conn fd = none := fun fd => Option.eq_none_iff_forall_ne_some.mpr fun k hk =>
    (R.streams.closed k (hclosed k (R.table.conn_lt fd k hk))).2.1 fd hk
  refine ⟨hnone, ?_⟩
  cases hpc : p.1.main with
  | accept => rfl
  | returned => exact absurd hpc hmain
  | push fd =>
    obtain ⟨k, hk⟩ := R.table.exists_conn (holds_main hpc)
    rw [hnone fd] at hk
    cases hk

theorem exists_served (hm : memory (-1) ≤ 0) (streams : ℕ → List UInt8) (old : List UInt8) (n : ℕ) :
    ∃ p, ((machine memory streams old).watch observer).Reach (fun a p => Assumed a p.1) p ∧ p.1.main ≠ .returned ∧
      p.1.accepted = n ∧ ∀ k < n, k ∈ p.2.closed := by
  induction n with
  | zero => exact ⟨_, .init, MainPc.noConfusion, rfl, fun k hk => absurd hk (Nat.not_lt_zero k)⟩
  | succ n ih =>
    obtain ⟨p, hp, hmain, haccepted, hclosed⟩ := ih
    have R := running_of_reach hm hp
    obtain ⟨hfree, hmain⟩ := R.main_accept hmain (haccepted ▸ hclosed)
    have hs : ((machine memory streams old).watch observer).step (.accept 1) p = some (p.1.accept 1, p.2) := by
      refine watch_step_eq_some.mpr ⟨?_, rfl⟩
      simp [machine, step, stepMain, hmain, hfree]
    obtain ⟨q, hq, hqmain, hqacc, hqclosed⟩ := exists_closed hm (hp.step (.accept 1) one_pos hs) MainPc.noConfusion
    have hacc : (p.1.accept 1).accepted = n + 1 := congrArg (· + 1) haccepted
    exact ⟨q, hq, hqmain, hqacc.trans hacc, fun k hk => hqclosed k (hacc ▸ hk)⟩

end Racey.TcpServer
