import Racey.Theorems.TcpServer

/-! What the workers of racey-tcp-server copy to the file. The first invariant says in whose hands each open descriptor
    is: `main`, a slot of the stack, or a worker. The second says how far each connection has come. -/

namespace Racey.TcpServer
open Machine Holders Interleave

variable {memory : ℤ → ℤ} {streams : ℕ → List UInt8} {old : List UInt8} {s s' : State} {o : Log} {a : Move}

/-! ### In whose hands a descriptor is -/

inductive Holder
  | main
  | slot (i : ℤ)
  | worker (w : ℕ)
  deriving DecidableEq

def WorkerPc.fd : WorkerPc → Option ℤ
  | .poll => none
  | .read fd | .write fd _ | .close fd => some fd

/-- The descriptor that a holder has, if it has one; a slot has one if it is on the stack. -/
def holds (s : State) : Holder → Option ℤ
  | .main => match s.main with
    | .push fd => some fd
    | _ => none
  | .slot i => if 0 ≤ i ∧ i ≤ s.clientIdx then some (s.clientFds i) else none
  | .worker w => (s.worker w).fd

/-- Every open descriptor is in one holder's hands, and stands for a connection of its own. -/
structure Table (s : State) : Prop where
  bounded : StackBounded s
  below : s.clientFds (-1) ≤ 0
  owned : Owned (holds s) fun fd => s.conn fd ≠ none
  conn_lt : ∀ fd k, s.conn fd = some k → k < s.accepted
  conn_inj : ∀ fd fd' k, s.conn fd = some k → s.conn fd' = some k → fd = fd'

theorem holds_main {fd : ℤ} (h : s.main = .push fd) : holds s .main = some fd := by simp [holds, h]

theorem holds_slot {i : ℤ} (h : 0 ≤ i ∧ i ≤ s.clientIdx) : holds s (.slot i) = some (s.clientFds i) := if_pos h

theorem holds_worker {w : ℕ} {fd : ℤ} (h : (s.worker w).fd = some fd) : holds s (.worker w) = some fd := h

/-- A worker goes on with the descriptor it has. -/
theorem fd_setWorker {w : ℕ} {pc : WorkerPc} (h : pc.fd = (s.worker w).fd) (v : ℕ) :
    ((s.setWorker w pc).worker v).fd = (s.worker v).fd := by
  by_cases hv : v = w
  · subst hv
    simpa using h
  · simp [hv]

theorem holds_congr (hmain : s'.main = s.main) (hidx : s'.clientIdx = s.clientIdx) (hfds : s'.clientFds = s.clientFds)
    (hfd : ∀ w, (s'.worker w).fd = (s.worker w).fd) : holds s' = holds s := by
  funext g
  cases g with
  | main => simp only [holds, hmain]
  | slot i => simp only [holds, hidx, hfds]
  | worker w => exact hfd w

theorem holds_accept {fd : ℤ} :
    holds (s.accept fd) = Function.update (holds s) .main (some fd) := by
  funext g
  cases g with
  | main => rfl
  | slot i | worker w => rfl

theorem holds_push {fd : ℤ} (hlow : -1 ≤ s.clientIdx) :
    holds { s with
        clientIdx := s.clientIdx + 1
        clientFds := Function.update s.clientFds (s.clientIdx + 1) fd
        main := .accept } =
      Function.update (Function.update (holds s) .main none) (.slot (s.clientIdx + 1)) (some fd) := by
  funext g
  cases g with
  | main | worker w => rfl
  | slot i =>
    by_cases hi : i = s.clientIdx + 1
    · subst hi
      have h0 : 0 ≤ s.clientIdx + 1 := by omega
      simp [holds, h0]
    · have hle : i ≤ s.clientIdx + 1 ↔ i ≤ s.clientIdx := by omega
      simp [holds, hi, hle]

theorem holds_take {w : ℕ} :
    holds { s.setWorker w (.read (s.clientFds s.clientIdx)) with
        clientFds := Function.update s.clientFds s.clientIdx (-1)
        clientIdx := s.clientIdx - 1 } =
      Function.update (Function.update (holds s) (.slot s.clientIdx) none) (.worker w)
        (some (s.clientFds s.clientIdx)) := by
  funext g
  cases g with
  | main => rfl
  | slot i =>
    by_cases hi : i = s.clientIdx
    · subst hi
      have hlt : ¬ s.clientIdx ≤ s.clientIdx - 1 := by omega
      simp [holds, hlt]
    · have hle : i ≤ s.clientIdx - 1 ↔ i ≤ s.clientIdx := by omega
      simp [holds, hi, hle]
  | worker v =>
    by_cases hv : v = w
    · subst hv
      simp [holds, WorkerPc.fd]
    · simp [holds, hv]

theorem holds_close {w : ℕ} {fd : ℤ} : holds (s.close w fd) = Function.update (holds s) (.worker w) none := by
  funext g
  cases g with
  | main | slot i => rfl
  | worker v =>
    by_cases hv : v = w
    · subst hv
      simp [holds, State.close, WorkerPc.fd]
    · simp [holds, State.close, hv]

theorem table_start (hm : memory (-1) ≤ 0) : Table (start memory streams old) where
  bounded := ⟨by simp [start], by simp [start, workerNum]⟩
  below := by simpa [start, initialFds] using hm
  owned := by
    have hnone : holds (start memory streams old) = fun _ => none := by
      funext g
      cases g with
      | main | worker w => rfl
      | slot i => exact if_neg (by simp only [start]; omega)
    rw [hnone]
    have hlive : (fun fd => (start memory streams old).conn fd ≠ none) = fun _ => False := by
      funext fd
      simp [start]
    rw [hlive]
    exact Owned.empty
  conn_lt fd k h := by simp [start] at h
  conn_inj fd fd' k h := by simp [start] at h

/-- A step that changes neither the descriptors in anyone's hands nor the connections. -/
theorem Table.same (T : Table s) (hholds : holds s' = holds s) (hconn : s'.conn = s.conn)
    (hidx : s'.clientIdx = s.clientIdx) (hfds : s'.clientFds = s.clientFds) (hacc : s'.accepted = s.accepted) :
    Table s' where
  bounded := by
    rw [StackBounded, hidx]
    exact T.bounded
  below := by
    rw [hfds]
    exact T.below
  owned := by
    rw [hholds, hconn]
    exact T.owned
  conn_lt := by
    rw [hconn, hacc]
    exact T.conn_lt
  conn_inj := by
    rw [hconn]
    exact T.conn_inj

theorem Table.accept (T : Table s) {fd : ℤ} (hmain : s.main = .accept) (hfd : s.conn fd = none) :
    Table (s.accept fd) where
  bounded := T.bounded
  below := T.below
  owned := by
    have hgive := T.owned.give (r := fd) (h := .main) (by simp [hfd]) (by simp [holds, hmain])
    have hlive : (fun fd' => (s.accept fd).conn fd' ≠ none) = fun fd' => fd' = fd ∨ s.conn fd' ≠ none := by
      funext fd'
      by_cases heq : fd' = fd <;> simp [State.accept, heq]
    rw [holds_accept, hlive]
    exact hgive
  conn_lt fd' k h := by
    by_cases heq : fd' = fd
    · subst heq
      simp only [State.accept, Function.update_self, Option.some.injEq] at h ⊢
      omega
    · simp only [State.accept, ne_eq, heq, not_false_eq_true, Function.update_of_ne] at h ⊢
      exact (T.conn_lt fd' k h).trans (Nat.lt_succ_self _)
  conn_inj fd₁ fd₂ k h₁ h₂ := by
    have hold : ∀ fd', fd' ≠ fd → (s.accept fd).conn fd' = some k → s.conn fd' = some k ∧ k ≠ s.accepted := by
      intro fd' hne h
      simp only [State.accept, ne_eq, hne, not_false_eq_true, Function.update_of_ne] at h
      exact ⟨h, (T.conn_lt fd' k h).ne⟩
    have hnew : (s.accept fd).conn fd = some k → k = s.accepted := fun h => by
      simpa [State.accept, eq_comm] using h
    by_cases h1 : fd₁ = fd <;> by_cases h2 : fd₂ = fd
    · rw [h1, h2]
    · exact absurd (hnew (h1 ▸ h₁)) (hold fd₂ h2 h₂).2
    · exact absurd (hnew (h2 ▸ h₂)) (hold fd₁ h1 h₁).2
    · exact T.conn_inj fd₁ fd₂ k (hold fd₁ h1 h₁).1 (hold fd₂ h2 h₂).1

/-- A worker that takes a descriptor finds it on the stack. -/
theorem Table.idx_nonneg (T : Table s) (htop : s.clientFds s.clientIdx > 0) : 0 ≤ s.clientIdx := by
  by_contra hneg
  have hbounded := T.bounded.1
  have hidx : s.clientIdx = -1 := by omega
  rw [hidx] at htop
  exact absurd T.below (not_le.mpr htop)

theorem Table.close (T : Table s) {w : ℕ} {fd : ℤ} (hw : (s.worker w).fd = some fd) : Table (s.close w fd) where
  bounded := T.bounded
  below := T.below
  owned := by
    have hlive : (fun fd' => (s.close w fd).conn fd' ≠ none) = fun fd' => fd' ≠ fd ∧ s.conn fd' ≠ none := by
      funext fd'
      by_cases heq : fd' = fd <;> simp [State.close, heq]
    rw [holds_close, hlive]
    exact T.owned.drop (holds_worker hw)
  conn_lt fd' k h := by
    by_cases heq : fd' = fd
    · simp [State.close, heq] at h
    · simp only [State.close, ne_eq, heq, not_false_eq_true, Function.update_of_ne] at h
      exact T.conn_lt fd' k h
  conn_inj fd₁ fd₂ k h₁ h₂ := by
    have hold : ∀ fd', (s.close w fd).conn fd' = some k → s.conn fd' = some k := by
      intro fd' h
      by_cases heq : fd' = fd
      · simp [State.close, heq] at h
      · simpa [State.close, heq] using h
    exact T.conn_inj fd₁ fd₂ k (hold fd₁ h₁) (hold fd₂ h₂)

theorem Table.step (T : Table s) (hok : Assumed a s) (h : Step s a s') : Table s' := by
  cases h with
  | accept fd hmain hfd => exact T.accept hmain hfd
  | acceptFails hmain =>
    refine T.same ?_ rfl rfl rfl rfl
    funext g
    cases g with
    | main => simp [holds, hmain]
    | slot i | worker w => rfl
  | push fd hmain hroom =>
    simp only [Assumed] at hok
    have hlow := T.bounded.1
    refine ⟨⟨by simp only; omega, by simp only; omega⟩, ?_, ?_, T.conn_lt, T.conn_inj⟩
    · have hne : (-1 : ℤ) ≠ s.clientIdx + 1 := by omega
      show Function.update s.clientFds (s.clientIdx + 1) fd (-1) ≤ 0
      rw [Function.update_of_ne hne]
      exact T.below
    · rw [holds_push hlow]
      refine T.owned.pass (holds_main hmain) (if_neg ?_)
      omega
  | full fd hmain hroom => exact T
  | take w hw htop =>
    have h0 := T.idx_nonneg htop
    have hhigh := T.bounded.2
    refine ⟨⟨by simp only; omega, by simp only; omega⟩, ?_, ?_, T.conn_lt, T.conn_inj⟩
    · have hne : (-1 : ℤ) ≠ s.clientIdx := by omega
      show Function.update s.clientFds s.clientIdx (-1) (-1) ≤ 0
      rw [Function.update_of_ne hne]
      exact T.below
    · rw [holds_take]
      exact T.owned.pass (holds_slot ⟨h0, le_refl _⟩) (by simp [holds, hw, WorkerPc.fd])
  | empty w hw htop => exact T
  | read w n fd k hw hk hcan =>
    exact T.same (holds_congr rfl rfl rfl (fd_setWorker (by simp [hw, WorkerPc.fd]))) rfl rfl rfl rfl
  | readFails w fd hw | writeFails w fd hw =>
    exact T.same (holds_congr rfl rfl rfl (fd_setWorker (by simp [hw, WorkerPc.fd]))) rfl rfl rfl rfl
  | write w fd chunk hw =>
    refine T.same (holds_congr rfl rfl rfl (fd_setWorker ?_)) rfl rfl rfl rfl
    rw [hw]
    split <;> rfl
  | close w fd hw => exact T.close (by simp [hw, WorkerPc.fd])

theorem table_of_reach (hm : memory (-1) ≤ 0)
    (h : ((machine memory streams old).watch observer).Reach (fun a p => Assumed a p.1) (s, o)) : Table s :=
  h.invariant (I := fun p => Table p.1) (table_start hm) fun _ _ _ hp hok hs =>
    hp.step hok (step_cases (watch_step_eq_some.mp hs).1)

/-! ### How far each connection has come -/

/-- Worker `w` has connection `k`. -/
def At (s : State) (k w : ℕ) : Prop := ∃ fd, (s.worker w).fd = some fd ∧ s.conn fd = some k

theorem Table.at_unique (T : Table s) {k w w' : ℕ} (h : At s k w) (h' : At s k w') : w = w' := by
  obtain ⟨fd, hw, hk⟩ := h
  obtain ⟨fd', hw', hk'⟩ := h'
  obtain rfl := T.conn_inj fd fd' k hk hk'
  exact Holder.worker.inj (T.owned.unique (.worker w) (.worker w') fd hw hw')

/-- Where the chunks of each connection are, and which connections workers have taken and closed. -/
structure Streams (streams : ℕ → List UInt8) (old : List UInt8) (s : State) (o : Log) : Prop where
  taken_iff : ∀ k, k ∈ o.taken ↔ k ∈ o.closed ∨ ∃ w, At s k w
  nodup : o.taken.Nodup
  closed : ∀ k ∈ o.closed, k < s.accepted ∧ (∀ fd, s.conn fd ≠ some k) ∧ s.unread k = []
  gone : ∀ k < s.accepted, k ∈ o.closed ∨ ∃ fd, s.conn fd = some k
  in_order : ∀ k, (o.read k).flatten ++ s.unread k = streams k
  hand : ∀ k, (o.read k = o.written k ∧ ∀ chunk, ¬ InHand s k chunk) ∨
    ∃ chunk, InHand s k chunk ∧ o.read k = o.written k ++ [chunk]
  no_error : ∀ w fd, s.worker w ≠ .write fd none
  eof : ∀ w fd k, s.conn fd = some k → s.worker w = .write fd (some []) ∨ s.worker w = .close fd → s.unread k = []
  file : ∃ l, IsInterleaving o.written l ∧ File.Written old l.flatten s.file

theorem streams_start : Streams streams old (start memory streams old) .start where
  taken_iff k := by simp [Log.start, At, start]
  nodup := List.nodup_nil
  closed k h := by simp [Log.start] at h
  gone k h := by simp [start] at h
  in_order k := rfl
  hand k := .inl ⟨rfl, by simp [InHand, start]⟩
  no_error w fd := by simp [start]
  eof w fd k h := by simp [start] at h
  file := ⟨[], .nil, File.written_opened old⟩

/-- A step of `main` or of a worker that looks at the stack in vain, which takes no connection and leaves the
    descriptors that are open. -/
theorem Streams.same (S : Streams streams old s o) (hworker : s'.worker = s.worker) (hconn : s'.conn = s.conn)
    (hacc : s'.accepted = s.accepted) (hunread : s'.unread = s.unread) (hfile : s'.file = s.file)
    (stores : List ℤ) : Streams streams old s' { o with stores := stores } := by
  have hat : At s' = At s := by
    funext k w
    simp only [At, hworker, hconn]
  have hhand : InHand s' = InHand s := by
    funext k chunk
    simp only [InHand, hworker, hconn]
  constructor
  · simpa only [hat] using S.taken_iff
  · exact S.nodup
  · simpa only [hconn, hacc, hunread] using S.closed
  · simpa only [hconn, hacc] using S.gone
  · simpa only [hunread] using S.in_order
  · simpa only [hhand] using S.hand
  · simpa only [hworker] using S.no_error
  · simpa only [hworker, hconn, hunread] using S.eof
  · simpa only [hfile] using S.file

theorem Streams.accept (S : Streams streams old s o) (T : Table s) {fd : ℤ} (hfd : s.conn fd = none) :
    Streams streams old (s.accept fd) o := by
  -- The descriptors that workers have were open before.
  have hne : ∀ w fd', (s.worker w).fd = some fd' → fd' ≠ fd := fun w fd' hw heq =>
    (T.owned.live_iff fd').mpr ⟨.worker w, hw⟩ (heq ▸ hfd)
  have hconn : ∀ w fd', (s.worker w).fd = some fd' → (s.accept fd).conn fd' = s.conn fd' := fun w fd' hw =>
    Function.update_of_ne (hne w fd' hw) _ _
  have hat : ∀ k w, At (s.accept fd) k w ↔ At s k w := fun k w =>
    exists_congr fun fd' => and_congr_right fun hw => by rw [hconn w fd' hw]
  have hhand : ∀ k chunk, InHand (s.accept fd) k chunk ↔ InHand s k chunk := fun k chunk =>
    exists_congr fun w => exists_congr fun fd' => and_congr_right fun hw =>
      by rw [hconn w fd' (by rw [show s.worker w = _ from hw]; rfl)]
  refine ⟨fun k => ?_, S.nodup, fun k hk => ?_, fun k hk => ?_, S.in_order, fun k => ?_, S.no_error, ?_, S.file⟩
  · simpa only [hat] using S.taken_iff k
  · obtain ⟨hlt, hclosed, hunread⟩ := S.closed k hk
    refine ⟨hlt.trans (Nat.lt_succ_self _), fun fd' => ?_, hunread⟩
    by_cases heq : fd' = fd
    · subst heq
      simp only [State.accept, Function.update_self, ne_eq, Option.some.injEq]
      omega
    · simpa only [State.accept, ne_eq, heq, not_false_eq_true, Function.update_of_ne] using hclosed fd'
  · rcases Nat.lt_succ_iff_lt_or_eq.mp hk with hk | rfl
    · refine (S.gone k hk).imp_right fun ⟨fd', hfd'⟩ => ⟨fd', ?_⟩
      have heq : fd' ≠ fd := fun heq => by rw [heq, hfd] at hfd'; cases hfd'
      simpa [State.accept, heq] using hfd'
    · exact .inr ⟨fd, by simp [State.accept]⟩
  · simpa only [hhand] using S.hand k
  · intro w fd' k hk hw
    have hold := hconn w fd' (by rcases hw with hw | hw <;> rw [show s.worker w = _ from hw] <;> rfl)
    exact S.eof w fd' k (hold ▸ hk) hw

theorem InHand.at {k : ℕ} {chunk : List UInt8} (h : InHand s k chunk) :
    ∃ w fd, s.worker w = .write fd (some chunk) ∧ At s k w := by
  obtain ⟨w, fd, hw, hk⟩ := h
  exact ⟨w, fd, hw, fd, by rw [hw]; rfl, hk⟩

/-- A chunk of the connection that worker `w` has can only be in the hand of `w`. -/
theorem Table.inHand_iff (T : Table s) {k w : ℕ} (hat : At s k w) (chunk : List UInt8) :
    InHand s k chunk ↔ ∃ fd, s.worker w = .write fd (some chunk) := by
  constructor
  · intro h
    obtain ⟨v, fd, hv, hatv⟩ := h.at
    obtain rfl := T.at_unique hatv hat
    exact ⟨fd, hv⟩
  · rintro ⟨fd, hw⟩
    obtain ⟨fd', hfd, hk⟩ := hat
    rw [hw] at hfd
    cases hfd
    exact ⟨w, fd, hw, hk⟩

theorem at_congr (hfd : ∀ w, (s'.worker w).fd = (s.worker w).fd) (hconn : s'.conn = s.conn) : At s' = At s := by
  funext k w
  simp only [At, hfd, hconn]

/-- The steps of worker `w` leave what the other workers have in their hands. -/
theorem inHand_of_other {k w : ℕ} (t : State) (hworker : ∀ v, v ≠ w → t.worker v = s.worker v) (hconn : t.conn = s.conn)
    (hat : ¬ At s k w) (hat' : ¬ At t k w) (chunk : List UInt8) : InHand t k chunk ↔ InHand s k chunk := by
  refine exists_congr fun v => exists_congr fun fd => ?_
  by_cases hv : v = w
  · subst hv
    refine iff_of_false (fun h => hat' ?_) fun h => hat ?_
    · exact ⟨fd, by rw [h.1]; rfl, h.2⟩
    · exact ⟨fd, by rw [h.1]; rfl, h.2⟩
  · rw [hworker v hv, hconn]

/-- A worker has no connection but the one of its descriptor. -/
theorem not_at_of_ne {w j k : ℕ} {fd : ℤ} (hfd : (s.worker w).fd = some fd) (hk : s.conn fd = some k) (hjk : j ≠ k) :
    ¬ At s j w := by
  rintro ⟨fd', hfd', hj⟩
  obtain rfl : fd = fd' := Option.some.inj (hfd.symm.trans hfd')
  exact hjk (Option.some.inj (hj.symm.trans hk))

theorem Streams.no_error_of (S : Streams streams old s o) {w : ℕ} (hself : ∀ fd, s'.worker w ≠ .write fd none)
    (hother : ∀ v, v ≠ w → s'.worker v = s.worker v) (v : ℕ) (fd : ℤ) : s'.worker v ≠ .write fd none := by
  rcases eq_or_ne v w with rfl | hvw
  · exact hself fd
  · rw [hother v hvw]
    exact S.no_error v fd

theorem Streams.take (S : Streams streams old s o) (T : Table s) {w k : ℕ} (hw : s.worker w = .poll)
    (htop : s.clientFds s.clientIdx > 0) (hk : s.conn (s.clientFds s.clientIdx) = some k) :
    Streams streams old { s.setWorker w (.read (s.clientFds s.clientIdx)) with
      clientFds := Function.update s.clientFds s.clientIdx (-1)
      clientIdx := s.clientIdx - 1 } { o with taken := o.taken ++ [k] } := by
  have hslot := holds_slot ⟨T.idx_nonneg htop, le_refl s.clientIdx⟩
  have hfree : ∀ j, ¬ At s j w := by
    rintro j ⟨fd, hfd, -⟩
    rw [hw] at hfd
    cases hfd
  have hnew : k ∉ o.taken := fun hmem => by
    rcases (S.taken_iff k).mp hmem with hclosed | ⟨v, fd, hv, hkv⟩
    · exact (S.closed k hclosed).2.1 _ hk
    · obtain rfl := T.conn_inj _ _ k hk hkv
      cases T.owned.unique _ _ _ hslot (holds_worker hv)
  generalize hs' : { s.setWorker w (.read (s.clientFds s.clientIdx)) with
      clientFds := Function.update s.clientFds s.clientIdx (-1)
      clientIdx := s.clientIdx - 1 } = s'
  have hself : s'.worker w = .read (s.clientFds s.clientIdx) := by rw [← hs']; exact s.setWorker_self w _
  have hother : ∀ v, v ≠ w → s'.worker v = s.worker v := fun v hv => by rw [← hs']; exact s.setWorker_of_ne hv _
  have hconn : s'.conn = s.conn := by rw [← hs']; rfl
  have hunread : s'.unread = s.unread := by rw [← hs']; rfl
  have hacc : s'.accepted = s.accepted := by rw [← hs']; rfl
  have hfile : s'.file = s.file := by rw [← hs']; rfl
  have hat : ∀ j, (∃ v, At s' j v) ↔ (∃ v, At s j v) ∨ j = k := by
    intro j
    constructor
    · rintro ⟨v, fd, hv, hj⟩
      by_cases hvw : v = w
      · rw [hvw, hself] at hv
        cases hv
        rw [hconn, hk] at hj
        exact .inr (Option.some.inj hj).symm
      · exact .inl ⟨v, fd, by rwa [hother v hvw] at hv, by rwa [hconn] at hj⟩
    · rintro (⟨v, fd, hv, hj⟩ | rfl)
      · have hvw : v ≠ w := fun heq => hfree j ⟨fd, heq ▸ hv, hj⟩
        exact ⟨v, fd, by rw [hother v hvw]; exact hv, by rw [hconn]; exact hj⟩
      · exact ⟨w, _, by rw [hself]; rfl, by rw [hconn]; exact hk⟩
  have hhand : ∀ j chunk, InHand s' j chunk ↔ InHand s j chunk := by
    intro j chunk
    refine exists_congr fun v => exists_congr fun fd => ?_
    by_cases hvw : v = w
    · subst hvw
      rw [hself, hw]
      simp
    · rw [hother v hvw, hconn]
  constructor
  · intro j
    rw [List.mem_append, S.taken_iff j, hat j, List.mem_singleton, or_assoc]
  · exact List.nodup_append.mpr ⟨S.nodup, List.nodup_singleton k, fun x hx y hy =>
      fun heq => hnew (List.mem_singleton.mp hy ▸ heq ▸ hx)⟩
  · simpa only [hconn, hacc, hunread] using S.closed
  · simpa only [hconn, hacc] using S.gone
  · simpa only [hunread] using S.in_order
  · simpa only [hhand] using S.hand
  · exact S.no_error_of (fun _ => by rw [hself]; simp) hother
  · intro v fd j hj hv
    rw [hunread]
    by_cases hvw : v = w
    · rw [hvw, hself] at hv
      simp at hv
    · rw [hother v hvw] at hv
      exact S.eof v fd j (hconn ▸ hj) hv
  · rw [hfile]
    exact S.file

theorem Streams.read (S : Streams streams old s o) (T : Table s) {w n k : ℕ} {fd : ℤ} (hw : s.worker w = .read fd)
    (hk : s.conn fd = some k) (hcan : CanRead (s.unread k) n) :
    Streams streams old (s.read w fd k n)
      { o with read := Function.update o.read k (o.read k ++ [(s.unread k).take n]) } := by
  have hat : At s k w := ⟨fd, by rw [hw]; rfl, hk⟩
  have hself : (s.read w fd k n).worker w = .write fd (some ((s.unread k).take n)) := s.setWorker_self w _
  have hother : ∀ v, v ≠ w → (s.read w fd k n).worker v = s.worker v := fun v hv => s.setWorker_of_ne hv _
  have hatEq : At (s.read w fd k n) = At s := at_congr (fd_setWorker (by rw [hw]; rfl)) rfl
  have hidle : ∀ chunk, ¬ InHand s k chunk := fun chunk h => by
    obtain ⟨fd', hw'⟩ := (T.inHand_iff hat chunk).mp h
    rw [hw] at hw'
    cases hw'
  have hwritten : o.read k = o.written k := by
    rcases S.hand k with ⟨heq, -⟩ | ⟨chunk, hin, -⟩
    · exact heq
    · exact absurd hin (hidle chunk)
  constructor
  · intro j
    rw [hatEq]
    exact S.taken_iff j
  · exact S.nodup
  · intro j hj
    obtain ⟨hlt, hopen, hunread⟩ := S.closed j hj
    have hjk : j ≠ k := fun heq => hopen fd (heq ▸ hk)
    exact ⟨hlt, hopen, by simpa [State.read, hjk] using hunread⟩
  · exact S.gone
  · intro j
    by_cases hjk : j = k
    · subst hjk
      simpa [State.read, List.append_assoc] using S.in_order j
    · simpa [State.read, hjk] using S.in_order j
  · intro j
    by_cases hjk : j = k
    · subst hjk
      exact .inr ⟨_, ⟨w, fd, hself, hk⟩, by simp [hwritten]⟩
    · have hnot : ¬ At s j w := not_at_of_ne (by rw [hw]; rfl) hk hjk
      have hhand := inHand_of_other (s.read w fd k n) hother rfl hnot (by rwa [hatEq])
      simpa [hhand, hjk] using S.hand j
  · exact S.no_error_of (fun _ => by rw [hself]; simp) hother
  · intro v fd' j hj hv
    by_cases hvw : v = w
    · rw [hvw, hself] at hv
      -- An empty chunk was read at the end of the stream.
      rcases hv with hv | hv
      · simp only [WorkerPc.write.injEq, Option.some.injEq, List.take_eq_nil_iff] at hv
        obtain ⟨rfl, hnil⟩ := hv
        obtain rfl : k = j := Option.some.inj (hk.symm.trans hj)
        have hunread : s.unread k = [] := hnil.elim hcan.2.2 id
        simp [State.read, hunread]
      · cases hv
    · have hjk : j ≠ k := fun heq => hvw (T.at_unique (k := k) ⟨fd', by
        rw [← hother v hvw]; rcases hv with hv | hv <;> rw [hv] <;> rfl, heq ▸ hj⟩ hat)
      rw [hother v hvw] at hv
      simpa [State.read, hjk] using S.eof v fd' j hj hv
  · exact S.file

theorem Streams.write (S : Streams streams old s o) (T : Table s) {w k : ℕ} {fd : ℤ} {chunk : List UInt8}
    (hw : s.worker w = .write fd (some chunk)) (hk : s.conn fd = some k) :
    Streams streams old (s.write w fd (some chunk))
      { o with written := Function.update o.written k (o.written k ++ [chunk]) } := by
  have hat : At s k w := ⟨fd, by rw [hw]; rfl, hk⟩
  have hself : (s.write w fd (some chunk)).worker w = if chunk.length > 0 then .read fd else .close fd :=
    s.setWorker_self w _
  have hother : ∀ v, v ≠ w → (s.write w fd (some chunk)).worker v = s.worker v := fun v hv => s.setWorker_of_ne hv _
  have hatEq : At (s.write w fd (some chunk)) = At s := at_congr (fd_setWorker (by rw [hw]; split <;> rfl)) rfl
  have hread : o.read k = o.written k ++ [chunk] := by
    rcases S.hand k with ⟨-, hnone⟩ | ⟨chunk', hin, heq⟩
    · exact absurd ⟨w, fd, hw, hk⟩ (hnone chunk)
    · obtain ⟨fd', hw'⟩ := (T.inHand_iff hat chunk').mp hin
      rw [hw] at hw'
      cases hw'
      exact heq
  constructor
  · intro j
    rw [hatEq]
    exact S.taken_iff j
  · exact S.nodup
  · exact S.closed
  · exact S.gone
  · exact S.in_order
  · intro j
    by_cases hjk : j = k
    · subst hjk
      refine .inl ⟨by simp [hread], ?_⟩
      rintro c ⟨v, fd', hv, hj⟩
      have hvw : v = w := T.at_unique (k := j) (hatEq ▸ ⟨fd', by rw [hv]; rfl, hj⟩) hat
      rw [hvw, hself] at hv
      split at hv <;> cases hv
    · have hnot : ¬ At s j w := not_at_of_ne (by rw [hw]; rfl) hk hjk
      have hhand := inHand_of_other (s.write w fd (some chunk)) hother rfl hnot (by rwa [hatEq])
      simpa [hhand, hjk] using S.hand j
  · exact S.no_error_of (fun _ => by rw [hself]; split <;> simp) hother
  · intro v fd' j hj hv
    by_cases hvw : v = w
    · rw [hvw, hself] at hv
      split at hv
      · simp at hv
      · rename_i hlen
        obtain rfl : chunk = [] := List.length_eq_zero_iff.mp (by omega)
        obtain ⟨rfl⟩ : fd = fd' := by simpa using hv
        exact S.eof w fd j hj (.inl hw)
    · rw [hother v hvw] at hv
      exact S.eof v fd' j hj hv
  · obtain ⟨l, hl, hwritten⟩ := S.file
    refine ⟨l ++ [chunk], hl.snoc k chunk, ?_⟩
    rw [List.flatten_append, List.flatten_singleton]
    exact hwritten.write chunk

theorem Streams.close (S : Streams streams old s o) (T : Table s) {w k : ℕ} {fd : ℤ} (hw : s.worker w = .close fd)
    (hk : s.conn fd = some k) : Streams streams old (s.close w fd) { o with closed := o.closed ++ [k] } := by
  have hat : At s k w := ⟨fd, by rw [hw]; rfl, hk⟩
  have hself : (s.close w fd).worker w = .poll := s.setWorker_self w _
  have hother : ∀ v, v ≠ w → (s.close w fd).worker v = s.worker v := fun v hv => s.setWorker_of_ne hv _
  -- Nobody else has the descriptor.
  have hne : ∀ v fd', v ≠ w → (s.worker v).fd = some fd' → fd' ≠ fd := fun v fd' hvw hv heq =>
    hvw (Holder.worker.inj (T.owned.unique (.worker v) (.worker w) fd (heq ▸ hv) (by rw [holds, hw]; rfl)))
  have hconn : ∀ fd', fd' ≠ fd → (s.close w fd).conn fd' = s.conn fd' := fun fd' h => Function.update_of_ne h _ _
  have hclosed : ∀ fd', (s.close w fd).conn fd' ≠ some k := by
    intro fd' h
    by_cases heq : fd' = fd
    · simp [State.close, heq] at h
    · rw [hconn fd' heq] at h
      exact heq (T.conn_inj fd' fd k h hk)
  have hatj : ∀ j v, At (s.close w fd) j v ↔ At s j v ∧ v ≠ w := by
    intro j v
    by_cases hvw : v = w
    · refine iff_of_false ?_ fun h => h.2 hvw
      rintro ⟨fd', hfd', -⟩
      rw [hvw, hself] at hfd'
      cases hfd'
    · simp only [At, hother v hvw, ne_eq, hvw, not_false_eq_true, and_true]
      exact exists_congr fun fd' => and_congr_right fun hv => by rw [hconn fd' (hne v fd' hvw hv)]
  have hhand : ∀ j chunk, InHand (s.close w fd) j chunk ↔ InHand s j chunk := by
    intro j chunk
    refine exists_congr fun v => exists_congr fun fd' => ?_
    by_cases hvw : v = w
    · subst hvw
      rw [hself, hw]
      simp
    · rw [hother v hvw]
      exact and_congr_right fun hv => by rw [hconn fd' (hne v fd' hvw (by rw [hv]; rfl))]
  constructor
  · intro j
    simp only [hatj, List.mem_append, List.mem_singleton, S.taken_iff j]
    constructor
    · rintro (h | ⟨v, hv⟩)
      · exact .inl (.inl h)
      · by_cases hvw : v = w
        · obtain ⟨fd', hfd', hj⟩ := hv
          rw [hvw, hw] at hfd'
          cases hfd'
          exact .inl (.inr (Option.some.inj (hj.symm.trans hk)))
        · exact .inr ⟨v, hv, hvw⟩
    · rintro ((h | rfl) | ⟨v, hv, -⟩)
      · exact .inl h
      · exact .inr ⟨w, hat⟩
      · exact .inr ⟨v, hv⟩
  · exact S.nodup
  · intro j hj
    rcases List.mem_append.mp hj with hj | hj
    · obtain ⟨hlt, hopen, hunread⟩ := S.closed j hj
      refine ⟨hlt, fun fd' h => ?_, hunread⟩
      by_cases heq : fd' = fd
      · simp [State.close, heq] at h
      · exact hopen fd' (hconn fd' heq ▸ h)
    · obtain rfl := List.mem_singleton.mp hj
      exact ⟨T.conn_lt fd j hk, hclosed, S.eof w fd j hk (.inr hw)⟩
  · intro j hj
    rcases S.gone j hj with hj | ⟨fd', hfd'⟩
    · exact .inl (List.mem_append_left _ hj)
    · by_cases heq : fd' = fd
      · rw [heq, hk] at hfd'
        exact .inl (List.mem_append_right _ (List.mem_singleton.mpr (Option.some.inj hfd').symm))
      · exact .inr ⟨fd', by rw [hconn fd' heq]; exact hfd'⟩
  · exact S.in_order
  · intro j
    simpa only [hhand] using S.hand j
  · exact S.no_error_of (fun _ => by rw [hself]; simp) hother
  · intro v fd' j hj hv
    by_cases hvw : v = w
    · rw [hvw, hself] at hv
      simp at hv
    · rw [hother v hvw] at hv
      have hfd : (s.worker v).fd = some fd' := by rcases hv with hv | hv <;> rw [hv] <;> rfl
      exact S.eof v fd' j (hconn fd' (hne v fd' hvw hfd) ▸ hj) hv
  · exact S.file

/-- The descriptor in a holder's hands is open. -/
theorem Table.exists_conn (T : Table s) {h : Holder} {r : ℤ} (hh : holds s h = some r) :
    ∃ k, s.conn r = some k := Option.ne_none_iff_exists'.mp ((T.owned.live_iff r).mpr ⟨h, hh⟩)

theorem Streams.step (S : Streams streams old s o) (T : Table s) (hok : Assumed a s) (h : Step s a s') :
    Streams streams old s' (observer.note a s o) := by
  cases h with
  | accept fd hmain hfd => exact S.accept T hfd
  | acceptFails hmain =>
    exact S.same (rfl : ({ s with main := .returned } : State).worker = s.worker) rfl rfl rfl rfl o.stores
  | push fd hmain hroom =>
    simp only [observer, hroom, if_true]
    refine S.same ?_ ?_ ?_ ?_ ?_ _ <;> rfl
  | full fd hmain hroom =>
    simp only [observer, hroom, if_false]
    exact S
  | take w hw htop =>
    obtain ⟨k, hk⟩ := T.exists_conn (holds_slot ⟨T.idx_nonneg htop, le_refl s.clientIdx⟩)
    simp only [observer, htop, if_true, hk, Option.toList_some]
    exact S.take T hw htop hk
  | empty w hw htop =>
    simp only [observer, htop, if_false]
    exact S
  | read w n fd k hw hk hcan =>
    simp only [observer, hw, hk]
    exact S.read T hw hk hcan
  | readFails w fd hw => exact hok.elim
  | write w fd chunk hw =>
    obtain ⟨k, hk⟩ := T.exists_conn (h := .worker w) (r := fd) (by rw [holds, hw]; rfl)
    simp only [observer, hw, hk]
    exact S.write T hw hk
  | writeFails w fd hw => exact absurd hw (S.no_error w fd)
  | close w fd hw =>
    obtain ⟨k, hk⟩ := T.exists_conn (h := .worker w) (r := fd) (by rw [holds, hw]; rfl)
    simp only [observer, hw, hk, Option.toList_some]
    exact S.close T hw hk

theorem streams_of_reach (hm : memory (-1) ≤ 0)
    (h : ((machine memory streams old).watch observer).Reach (fun a p => Assumed a p.1) (s, o)) :
    Streams streams old s o := by
  have hboth := h.invariant (I := fun p => Table p.1 ∧ Streams streams old p.1 p.2)
    ⟨table_start hm, streams_start⟩ fun a p q hp hok hs => by
      obtain ⟨hs, ho⟩ := watch_step_eq_some.mp hs
      have hstep := step_cases hs
      exact ⟨hp.1.step hok hstep, ho ▸ hp.2.step hp.1 hok hstep⟩
  exact hboth.2

/-! ### The workers serve the connections -/

theorem Streams.not_dropped (S : Streams streams old s o) (T : Table s) (k : ℕ) (hk : k < s.accepted) :
    k ∈ o.taken ∨ Queued s k := by
  rcases S.gone k hk with hclosed | ⟨fd, hfd⟩
  · exact .inl ((S.taken_iff k).mpr (.inl hclosed))
  · obtain ⟨h, hh⟩ := (T.owned.live_iff fd).mp (by rw [hfd]; simp)
    cases h with
    | main =>
      refine .inr (.inl ⟨fd, ?_, hfd⟩)
      cases hmain : s.main <;> simp [holds, hmain] at hh
      rw [hh]
    | slot i =>
      obtain ⟨hi, heq⟩ := Option.ite_none_right_eq_some.mp hh
      exact .inr (.inr ⟨i, hi.1, hi.2, by rw [Option.some.inj heq]; exact hfd⟩)
    | worker w => exact .inl ((S.taken_iff k).mpr (.inr ⟨w, fd, hh, hfd⟩))

/-- The server takes each connection once and drops none; and at every moment the file is an interleaving of the chunks
    written so far, which for each connection are those read so far, but for one that its worker has in its hands. -/
theorem serves_written (hm : memory (-1) ≤ 0)
    (h : ((machine memory streams old).watch observer).Reach (fun a p => Assumed a p.1) (s, o)) :
    Serves streams old Log.written s o ∧
      ∀ k, o.read k = o.written k ∨ ∃ chunk, InHand s k chunk ∧ o.read k = o.written k ++ [chunk] := by
  have S := streams_of_reach hm h
  have T := table_of_reach hm h
  refine ⟨⟨S.nodup, S.not_dropped T, ?_, S.in_order, fun k hk => ?_⟩, fun k => ?_⟩
  · obtain ⟨l, hl, hfile⟩ := S.file
    exact ⟨l, hl, hfile.1⟩
  · obtain ⟨-, hopen, hunread⟩ := S.closed k hk
    have horder := S.in_order k
    rw [hunread, List.append_nil] at horder
    rcases S.hand k with ⟨heq, -⟩ | ⟨chunk, ⟨w, fd, -, hfd⟩, -⟩
    · rw [← heq]
      exact horder
    · exact absurd hfd (hopen fd)
  · rcases S.hand k with ⟨heq, -⟩ | hin
    · exact .inl heq
    · exact .inr hin

/-- Two connections, whose workers read and write by turns, and in another order than they have read. -/
theorem serves_written_two : ∃ (s : State) (o : Log),
    (Serves (fun k => if k = 0 then [7, 8, 9] else [4, 5]) [1] Log.written s o ∧
      ∀ k, o.read k = o.written k ∨ ∃ chunk, InHand s k chunk ∧ o.read k = o.written k ++ [chunk]) ∧
    s.file.bytes = [7, 8, 4, 5, 9] ∧ o.taken = [1, 0] ∧ o.closed = [1, 0] := by
  obtain ⟨⟨s, o⟩, hs, hp⟩ := exists_reach
    (M := (machine (fun _ => 0) (fun k => if k = 0 then [7, 8, 9] else [4, 5]) [1]).watch observer)
    (c := fun a p => Assumed a p.1)
    (p := fun p => decide (p.1.file.bytes = [7, 8, 4, 5, 9] ∧ p.2.taken = [1, 0] ∧ p.2.closed = [1, 0]))
    [.accept 5, .push, .accept 6, .push, .poll 3, .poll 4, .read 3 1, .read 4 2, .write 4, .write 3, .read 4 1, .read 3 1,
      .write 3, .write 4, .read 3 0, .write 3, .close 3, .read 4 0, .write 4, .close 4] (by decide +kernel)
  exact ⟨s, o, serves_written (le_refl 0) hs, of_decide_eq_true hp⟩

/-- A chunk that a worker has read is not in the file before the worker writes it. -/
theorem read_before_written : ∃ (s : State) (o : Log),
    ((machine (fun _ => 0) (fun _ => [7]) []).watch observer).Reach (fun a p => Assumed a p.1) (s, o) ∧
    ¬ Serves (fun _ => [7]) [] Log.read s o := by
  obtain ⟨⟨s, o⟩, hs, hp⟩ := exists_reach (M := (machine (fun _ => 0) (fun _ => [7]) []).watch observer)
    (c := fun a p => Assumed a p.1) (p := fun p => decide (p.1.file.bytes = [] ∧ [7] ∈ p.2.read 0))
    [.accept 5, .push, .poll 3, .read 3 1] (by decide +kernel)
  obtain ⟨hfile, hread⟩ := of_decide_eq_true hp
  refine ⟨s, o, hs, fun h => ?_⟩
  obtain ⟨l, hl, hbytes⟩ := h.file
  simp only at hfile
  rw [hfile, List.drop_nil, List.append_nil] at hbytes
  have hnil := List.flatten_eq_nil_iff.mp hbytes.symm [7] (hl.mem hread)
  cases hnil

end Racey.TcpServer
