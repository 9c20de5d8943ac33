import Racey.TcpEpoll

/-! racey-tcp-server-epoll loses no bytes as long as none arrive on a connection that it has drained: then every
    connection with bytes to be read is one that the server has still to accept, or is going to read from. -/

namespace Racey.TcpEpoll
open Machine Interleave

variable {streams : ℕ → List UInt8} {old : List UInt8} {s s' : State} {o : Log} {a : Move}

/-! ### Steps -/

/-- The steps of the server, one for each branch that it takes while nothing is reset. -/
inductive Step (s : State) : Move → State → Prop
  | connect : Step s .connect { s with connected := s.connected + 1, backlog := s.backlog ++ [s.connected] }
  | arrive (k n : ℕ) : k < s.connected → (s.socket k).status ≠ .closed → 0 < n →
      n ≤ (s.socket k).unsent.length →
      Step s (.arrive k n) (s.notify k { s.socket k with
        received := (s.socket k).received ++ (s.socket k).unsent.take n, unsent := (s.socket k).unsent.drop n })
  | finish (k : ℕ) : Step s (.finish k) (s.notify k { s.socket k with eof := true })
  | reset (k : ℕ) : Step s (.reset k) (s.notify k { s.socket k with reset := true })
  | wait (sources : List Source) : s.pc = .wait → (∀ x ∈ sources, s.HasEvent x) →
      Step s (.wait sources) { s.goto (.handle (sources.map s.event)) with socket := s.reported sources }
  | again : s.pc = .handle [] → Step s .server (s.goto .wait)
  | close (e : Event) (events : List Event) : s.pc = .handle (e :: events) → e.errSet ∨ e.inSet = false →
      Step s .server ((s.close e.source).goto (.handle events))
  | acceptFails (e : Event) (events : List Event) : s.pc = .handle (e :: events) → Step s .server (s.goto .returned)
  | accept (e : Event) (events : List Event) (k : ℕ) (backlog : List ℕ) : s.pc = .handle (e :: events) →
      s.backlog = k :: backlog → (∀ j, e.source ≠ .client j) → Step s .server { s.goto (.register k events) with backlog := backlog }
  | readable (e : Event) (events : List Event) (k : ℕ) : s.pc = .handle (e :: events) → e.source = .client k →
      Step s .server (s.goto (.read k events))
  | register (k : ℕ) (events : List Event) : s.pc = .register k events →
      Step s .server ((s.setSocket k { s.socket k with
        status := .registered, ready := (s.socket k).readable }).goto (.handle events))
  | read (k : ℕ) (events : List Event) : s.pc = .read k events →
      Step s .server ((s.setSocket k { s.socket k with
        received := (s.socket k).received.drop 256 }).goto (.write k (s.readResult k) events))
  | write (k : ℕ) (chunk : List UInt8) (events : List Event) : s.pc = .write k (some chunk) events →
      Step s .server { s.goto (if chunk.length > 0 then .read k events else .del k events) with
        file := s.file.write chunk }
  | writeFails (k : ℕ) (events : List Event) : s.pc = .write k none events → Step s .server (s.goto (.del k events))
  | del (k : ℕ) (events : List Event) : s.pc = .del k events →
      Step s .server ((s.setSocket k { s.socket k with status := .removed, ready := false }).goto (.handle events))

theorem step_cases (h : step a s = some s') : Step s a s' := by
  cases a with
  | connect =>
    cases h
    exact .connect
  | arrive k n =>
    obtain ⟨hk, h⟩ := Option.ite_none_right_eq_some.mp h
    cases h
    exact .arrive k n hk.1 hk.2.1 hk.2.2.2.1 hk.2.2.2.2
  | finish k =>
    obtain ⟨-, h⟩ := Option.ite_none_right_eq_some.mp h
    cases h
    exact .finish k
  | reset k =>
    obtain ⟨-, h⟩ := Option.ite_none_right_eq_some.mp h
    cases h
    exact .reset k
  | wait sources =>
    obtain ⟨hw, h⟩ := Option.ite_none_right_eq_some.mp h
    cases h
    exact .wait sources hw.1 hw.2.2.2.2
  | server =>
    simp only [step, stepServer] at h
    split at h
    · cases h
    · cases h
    · rename_i hpc
      cases h
      exact .again hpc
    · rename_i e events hpc
      split at h
      · rename_i hbad
        cases h
        exact .close e events hpc hbad
      · split at h
        · split at h
          · cases h
            exact .acceptFails e events hpc
          · rename_i hsource _ k backlog hbacklog
            cases h
            exact .accept e events k backlog hpc hbacklog (by simp [hsource])
        · rename_i k hsource
          cases h
          exact .readable e events k hpc hsource
    · rename_i k events hpc
      cases h
      exact .register k events hpc
    · rename_i k events hpc
      cases h
      exact .read k events hpc
    · rename_i k chunk events hpc
      cases h
      exact .write k chunk events hpc
    · rename_i k events hpc
      cases h
      exact .writeFails k events hpc
    · rename_i k events hpc
      cases h
      exact .del k events hpc

@[simp] theorem setSocket_self (k : ℕ) (x : Socket) : (s.setSocket k x).socket k = x := by simp [State.setSocket]

@[simp] theorem setSocket_of_ne {j k : ℕ} (h : j ≠ k) (x : Socket) : (s.setSocket k x).socket j = s.socket j := by
  simp [State.setSocket, h]

@[simp] theorem goto_socket (pc : Pc) : (s.goto pc).socket = s.socket := rfl

/-! ### The invariant -/

/-- The events that are still to be looked at. -/
def Pc.batch : Pc → List Event
  | .handle events | .register _ events | .read _ events | .write _ _ events | .del _ events => events
  | .wait | .returned => []

/-- The connection that the server reads from, or has just read from. -/
def Pc.current : Pc → Option ℕ
  | .read k _ | .write k _ _ | .del k _ => some k
  | _ => none

/-- The server is going to read from connection `k` next, or after it has written what it has read. -/
def Pc.Reading (k : ℕ) : Pc → Prop
  | .read j _ => j = k
  | .write j (some chunk) _ => j = k ∧ chunk ≠ []
  | _ => False

/-- The last `read` from connection `k` has returned no bytes. -/
def Pc.Drains (k : ℕ) : Pc → Prop
  | .write j chunk _ => j = k ∧ (chunk = none ∨ chunk = some [])
  | .del j _ => j = k
  | _ => False

theorem drained_iff {k : ℕ} : Drained s k ↔ (s.socket k).status = .removed ∨ s.pc.Drains k := Iff.rfl

/-- What the server has read from connection `k` and not written yet. -/
def Pc.hand (k : ℕ) : Pc → List UInt8
  | .write j (some chunk) _ => if j = k then chunk else []
  | _ => []

/-- Nothing of where the server is concerns connection `j`, apart from the events. -/
def Pc.Apart (j : ℕ) (pc : Pc) : Prop :=
  (∀ events, pc ≠ .register j events) ∧ ¬ pc.Reading j ∧ pc.current ≠ some j ∧ ¬ pc.Drains j ∧ pc.hand j = []

/-- The server is going to read from connection `k`: it has still to accept it, or it is told of it. -/
def WillRead (s : State) (k : ℕ) : Prop :=
  ((s.socket k).status = .unaccepted ∧ (k ∈ s.backlog ∨ ∃ events, s.pc = .register k events)) ∨
    ((s.socket k).status = .registered ∧
      ((s.socket k).ready = true ∨ (∃ e ∈ s.pc.batch, e.source = .client k) ∨ s.pc.Reading k))

structure Inv (old : List UInt8) (s : State) (o : Log) : Prop where
  unharmed : ∀ k, (s.socket k).status ≠ .closed ∧ (s.socket k).reset = false
  fresh : ∀ k, s.connected ≤ k → (s.socket k).received = []
  waiting : s.pc ≠ .returned → ∀ k < s.connected, (s.socket k).status = .unaccepted →
    k ∈ s.backlog ∨ ∃ events, s.pc = .register k events
  willRead : s.pc ≠ .returned → ∀ k, (s.socket k).received ≠ [] → WillRead s k
  drained : ∀ k, Drained s k → (s.socket k).received = []
  ready : ∀ k, (s.socket k).ready = true → (s.socket k).readable = true ∨ s.pc.current = some k
  batch : ∀ e ∈ s.pc.batch, e.errSet = false ∧ e.inSet = true
  arrived : ∀ k, (o.written k).flatten ++ s.pc.hand k ++ (s.socket k).received = o.arrived k
  file : ∃ l, IsInterleaving o.written l ∧ File.Written old l.flatten s.file

theorem inv_start : Inv old (start streams old) observer.start where
  unharmed k := by simp [start]
  fresh k _ := rfl
  waiting _ k h := by simp [start] at h
  willRead _ k h := by simp [start] at h
  drained k _ := rfl
  ready k h := by simp [start] at h
  batch e he := by simp [start, Pc.batch] at he
  arrived k := rfl
  file := ⟨[], .nil, File.written_opened old⟩

theorem Inv.connect (I : Inv old s o) :
    Inv old { s with connected := s.connected + 1, backlog := s.backlog ++ [s.connected] } o where
  unharmed := I.unharmed
  fresh k hk := I.fresh k (by simp only at hk; omega)
  waiting hret k hk hs := by
    rcases Nat.lt_succ_iff_lt_or_eq.mp hk with hk | rfl
    · exact (I.waiting hret k hk hs).imp_left (List.mem_append_left _)
    · exact .inl (List.mem_append_right _ (List.mem_singleton_self _))
  willRead hret k hk := (I.willRead hret k hk).imp_left fun h => ⟨h.1, h.2.imp_left (List.mem_append_left _)⟩
  drained := I.drained
  ready := I.ready
  batch := I.batch
  arrived := I.arrived
  file := I.file

/-- Something reaches a socket: bytes, if it is not drained, or the end of its stream. -/
theorem Inv.notify (I : Inv old s o) {k : ℕ} {x : Socket} {bytes : List UInt8} (hk : k < s.connected ∨ bytes = [])
    (hstatus : x.status = (s.socket k).status) (hready : x.ready = (s.socket k).ready) (hreset : x.reset = false)
    (hreceived : x.received = (s.socket k).received ++ bytes) (hreadable : x.readable = true)
    (hdrained : bytes ≠ [] → ¬ Drained s k) :
    Inv old (s.notify k x) { o with arrived := Function.update o.arrived k (o.arrived k ++ bytes) } := by
  have hself : (s.notify k x).socket k = { x with ready := x.ready || x.status = .registered } := setSocket_self k _
  have hother : ∀ j, j ≠ k → (s.notify k x).socket j = s.socket j := fun j hj => setSocket_of_ne hj _
  have hstatuses : ∀ j, ((s.notify k x).socket j).status = (s.socket j).status := by
    intro j
    by_cases hj : j = k
    · rw [hj, hself]
      exact hstatus
    · rw [hother j hj]
  have hdrain : ∀ j, Drained (s.notify k x) j ↔ Drained s j := fun j => by
    unfold Drained
    rw [hstatuses j]
    rfl
  constructor
  · intro j
    rw [hstatuses j]
    by_cases hj : j = k
    · subst hj
      rw [hself]
      exact ⟨(I.unharmed j).1, hreset⟩
    · rw [hother j hj]
      exact I.unharmed j
  · intro j hle
    by_cases hj : j = k
    · subst hj
      have hnil : bytes = [] := hk.resolve_left (not_lt.mpr hle)
      rw [hself]
      simpa [hreceived, hnil] using I.fresh j hle
    · rw [hother j hj]
      exact I.fresh j hle
  · intro hret j hlt hs
    rw [hstatuses j] at hs
    exact I.waiting hret j hlt hs
  · intro hret j hne
    by_cases hj : j = k
    · subst hj
      by_cases hnil : bytes = []
      · -- Only the end of the stream has arrived.
        have hold : (s.socket j).received ≠ [] := by simpa [hself, hreceived, hnil] using hne
        rcases I.willRead hret j hold with h | ⟨hs, h⟩
        · exact .inl ⟨by rw [hstatuses j]; exact h.1, h.2⟩
        · exact .inr ⟨by rw [hstatuses j]; exact hs, .inl (by rw [hself]; simp [hstatus, hs])⟩
      · have hlt := hk.resolve_right hnil
        cases hs : (s.socket j).status with
        | unaccepted => exact .inl ⟨by rw [hstatuses j, hs], I.waiting hret j hlt hs⟩
        | registered => exact .inr ⟨by rw [hstatuses j, hs], .inl (by rw [hself]; simp [hstatus, hs])⟩
        | removed => exact absurd (.inl hs) (hdrained hnil)
        | closed => exact absurd hs (I.unharmed j).1
    · rw [hother j hj] at hne
      have h := I.willRead hret j hne
      unfold WillRead at h ⊢
      rw [hother j hj]
      exact h
  · intro j hd
    rw [hdrain j] at hd
    by_cases hj : j = k
    · subst hj
      have hnil : bytes = [] := by
        by_contra hne
        exact hdrained hne hd
      rw [hself]
      simpa [hreceived, hnil] using I.drained j hd
    · rw [hother j hj]
      exact I.drained j hd
  · intro j hr
    by_cases hj : j = k
    · subst hj
      rw [hself]
      exact .inl hreadable
    · rw [hother j hj] at hr ⊢
      exact I.ready j hr
  · exact I.batch
  · intro j
    have h := I.arrived j
    by_cases hj : j = k
    · subst hj
      rw [hself]
      simp only [hreceived, Function.update_self, ← h, List.append_assoc]
      rfl
    · rw [hother j hj]
      simp only [ne_eq, hj, not_false_eq_true, Function.update_of_ne]
      exact h
  · exact I.file

theorem Inv.wait (I : Inv old s o) {sources : List Source} (hpc : s.pc = .wait) (hevents : ∀ x ∈ sources, s.HasEvent x) :
    Inv old { s.goto (.handle (sources.map s.event)) with socket := s.reported sources } o := by
  generalize hs' : { s.goto (.handle (sources.map s.event)) with socket := s.reported sources } = s'
  have hpc' : s'.pc = .handle (sources.map s.event) := by rw [← hs']; rfl
  have hsocket : ∀ k, s'.socket k = { s.socket k with ready := (s'.socket k).ready } := by
    intro k
    rw [← hs']
    simp only [State.reported]
    split <;> rfl
  have hready : ∀ k, (s'.socket k).ready = true ↔ (s.socket k).ready = true ∧ .client k ∉ sources := by
    intro k
    rw [← hs']
    simp only [State.reported]
    split
    · rename_i hmem
      simp [hmem]
    · rename_i hmem
      simp [hmem]
  have hconnected : s'.connected = s.connected := by rw [← hs']; rfl
  have hbacklog : s'.backlog = s.backlog := by rw [← hs']; rfl
  have hfile : s'.file = s.file := by rw [← hs']; rfl
  constructor
  · intro k
    rw [hsocket k]
    exact I.unharmed k
  · intro k hk
    rw [hsocket k]
    exact I.fresh k (hconnected ▸ hk)
  · intro _ k hk hs
    rw [hsocket k] at hs
    rcases I.waiting (by simp [hpc]) k (hconnected ▸ hk) hs with h | ⟨events, h⟩
    · exact .inl (hbacklog ▸ h)
    · rw [hpc] at h
      cases h
  · intro _ k hne
    rw [hsocket k] at hne
    rcases I.willRead (by simp [hpc]) k hne with ⟨hs, h⟩ | ⟨hs, h⟩
    · refine .inl ⟨by rw [hsocket k]; exact hs, .inl ?_⟩
      rcases h with h | ⟨events, h⟩
      · exact hbacklog ▸ h
      · rw [hpc] at h
        cases h
    · refine .inr ⟨by rw [hsocket k]; exact hs, ?_⟩
      rw [hpc] at h
      rcases h with h | ⟨e, he, -⟩ | h
      · by_cases hmem : .client k ∈ sources
        · refine .inr (.inl ⟨s.event (.client k), ?_, rfl⟩)
          rw [hpc']
          exact List.mem_map_of_mem hmem
        · exact .inl ((hready k).mpr ⟨h, hmem⟩)
      · cases he
      · exact h.elim
  · intro k hd
    rw [hsocket k]
    refine I.drained k ?_
    unfold Drained at hd ⊢
    rw [hsocket k, hpc'] at hd
    rw [hpc]
    exact hd
  · intro k hr
    have h := I.ready k ((hready k).mp hr).1
    rw [hpc] at h
    refine .inl ?_
    rw [hsocket k]
    exact h.resolve_right (by simp [Pc.current])
  · intro e he
    rw [hpc'] at he
    obtain ⟨x, hx, rfl⟩ := List.mem_map.mp he
    cases x with
    | server => exact ⟨rfl, rfl⟩
    | client k =>
      have h := I.ready k (hevents _ hx).2
      rw [hpc] at h
      exact ⟨(I.unharmed k).2, h.resolve_right (by simp [Pc.current])⟩
  · intro k
    have h := I.arrived k
    rw [hpc] at h
    rw [hsocket k, hpc']
    exact h
  · rw [hfile]
    exact I.file

/-- A step that changes where the server is, and nothing of the sockets. -/
theorem Inv.goto (I : Inv old s o) {pc : Pc} (hret : s.pc ≠ .returned) (hbatch : ∀ e ∈ pc.batch, e ∈ s.pc.batch)
    (hregister : ∀ k events, s.pc = .register k events → ∃ events, pc = .register k events)
    (hwill : ∀ k, (∃ e ∈ s.pc.batch, e.source = .client k) ∨ s.pc.Reading k →
      (∃ e ∈ pc.batch, e.source = .client k) ∨ pc.Reading k ∨ (s.socket k).received = [])
    (hdrained : ∀ k, Drained (s.goto pc) k → Drained s k) (hcurrent : s.pc.current ≠ none → pc.current = s.pc.current)
    (hhand : ∀ k, pc.hand k = s.pc.hand k) : Inv old (s.goto pc) o where
  unharmed := I.unharmed
  fresh := I.fresh
  waiting _ k hk hs := (I.waiting hret k hk hs).imp_right fun ⟨events, h⟩ => hregister k events h
  willRead _ k hne := by
    rcases I.willRead hret k hne with ⟨hs, h⟩ | ⟨hs, h | h⟩
    · exact .inl ⟨hs, h.imp_right fun ⟨events, h⟩ => hregister k events h⟩
    · exact .inr ⟨hs, .inl h⟩
    · refine .inr ⟨hs, .inr ?_⟩
      rcases hwill k h with h | h | h
      · exact .inl h
      · exact .inr h
      · exact absurd h hne
  drained k hd := I.drained k (hdrained k hd)
  ready k hr := by
    rcases I.ready k hr with h | h
    · exact .inl h
    · exact .inr ((hcurrent (by rw [h]; simp)).trans h)
  batch e he := I.batch e (hbatch e he)
  arrived k := by
    show (o.written k).flatten ++ pc.hand k ++ (s.socket k).received = o.arrived k
    rw [hhand k]
    exact I.arrived k
  file := I.file

theorem Inv.again (I : Inv old s o) (hpc : s.pc = .handle []) : Inv old (s.goto .wait) o :=
  I.goto (by simp [hpc]) (by simp [Pc.batch]) (by simp [hpc]) (by simp [hpc, Pc.batch, Pc.Reading])
    (fun k h => .inl (h.resolve_right id)) (by simp [hpc, Pc.current]) (by simp [hpc, Pc.hand])

theorem Inv.readable (I : Inv old s o) {e : Event} {events : List Event} {k : ℕ} (hpc : s.pc = .handle (e :: events))
    (hsource : e.source = .client k) : Inv old (s.goto (.read k events)) o := by
  refine I.goto (by simp [hpc]) (fun e he => ?_) (by simp [hpc]) (fun j h => ?_) (fun j h => .inl (h.resolve_right id))
    (by simp [hpc, Pc.current]) (by simp [hpc, Pc.hand])
  · rw [hpc]
    exact List.mem_cons_of_mem _ he
  · rw [hpc] at h
    rcases h with ⟨e', he', hj⟩ | h
    · rcases List.mem_cons.mp he' with rfl | he'
      · exact .inr (.inl (Source.client.inj (hsource.symm.trans hj)))
      · exact .inl ⟨e', he', hj⟩
    · exact h.elim

theorem Inv.writeFails (I : Inv old s o) {k : ℕ} {events : List Event} (hpc : s.pc = .write k none events) :
    Inv old (s.goto (.del k events)) o := by
  refine I.goto (by simp [hpc]) (by simp [hpc, Pc.batch]) (by simp [hpc]) (fun j h => ?_) (fun j h => ?_)
    (by simp [hpc, Pc.current]) (by simp [hpc, Pc.hand])
  · rw [hpc] at h
    exact .inl (h.resolve_right id)
  · refine h.imp_right fun hj => ?_
    rw [hpc]
    exact ⟨hj, .inl rfl⟩

/-- The server has returned, and nothing more is claimed of what it will read. -/
theorem Inv.acceptFails (I : Inv old s o) {events : List Event} (hpc : s.pc = .handle events) :
    Inv old (s.goto .returned) o where
  unharmed := I.unharmed
  fresh := I.fresh
  waiting h := absurd rfl h
  willRead h := absurd rfl h
  drained k hd := I.drained k (.inl (hd.resolve_right id))
  ready k hr := by
    have h := I.ready k hr
    rw [hpc] at h
    exact .inl (h.resolve_right (by simp [Pc.current]))
  batch e he := by cases he
  arrived k := by
    have h := I.arrived k
    rw [hpc] at h
    exact h
  file := I.file

theorem Inv.accept (I : Inv old s o) {e : Event} {events : List Event} {k : ℕ} {backlog : List ℕ}
    (hpc : s.pc = .handle (e :: events)) (hbacklog : s.backlog = k :: backlog) (hsource : ∀ j, e.source ≠ .client j) :
    Inv old { s.goto (.register k events) with backlog := backlog } o := by
  have hret : s.pc ≠ .returned := by simp [hpc]
  have hwaits : ∀ j, (j ∈ s.backlog ∨ ∃ events, s.pc = .register j events) →
      j ∈ backlog ∨ ∃ events', Pc.register k events = .register j events' := by
    rintro j (hj | ⟨events', hj⟩)
    · rw [hbacklog] at hj
      rcases List.mem_cons.mp hj with rfl | hj
      · exact .inr ⟨events, rfl⟩
      · exact .inl hj
    · rw [hpc] at hj
      cases hj
  refine ⟨I.unharmed, I.fresh, fun _ j hj hs => hwaits j (I.waiting hret j hj hs), fun _ j hne => ?_, fun j hd => ?_,
    fun j hr => ?_, fun e' he' => ?_, fun j => ?_, I.file⟩
  · rcases I.willRead hret j hne with ⟨hs, h⟩ | ⟨hs, h⟩
    · exact .inl ⟨hs, hwaits j h⟩
    · refine .inr ⟨hs, h.imp_right fun h => .inl ?_⟩
      rw [hpc] at h
      rcases h with ⟨e', he', hj⟩ | h
      · rcases List.mem_cons.mp he' with rfl | he'
        · exact absurd hj (hsource j)
        · exact ⟨e', he', hj⟩
      · exact h.elim
  · exact I.drained j (.inl (hd.resolve_right id))
  · have h := I.ready j hr
    rw [hpc] at h
    exact .inl (h.resolve_right (by simp [Pc.current]))
  · refine I.batch e' ?_
    rw [hpc]
    exact List.mem_cons_of_mem _ he'
  · have h := I.arrived j
    rw [hpc] at h
    exact h

theorem Inv.write (I : Inv old s o) {k : ℕ} {chunk : List UInt8} {events : List Event}
    (hpc : s.pc = .write k (some chunk) events) :
    Inv old { s.goto (if chunk.length > 0 then .read k events else .del k events) with file := s.file.write chunk }
      { o with written := Function.update o.written k (o.written k ++ [chunk]) } := by
  have hret : s.pc ≠ .returned := by simp [hpc]
  have hempty : ¬ chunk.length > 0 → chunk = [] := fun h => List.length_eq_zero_iff.mp (by omega)
  generalize hpc' : (if chunk.length > 0 then Pc.read k events else .del k events) = pc'
  have hbatch : pc'.batch = s.pc.batch := by
    rw [← hpc', hpc]
    split <;> rfl
  have hread : ∀ j, s.pc.Reading j → pc'.Reading j := by
    intro j h
    rw [hpc] at h
    rw [← hpc', if_pos (List.length_pos_iff.mpr h.2)]
    exact h.1
  have hdrains : ∀ j, pc'.Drains j → s.pc.Drains j := by
    intro j h
    rw [← hpc'] at h
    rw [hpc]
    split at h
    · exact h.elim
    · rename_i hlen
      exact ⟨h, .inr (by rw [hempty hlen])⟩
  refine ⟨I.unharmed, I.fresh, fun _ j hj hs => ?_, fun _ j hne => ?_, fun j hd => ?_, fun j hr => ?_, ?_, fun j => ?_, ?_⟩
  · refine (I.waiting hret j hj hs).imp_right fun ⟨events', h⟩ => ?_
    rw [hpc] at h
    cases h
  · rcases I.willRead hret j hne with ⟨hs, h⟩ | ⟨hs, h⟩
    · refine .inl ⟨hs, h.imp_right fun ⟨events', h⟩ => ?_⟩
      rw [hpc] at h
      cases h
    · exact .inr ⟨hs, h.imp_right fun h => h.imp (fun ⟨e, he, hj⟩ => ⟨e, hbatch ▸ he, hj⟩) (hread j)⟩
  · exact I.drained j (hd.imp_right (hdrains j))
  · rcases I.ready j hr with h | h
    · exact .inl h
    · refine .inr ?_
      rw [hpc] at h
      show pc'.current = some j
      rw [← hpc']
      split <;> exact h
  · show ∀ e ∈ pc'.batch, _
    rw [hbatch]
    exact I.batch
  · have h := I.arrived j
    rw [hpc] at h
    have hhand : pc'.hand j = [] := by
      rw [← hpc']
      split <;> rfl
    show (Function.update o.written k (o.written k ++ [chunk]) j).flatten ++ pc'.hand j ++ (s.socket j).received = _
    rw [hhand, List.append_nil, ← h]
    by_cases hj : j = k
    · subst hj
      simp [Pc.hand]
    · simp [Pc.hand, hj, Ne.symm hj]
  · obtain ⟨l, hl, hwritten⟩ := I.file
    refine ⟨l ++ [chunk], hl.snoc k chunk, ?_⟩
    rw [List.flatten_append, List.flatten_singleton]
    exact hwritten.write chunk

/-- A step about connection `k`: what has to be seen of its socket is enough. -/
theorem Inv.serve (I : Inv old s o) {k : ℕ} {x : Socket} {pc : Pc} (hret : s.pc ≠ .returned)
    (hbatch : pc.batch = s.pc.batch) (hapart : ∀ j, j ≠ k → s.pc.Apart j ∧ pc.Apart j)
    (hunharmed : x.status ≠ .closed ∧ x.reset = false) (hfresh : s.connected ≤ k → x.received = [])
    (hwaiting : k < s.connected → x.status = .unaccepted → k ∈ s.backlog)
    (hwill : x.received ≠ [] → WillRead ((s.setSocket k x).goto pc) k)
    (hdrained : x.status = .removed ∨ pc.Drains k → x.received = [])
    (hready : x.ready = true → x.readable = true ∨ pc.current = some k)
    (harrived : pc.hand k ++ x.received = s.pc.hand k ++ (s.socket k).received) :
    Inv old ((s.setSocket k x).goto pc) o := by
  have hself : ((s.setSocket k x).goto pc).socket k = x := setSocket_self k x
  have hother : ∀ j, j ≠ k → ((s.setSocket k x).goto pc).socket j = s.socket j := fun j hj => setSocket_of_ne hj x
  constructor
  · intro j
    rcases eq_or_ne j k with rfl | hj
    · rwa [hself]
    · rw [hother j hj]
      exact I.unharmed j
  · intro j hle
    rcases eq_or_ne j k with rfl | hj
    · rw [hself]
      exact hfresh hle
    · rw [hother j hj]
      exact I.fresh j hle
  · intro _ j hlt hs
    rcases eq_or_ne j k with rfl | hj
    · rw [hself] at hs
      exact .inl (hwaiting hlt hs)
    · rw [hother j hj] at hs
      refine .inl ((I.waiting hret j hlt hs).resolve_right ?_)
      rintro ⟨events, h⟩
      exact (hapart j hj).1.1 events h
  · intro _ j hne
    rcases eq_or_ne j k with rfl | hj
    · rw [hself] at hne
      exact hwill hne
    · rw [hother j hj] at hne
      obtain ⟨hregister, hreading, -⟩ := (hapart j hj).1
      rcases I.willRead hret j hne with ⟨hs, h⟩ | ⟨hs, h⟩
      · refine .inl ⟨by rw [hother j hj]; exact hs, .inl (h.resolve_right ?_)⟩
        rintro ⟨events, h⟩
        exact hregister events h
      · refine .inr ⟨by rw [hother j hj]; exact hs, ?_⟩
        rw [hother j hj]
        exact h.imp_right fun h => .inl (hbatch.symm ▸ h.resolve_right hreading)
  · intro j hd
    rcases eq_or_ne j k with rfl | hj
    · rw [drained_iff, hself] at hd
      rw [hself]
      exact hdrained hd
    · rw [drained_iff, hother j hj] at hd
      rw [hother j hj]
      exact I.drained j (.inl (hd.resolve_right (hapart j hj).2.2.2.2.1))
  · intro j hr
    rcases eq_or_ne j k with rfl | hj
    · rw [hself] at hr ⊢
      exact hready hr
    · rw [hother j hj] at hr ⊢
      exact .inl ((I.ready j hr).resolve_right (hapart j hj).1.2.2.1)
  · intro e he
    exact I.batch e (hbatch ▸ he)
  · intro j
    have h := I.arrived j
    rcases eq_or_ne j k with rfl | hj
    · rw [hself]
      show _ ++ pc.hand j ++ _ = _
      rw [List.append_assoc, harrived, ← List.append_assoc]
      exact h
    · rw [hother j hj]
      show _ ++ pc.hand j ++ _ = _
      rw [(hapart j hj).2.2.2.2.2]
      rwa [(hapart j hj).1.2.2.2.2] at h
  · exact I.file

theorem Inv.register (I : Inv old s o) {k : ℕ} {events : List Event} (hpc : s.pc = .register k events) :
    Inv old ((s.setSocket k { s.socket k with
      status := .registered, ready := (s.socket k).readable }).goto (.handle events)) o := by
  refine I.serve (by simp [hpc]) (by rw [hpc]; rfl) (fun j hj => ?_) ⟨by simp, (I.unharmed k).2⟩ (I.fresh k) (by simp)
    (fun hne => ?_) (fun hd => ?_) .inl (by rw [hpc]; rfl)
  · rw [hpc]
    simp [Pc.Apart, Pc.Reading, Pc.current, Pc.Drains, Pc.hand, hj.symm]
  · refine .inr ⟨by simp, .inl ?_⟩
    simp [Socket.readable, hne]
  · rcases hd with hd | hd
    · cases hd
    · exact hd.elim

theorem hand_readResult (k : ℕ) (events : List Event) :
    (Pc.write k (s.readResult k) events).hand k ++ (s.socket k).received.drop 256 = (s.socket k).received := by
  unfold State.readResult
  split
  · simp [Pc.hand]
  · rename_i h
    have hnil : (s.socket k).received = [] := not_not.mp h
    split <;> simp [Pc.hand, hnil]

theorem received_of_drains {k : ℕ} {events : List Event} (h : (Pc.write k (s.readResult k) events).Drains k) :
    (s.socket k).received = [] := by
  by_contra hne
  obtain ⟨-, h⟩ := h
  simp [State.readResult, hne] at h

theorem Inv.read (I : Inv old s o) {k : ℕ} {events : List Event} (hpc : s.pc = .read k events) :
    Inv old ((s.setSocket k { s.socket k with
      received := (s.socket k).received.drop 256 }).goto (.write k (s.readResult k) events)) o := by
  have hret : s.pc ≠ .returned := by simp [hpc]
  have hregister : ∀ j events', s.pc ≠ .register j events' := by simp [hpc]
  have hdrop : (s.socket k).received = [] → (s.socket k).received.drop 256 = [] := fun h => by rw [h]; rfl
  refine I.serve hret (by rw [hpc]; rfl) (fun j hj => ?_) (I.unharmed k) (fun hk => hdrop (I.fresh k hk)) (fun hk hs => ?_)
    (fun hne => ?_) (fun hd => ?_) (fun _ => .inr rfl) ?_
  · rw [hpc]
    refine ⟨⟨by simp, fun h => hj h.symm, fun h => hj (Option.some.inj h).symm, id, rfl⟩, by simp, fun h => ?_,
      fun h => hj (Option.some.inj h).symm, fun h => hj h.1.symm, ?_⟩
    · cases hr : s.readResult k with
      | none => rw [hr] at h; exact h
      | some chunk => rw [hr] at h; exact hj h.1.symm
    · cases hr : s.readResult k with
      | none => rfl
      | some chunk => exact if_neg hj.symm
  · exact (I.waiting hret k hk hs).resolve_right fun ⟨events', h⟩ => hregister k events' h
  · have hreceived : (s.socket k).received ≠ [] := fun h => hne (hdrop h)
    rcases I.willRead hret k hreceived with ⟨hs, h⟩ | ⟨hs, -⟩
    · refine .inl ⟨by simpa using hs, .inl (h.resolve_right fun ⟨events', h⟩ => hregister k events' h)⟩
    · refine .inr ⟨by simpa using hs, .inr (.inr ?_)⟩
      simp [State.goto, State.readResult, Pc.Reading, hreceived]
  · rcases hd with hd | hd
    · exact hdrop (I.drained k (.inl hd))
    · exact hdrop (received_of_drains hd)
  · rw [hpc]
    exact hand_readResult k events

theorem Inv.del (I : Inv old s o) {k : ℕ} {events : List Event} (hpc : s.pc = .del k events) :
    Inv old ((s.setSocket k { s.socket k with status := .removed, ready := false }).goto (.handle events)) o := by
  have hnil : (s.socket k).received = [] := I.drained k (.inr (by rw [hpc]))
  refine I.serve (by simp [hpc]) (by rw [hpc]; rfl) (fun j hj => ?_) ⟨by simp, (I.unharmed k).2⟩ (fun _ => hnil) (by simp)
    (absurd hnil) (fun _ => hnil) (by simp) (by rw [hpc]; rfl)
  rw [hpc]
  simp [Pc.Apart, Pc.Reading, Pc.current, Pc.Drains, Pc.hand, hj.symm]

/-! ### Runs -/

/-- Only a `write` of the server is noted. -/
theorem note_server (h : ∀ k chunk events, s.pc ≠ .write k (some chunk) events) : observer.note .server s o = o := by
  cases hpc : s.pc with
  | write k chunk events =>
    cases chunk with
    | none => simp [observer, hpc]
    | some chunk => exact absurd hpc (h k chunk events)
  | _ => simp [observer, hpc]

theorem note_write {k : ℕ} {chunk : List UInt8} {events : List Event} (hpc : s.pc = .write k (some chunk) events) :
    observer.note .server s o = { o with written := Function.update o.written k (o.written k ++ [chunk]) } := by
  simp [observer, hpc]

theorem inv_step (I : Inv old s o) (hok : InTime a s) (h : step a s = some s') :
    Inv old s' (observer.note a s o) := by
  have hstep := step_cases h
  cases hstep with
  | connect => exact I.connect
  | arrive k n hk hclosed hn hle =>
    have hbytes : (s.socket k).unsent.take n ≠ [] := fun h => by
      rcases List.take_eq_nil_iff.mp h with rfl | h
      · exact hn.ne rfl
      · rw [h] at hle
        exact hn.ne' (Nat.le_zero.mp hle)
    exact I.notify (.inl hk) rfl rfl (I.unharmed k).2 rfl (by simp [Socket.readable, hbytes]) fun _ => hok
  | finish k =>
    have h : Inv old _ { o with arrived := Function.update o.arrived k (o.arrived k ++ []) } :=
      I.notify (x := { s.socket k with eof := true }) (.inr rfl) rfl rfl (I.unharmed k).2 (List.append_nil _).symm
        (by simp [Socket.readable]) (absurd rfl)
    rwa [List.append_nil, Function.update_eq_self] at h
  | reset k => exact absurd hok id
  | wait sources hpc hevents => exact I.wait hpc hevents
  | again hpc =>
    rw [note_server (by simp [hpc])]
    exact I.again hpc
  | close e events hpc hbad =>
    -- No socket has been reset, so the events are all for something that can be read.
    obtain ⟨herr, hin⟩ := I.batch e (by rw [hpc]; exact List.mem_cons_self)
    simp [herr, hin] at hbad
  | acceptFails e events hpc =>
    rw [note_server (by simp [hpc])]
    exact I.acceptFails hpc
  | accept e events k backlog hpc hbacklog hsource =>
    rw [note_server (by simp [hpc])]
    exact I.accept hpc hbacklog hsource
  | readable e events k hpc hsource =>
    rw [note_server (by simp [hpc])]
    exact I.readable hpc hsource
  | register k events hpc =>
    rw [note_server (by simp [hpc])]
    exact I.register hpc
  | read k events hpc =>
    rw [note_server (by simp [hpc])]
    exact I.read hpc
  | write k chunk events hpc =>
    rw [note_write hpc]
    exact I.write hpc
  | writeFails k events hpc =>
    rw [note_server (by simp [hpc])]
    exact I.writeFails hpc
  | del k events hpc =>
    rw [note_server (by simp [hpc])]
    exact I.del hpc

theorem inv_of_reach (h : ((machine streams old).watch observer).Reach (fun a p => InTime a p.1) (s, o)) :
    Inv old s o :=
  h.invariant (I := fun p => Inv old p.1 p.2) inv_start fun a p q I hok hs => by
    obtain ⟨hs, ho⟩ := watch_step_eq_some.mp hs
    rw [ho]
    exact inv_step I hok hs

/-- In `epoll_wait` with no event pending there is nothing that the server is going to read. -/
theorem Inv.received_of_idle (I : Inv old s o) (hidle : Idle s) (k : ℕ) : (s.socket k).received = [] := by
  obtain ⟨hpc, hserver, hclient⟩ := hidle
  by_contra hne
  have hk : k < s.connected := not_le.mp fun hle => hne (I.fresh k hle)
  rcases I.willRead (by simp [hpc]) k hne with ⟨-, h | ⟨events, h⟩⟩ | ⟨hs, h | ⟨e, he, -⟩ | h⟩
  · exact hserver (List.ne_nil_of_mem h)
  · rw [hpc] at h
    cases h
  · exact hclient k hk ⟨hs, h⟩
  · rw [hpc] at he
    cases he
  · rw [hpc] at h
    exact h

/-- Where no bytes arrive on a connection that the server has drained, everything that has arrived is in the file
    whenever the server waits with no event pending. -/
theorem all_written_of_in_time
    (h : ((machine streams old).watch observer).Reach (fun a p => InTime a p.1) (s, o)) (hidle : Idle s) :
    AllWritten old s o := by
  have I := inv_of_reach h
  obtain ⟨l, hl, hwritten⟩ := I.file
  refine ⟨⟨l, hl, hwritten.1⟩, fun k => ?_⟩
  have harrived := I.arrived k
  rw [I.received_of_idle hidle k, hidle.1] at harrived
  simpa [Pc.hand] using harrived

/-- A connection of two bytes, which arrive one after the other before the server reads. -/
theorem all_written_of_in_time_two : ∃ (s : State) (o : Log), Idle s ∧ AllWritten [] s o ∧ o.arrived 0 = [1, 2] := by
  obtain ⟨⟨s, o⟩, hs, hp⟩ := exists_reach
    (M := (machine (fun _ => [1, 2]) []).watch observer) (c := fun a p => InTime a p.1)
    (p := fun p => decide (Idle p.1 ∧ p.2.arrived 0 = [1, 2]))
    ([.connect, .wait [.server], .server, .server, .server, .arrive 0 1, .arrive 0 1, .wait [.client 0]] ++
      List.replicate 7 .server) (by decide +kernel)
  obtain ⟨hidle, harrived⟩ := of_decide_eq_true hp
  exact ⟨s, o, hidle, all_written_of_in_time hs hidle, harrived⟩

/-- The second byte arrives after the server has drained the connection and dropped it from its interest list. -/
theorem second_burst_lost : ∃ (s : State) (o : Log),
    ((machine (fun _ => [1, 2]) []).watch observer).Reach (fun a _ => a.isReset = false) (s, o) ∧ Idle s ∧
      ¬ AllWritten [] s o := by
  obtain ⟨⟨s, o⟩, hs, hp⟩ := exists_reach (M := (machine (fun _ => [1, 2]) []).watch observer)
    (c := fun a _ => a.isReset = false) (p := fun p => decide (Idle p.1 ∧ p.2.arrived 0 = [1, 2] ∧ p.2.written 0 = [[1]]))
    ([.connect, .wait [.server], .server, .server, .server, .arrive 0 1, .wait [.client 0]] ++
      List.replicate 7 .server ++ [.arrive 0 1]) (by decide +kernel)
  obtain ⟨hidle, harrived, hwritten⟩ := of_decide_eq_true hp
  refine ⟨s, o, hs, hidle, fun h => ?_⟩
  have h := h.2 0
  rw [harrived, hwritten] at h
  cases h

end Racey.TcpEpoll
