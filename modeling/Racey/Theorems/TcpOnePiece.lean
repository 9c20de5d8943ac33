import Racey.Theorems.TcpEpoll

/-! racey-tcp-server-epoll loses nothing of what arrives in one piece: the server hears of a connection when all of it is there,
    and gives the connection up only after it has read it. And what one `read` can take is not torn. -/

namespace Racey.TcpEpoll
open Machine Interleave

variable {streams : ℕ → List UInt8} {old : List UInt8} {s s' : State} {o : Log} {a : Move} {k : ℕ}

/-- Nothing has arrived on the connection, and the server does not deal with it but to accept and to register it. -/
structure Untouched (s : State) (k : ℕ) : Prop where
  status : (s.socket k).status = .unaccepted ∨ (s.socket k).status = .registered
  readable : (s.socket k).readable = false
  ready : (s.socket k).ready = false
  current : s.pc.current ≠ some k
  batch : ∀ e ∈ s.pc.batch, e.source ≠ .client k

/-- Of each connection everything is still to be sent, or nothing. -/
structure Pieces (streams : ℕ → List UInt8) (s : State) (o : Log) : Prop where
  untouched : ∀ k, (s.socket k).unsent ≠ [] → Untouched s k
  whole : ∀ k, (s.socket k).unsent = [] ∨ (s.socket k).unsent = streams k
  arrived : ∀ k, o.arrived k ++ (s.socket k).unsent = streams k

theorem pieces_start : Pieces streams (start streams old) observer.start where
  untouched k _ := ⟨.inl rfl, rfl, rfl, by simp [start, Pc.current], by simp [start, Pc.batch]⟩
  whole k := .inr rfl
  arrived k := rfl

theorem Untouched.same (h : Untouched s k) (hsocket : s'.socket k = s.socket k) (hcurrent : s'.pc.current ≠ some k)
    (hbatch : ∀ e ∈ s'.pc.batch, e ∈ s.pc.batch) : Untouched s' k where
  status := by rw [hsocket]; exact h.status
  readable := by rw [hsocket]; exact h.readable
  ready := by rw [hsocket]; exact h.ready
  current := hcurrent
  batch e he := h.batch e (hbatch e he)

/-- A step of the server that sends nothing and leaves the sockets, but for that of a connection it deals with. -/
theorem Pieces.serve (h : Pieces streams s o) {o' : Log} (harrived : o'.arrived = o.arrived)
    (hunsent : ∀ k, (s'.socket k).unsent = (s.socket k).unsent)
    (hkeep : ∀ k, Untouched s k → Untouched s' k) : Pieces streams s' o' where
  untouched k hk := hkeep k (h.untouched k (hunsent k ▸ hk))
  whole k := hunsent k ▸ h.whole k
  arrived k := by rw [harrived, hunsent k, h.arrived k]

theorem arrived_server : (observer.note .server s o).arrived = o.arrived := by
  simp only [observer]
  split <;> rfl

/-- What is sent on connection `j` has arrived, and nothing changes on others. -/
theorem Pieces.notify (h : Pieces streams s o) {j : ℕ} {x : Socket} {bytes : List UInt8} (hall : x.unsent = [])
    (hbytes : bytes = (s.socket j).unsent) :
    Pieces streams (s.notify j x) { o with arrived := Function.update o.arrived j (o.arrived j ++ bytes) } where
  untouched k hk := by
    rcases eq_or_ne k j with rfl | hj
    · exact absurd hall (by simpa [State.notify] using hk)
    · have hsocket : (s.notify j x).socket k = s.socket k := setSocket_of_ne hj _
      rw [hsocket] at hk
      exact (h.untouched k hk).same hsocket (h.untouched k hk).current fun _ he => he
  whole k := by
    rcases eq_or_ne k j with rfl | hj
    · exact .inl (by simpa [State.notify] using hall)
    · simpa [State.notify, hj] using h.whole k
  arrived k := by
    rcases eq_or_ne k j with rfl | hj
    · simp only [State.notify, setSocket_self, Function.update_self, hall, hbytes, List.append_nil]
      exact h.arrived k
    · simp only [State.notify, setSocket_of_ne hj, Function.update_of_ne hj]
      exact h.arrived k

theorem Pieces.wait (h : Pieces streams s o) {sources : List Source} (hevents : ∀ x ∈ sources, s.HasEvent x) :
    Pieces streams { s.goto (.handle (sources.map s.event)) with socket := s.reported sources } o := by
  refine h.serve rfl (fun k => ?_) fun k hk => ?_
  · simp only [State.reported]
    split <;> rfl
  · have hnot : .client k ∉ sources := fun hmem => by
      have := (hevents _ hmem).2
      rw [hk.ready] at this
      cases this
    have hsocket : s.reported sources k = s.socket k := if_neg hnot
    refine ⟨?_, ?_, ?_, by simp [State.goto, Pc.current], fun e he heq => ?_⟩
    · simp only [hsocket]
      exact hk.status
    · simp only [hsocket]
      exact hk.readable
    · simp only [hsocket]
      exact hk.ready
    obtain ⟨x, hx, rfl⟩ := List.mem_map.mp he
    cases x with
    | server => cases heq
    | client j =>
      cases heq
      exact hnot hx

/-- A step of the server about connection `j`, which is not untouched. -/
theorem Pieces.deal (h : Pieces streams s o) {j : ℕ} {x : Socket} {pc : Pc} (hj : ¬ Untouched s j)
    (hunsent : x.unsent = (s.socket j).unsent) (hcurrent : ∀ k, pc.current = some k → k = j)
    (hbatch : ∀ e ∈ pc.batch, e ∈ s.pc.batch) : Pieces streams ((s.setSocket j x).goto pc) o := by
  refine h.serve rfl (fun k => ?_) fun k hk => ?_
  · rcases eq_or_ne k j with rfl | hne
    · simp only [goto_socket, setSocket_self, hunsent]
    · simp only [goto_socket, setSocket_of_ne hne]
  · have hne : k ≠ j := fun heq => hj (heq ▸ hk)
    exact hk.same (setSocket_of_ne hne _) (fun heq => hne (hcurrent k heq)) hbatch

theorem Pieces.goto (h : Pieces streams s o) {pc : Pc} (hcurrent : ∀ k, pc.current = some k → ¬ Untouched s k)
    (hbatch : ∀ e ∈ pc.batch, e ∈ s.pc.batch) : Pieces streams (s.goto pc) o :=
  h.serve rfl (fun _ => rfl) fun k hk => hk.same rfl (fun heq => hcurrent k heq hk) hbatch

/-- The connection that the server registers may be untouched, and stays so. -/
theorem Pieces.register (h : Pieces streams s o) {j : ℕ} {events : List Event} (hpc : s.pc = .register j events) :
    Pieces streams ((s.setSocket j { s.socket j with
      status := .registered, ready := (s.socket j).readable }).goto (.handle events)) o := by
  have hbatch : s.pc.batch = events := by rw [hpc]; rfl
  refine h.serve rfl (fun k => ?_) fun k hk => ?_
  · rcases eq_or_ne k j with rfl | hne
    · simp only [goto_socket, setSocket_self]
    · simp only [goto_socket, setSocket_of_ne hne]
  · rcases eq_or_ne k j with rfl | hne
    · refine ⟨?_, ?_, ?_, by simp [State.goto, Pc.current], fun e he => hk.batch e (hbatch ▸ he)⟩
      · simp only [goto_socket, setSocket_self, or_true]
      · simp only [goto_socket, setSocket_self]
        exact hk.readable
      · simp only [goto_socket, setSocket_self]
        exact hk.readable
    · exact hk.same (setSocket_of_ne hne _) (by simp [State.goto, Pc.current]) fun e he => hbatch ▸ he

theorem Pieces.close (h : Pieces streams s o) {e : Event} {events : List Event} (hpc : s.pc = .handle (e :: events)) :
    Pieces streams ((s.close e.source).goto (.handle events)) o := by
  have hbatch : s.pc.batch = e :: events := by rw [hpc]; rfl
  have hsub : ∀ e' ∈ (Pc.handle events).batch, e' ∈ s.pc.batch := fun e' he' => hbatch ▸ List.mem_cons_of_mem _ he'
  cases hsource : e.source with
  | server => exact h.goto (by simp [Pc.current]) hsub
  | client j =>
    refine h.deal (fun hu => ?_) rfl (by simp [Pc.current]) hsub
    exact hu.batch e (hbatch ▸ List.mem_cons_self) hsource

theorem Pieces.server (h : Pieces streams s o) (hs : Step s .server s') : Pieces streams s' o := by
  -- The connection that the server deals with is not untouched.
  have hcurrent : ∀ {j}, s.pc.current = some j → ¬ Untouched s j := fun hj hu => hu.current hj
  cases hs with
  | again hpc => exact h.goto (by simp [Pc.current]) (by simp [Pc.batch])
  | close e events hpc => exact h.close hpc
  | acceptFails e events hpc => exact h.goto (by simp [Pc.current]) (by simp [Pc.batch])
  | accept e events k backlog hpc =>
    refine h.serve rfl (fun _ => rfl) fun j hj => hj.same rfl (by simp [State.goto, Pc.current]) fun e' he' => ?_
    rw [hpc]
    exact List.mem_cons_of_mem _ he'
  | readable e events k hpc hsource =>
    refine h.goto (fun j hj hu => ?_) fun e' he' => ?_
    · cases hj
      exact hu.batch e (by rw [hpc]; exact List.mem_cons_self) hsource
    · rw [hpc]
      exact List.mem_cons_of_mem _ he'
  | register k events hpc => exact h.register hpc
  | read k events hpc =>
    refine h.deal (hcurrent (by rw [hpc]; rfl)) rfl (fun j hj => ?_) fun e he => ?_
    · cases hj
      rfl
    · rw [hpc]
      exact he
  | write k chunk events hpc =>
    have hk := hcurrent (j := k) (by rw [hpc]; rfl)
    refine h.serve rfl (fun _ => rfl) fun j hj => hj.same rfl ?_ fun e he => ?_
    · have hne : k ≠ j := fun heq => hk (heq ▸ hj)
      simp only [State.goto]
      split <;> simpa [Pc.current] using hne
    · rw [hpc]
      simp only [State.goto] at he
      split at he <;> exact he
  | writeFails k events hpc =>
    refine h.goto (fun j hj => ?_) fun e he => ?_
    · cases hj
      exact hcurrent (by rw [hpc]; rfl)
    · rw [hpc]
      exact he
  | del k events hpc =>
    refine h.deal (hcurrent (by rw [hpc]; rfl)) rfl (by simp [Pc.current]) fun e he => ?_
    rw [hpc]
    exact he

theorem Pieces.step (h : Pieces streams s o) (hok : InOnePiece a s) (hs : TcpEpoll.step a s = some s') :
    Pieces streams s' (observer.note a s o) := by
  have hstep := step_cases hs
  cases a with
  | server => exact (h.server hstep).serve arrived_server (fun _ => rfl) fun _ hk => hk
  | connect =>
    cases hstep
    exact ⟨fun k hk => (h.untouched k hk).same rfl (h.untouched k hk).current fun _ he => he, h.whole, h.arrived⟩
  | arrive k n =>
    have hn : n = (s.socket k).unsent.length := hok
    cases hstep
    refine h.notify ?_ ?_
    · rw [hn, List.drop_length]
    · rw [hn, List.take_length]
  | finish k =>
    obtain ⟨⟨-, -, -, -, hnil⟩, -⟩ := Option.ite_none_right_eq_some.mp hs
    cases hstep
    have hbytes : ([] : List UInt8) = (s.socket k).unsent := hnil.symm
    have hnotify := h.notify (x := { s.socket k with eof := true }) hnil hbytes
    rwa [List.append_nil, Function.update_eq_self] at hnotify
  | reset k => exact hok.elim
  | wait sources =>
    cases hstep with
    | wait _ hpc hevents => exact h.wait hevents

/-- No bytes arrive on a connection that the server has drained. -/
theorem Pieces.inTime (h : Pieces streams s o) (hok : InOnePiece a s) (hs : TcpEpoll.step a s = some s') : InTime a s := by
  cases a with
  | arrive k n =>
    obtain ⟨⟨-, -, -, hpos, hle⟩, -⟩ := Option.ite_none_right_eq_some.mp hs
    have hu := h.untouched k fun hnil => by
      rw [hnil, List.length_nil] at hle
      omega
    rintro (hremoved | hdrains)
    · rcases hu.status with hstatus | hstatus
      · rw [hstatus] at hremoved
        cases hremoved
      · rw [hstatus] at hremoved
        cases hremoved
    · refine hu.current ?_
      cases hpc : s.pc <;> simp_all [Pc.current]
  | reset k => exact hok
  | _ => trivial

/-! ### What is read at once -/

/-- What has been received on a connection and what has been read of it are all of its stream or nothing; and the file starts
    with whole streams, `ks` being the connections in the order in which they have been written. -/
structure Whole (streams : ℕ → List UInt8) (old : List UInt8) (s : State) (o : Log) (ks : List ℕ) : Prop where
  received : ∀ k, (s.socket k).received = [] ∨ (s.socket k).received = streams k
  hand : ∀ k, s.pc.hand k = [] ∨ s.pc.hand k = streams k
  nodup : ks.Nodup
  mem_iff : ∀ k, k ∈ ks ↔ (o.written k).flatten ≠ []
  file : File.Written old (ks.flatMap streams) s.file

variable {ks : List ℕ}

theorem whole_start : Whole streams old (start streams old) observer.start [] where
  received k := .inl rfl
  hand k := .inl rfl
  nodup := .nil
  mem_iff k := by simp [observer]
  file := File.written_opened old

/-- A step that reads and writes nothing. -/
theorem Whole.same (W : Whole streams old s o ks) {o' : Log} (hreceived : ∀ k, (s'.socket k).received = (s.socket k).received)
    (hhand : ∀ k, s'.pc.hand k = []) (hwritten : o'.written = o.written) (hfile : s'.file = s.file) :
    Whole streams old s' o' ks where
  received k := hreceived k ▸ W.received k
  hand k := .inl (hhand k)
  nodup := W.nodup
  mem_iff k := hwritten ▸ W.mem_iff k
  file := hfile ▸ W.file

theorem received_setSocket {k : ℕ} {x : Socket} (h : x.received = (s.socket k).received) (j : ℕ) :
    ((s.setSocket k x).socket j).received = (s.socket j).received := by
  rcases eq_or_ne j k with rfl | hj
  · rw [setSocket_self, h]
  · rw [setSocket_of_ne hj]

/-- All that has been received is read. -/
theorem Whole.read (W : Whole streams old s o ks) (hshort : (streams k).length ≤ 256) {events : List Event} :
    Whole streams old ((s.setSocket k { s.socket k with
      received := (s.socket k).received.drop 256 }).goto (.write k (s.readResult k) events)) o ks where
  received j := by
    rcases eq_or_ne j k with rfl | hj
    · refine .inl ?_
      rw [goto_socket, setSocket_self]
      rcases W.received j with h | h
      · simp [h]
      · simp [h, hshort]
    · rw [goto_socket, setSocket_of_ne hj]
      exact W.received j
  hand j := by
    rcases eq_or_ne j k with rfl | hj
    · simp only [State.goto, State.readResult]
      split
      · rename_i hne
        refine .inr ?_
        rw [(W.received j).resolve_left hne]
        simp [Pc.hand, List.take_of_length_le hshort]
      · split
        · exact .inl (if_pos rfl)
        · exact .inl rfl
    · refine .inl ?_
      simp only [State.goto]
      cases s.readResult k with
      | none => rfl
      | some chunk => exact if_neg hj.symm
  nodup := W.nodup
  mem_iff := W.mem_iff
  file := W.file

/-- What is written is nothing, or a stream of which nothing has been written before. -/
theorem Whole.write (W : Whole streams old s o ks) (I : Inv old s o) (P : Pieces streams s o) {chunk : List UInt8}
    {events : List Event} (hpc : s.pc = .write k (some chunk) events) : ∃ ks', Whole streams old
      { s.goto (if chunk.length > 0 then .read k events else .del k events) with file := s.file.write chunk }
      { o with written := Function.update o.written k (o.written k ++ [chunk]) } ks' := by
  have hhand : ∀ j, (if chunk.length > 0 then Pc.read k events else .del k events).hand j = [] := fun j => by split <;> rfl
  have hself : s.pc.hand k = chunk := by
    rw [hpc]
    exact if_pos rfl
  have hother : ∀ j, j ≠ k → Function.update o.written k (o.written k ++ [chunk]) j = o.written j := fun j hj =>
    Function.update_of_ne hj _ _
  have hflat : (Function.update o.written k (o.written k ++ [chunk]) k).flatten = (o.written k).flatten ++ chunk := by
    rw [Function.update_self, List.flatten_append, List.flatten_singleton]
  rcases hchunk : chunk with _ | ⟨b, rest⟩
  · subst hchunk
    refine ⟨ks, W.received, fun j => .inl (hhand j), W.nodup, fun j => ?_, ?_⟩
    · rcases eq_or_ne j k with rfl | hj
      · rw [hflat, List.append_nil]
        exact W.mem_iff j
      · simp only [hother j hj]
        exact W.mem_iff j
    · have hfile := W.file.write []
      rwa [List.append_nil] at hfile
  · rw [← hchunk]
    have hne : chunk ≠ [] := by simp [hchunk]
    have hstream : chunk = streams k := by
      have h := W.hand k
      rw [hself] at h
      exact h.resolve_left hne
    have hnone : (o.written k).flatten = [] := by
      have harrived := congrArg List.length (P.arrived k)
      rw [← I.arrived k, hself] at harrived
      simp only [List.length_append, ← hstream] at harrived
      exact List.length_eq_zero_iff.mp (by omega)
    refine ⟨ks ++ [k], W.received, fun j => .inl (hhand j), ?_, fun j => ?_, ?_⟩
    · refine List.nodup_append.mpr ⟨W.nodup, List.nodup_singleton k, fun j hj i hi heq => ?_⟩
      rw [heq, List.mem_singleton.mp hi] at hj
      exact (W.mem_iff k).mp hj hnone
    · rcases eq_or_ne j k with rfl | hj
      · simp [hne]
      · simp only [hother j hj, List.mem_append, List.mem_singleton, or_iff_left hj]
        exact W.mem_iff j
    · rw [List.flatMap_append, List.flatMap_singleton, ← hstream]
      exact W.file.write chunk

theorem Whole.server (W : Whole streams old s o ks) (I : Inv old s o) (P : Pieces streams s o)
    (hshort : ∀ k, (streams k).length ≤ 256) (hs : Step s .server s') :
    ∃ ks', Whole streams old s' (observer.note .server s o) ks' := by
  cases hs with
  | again hpc | acceptFails e events hpc | accept e events k backlog hpc | readable e events k hpc | writeFails k events hpc =>
    rw [note_server (by simp [hpc])]
    refine ⟨ks, W.same ?_ ?_ ?_ ?_⟩ <;> intros <;> rfl
  | close e events hpc hbad =>
    obtain ⟨herr, hin⟩ := I.batch e (by rw [hpc]; exact List.mem_cons_self)
    simp [herr, hin] at hbad
  | register k events hpc | del k events hpc =>
    rw [note_server (by simp [hpc])]
    exact ⟨ks, W.same (received_setSocket rfl) (fun _ => rfl) rfl rfl⟩
  | read k events hpc =>
    rw [note_server (by simp [hpc])]
    exact ⟨ks, W.read (hshort k)⟩
  | write k chunk events hpc =>
    rw [note_write hpc]
    exact W.write I P hpc

theorem Whole.step (W : Whole streams old s o ks) (I : Inv old s o) (P : Pieces streams s o)
    (hshort : ∀ k, (streams k).length ≤ 256) (hok : InOnePiece a s) (hs : TcpEpoll.step a s = some s') :
    ∃ ks', Whole streams old s' (observer.note a s o) ks' := by
  have hstep := step_cases hs
  cases a with
  | server => exact W.server I P hshort hstep
  | connect =>
    cases hstep
    exact ⟨ks, W.received, W.hand, W.nodup, W.mem_iff, W.file⟩
  | arrive k n =>
    have hn : n = (s.socket k).unsent.length := hok
    obtain ⟨⟨-, -, -, hpos, -⟩, -⟩ := Option.ite_none_right_eq_some.mp hs
    have hne : (s.socket k).unsent ≠ [] := fun hnil => by
      rw [hn, hnil] at hpos
      exact absurd hpos (Nat.lt_irrefl 0)
    have hreceived : (s.socket k).received = [] := by
      have h := (P.untouched k hne).readable
      simp only [Socket.readable, Bool.or_eq_false_iff] at h
      simpa using h.1.1
    cases hstep
    refine ⟨ks, fun j => ?_, W.hand, W.nodup, W.mem_iff, W.file⟩
    rcases eq_or_ne j k with rfl | hj
    · refine .inr ?_
      rw [State.notify, setSocket_self, hn]
      simp only [hreceived, List.nil_append, List.take_length]
      exact (P.whole j).resolve_left hne
    · rw [State.notify, setSocket_of_ne hj]
      exact W.received j
  | finish k =>
    cases hstep
    refine ⟨ks, fun j => ?_, W.hand, W.nodup, W.mem_iff, W.file⟩
    have hreceived : ((s.notify k { s.socket k with eof := true }).socket j).received = (s.socket j).received :=
      received_setSocket (by rfl) j
    rw [hreceived]
    exact W.received j
  | reset k => exact hok.elim
  | wait sources =>
    cases hstep
    refine ⟨ks, W.same (fun k => ?_) (fun _ => rfl) rfl rfl⟩
    simp only [State.reported]
    split <;> rfl

/-! ### Runs -/

theorem whole_of_reach (hshort : ∀ k, (streams k).length ≤ 256)
    (h : ((machine streams old).watch observer).Reach (fun a p => InOnePiece a p.1) (s, o)) :
    (Inv old s o ∧ Pieces streams s o) ∧ ∃ ks, Whole streams old s o ks :=
  h.invariant (I := fun p => (Inv old p.1 p.2 ∧ Pieces streams p.1 p.2) ∧ ∃ ks, Whole streams old p.1 p.2 ks)
    ⟨⟨inv_start, pieces_start⟩, [], whole_start⟩ fun a p q ⟨⟨I, P⟩, ks, W⟩ hok hs => by
      obtain ⟨hstep, ho⟩ := watch_step_eq_some.mp hs
      exact ⟨⟨ho ▸ inv_step I (P.inTime hok hstep) hstep, ho ▸ P.step hok hstep⟩, ho ▸ W.step I P hshort hok hstep⟩

/-- Whenever the server waits with no event pending, what has arrived on a connection is what has been written of it. -/
theorem written_of_idle (I : Inv old s o) (hidle : Idle s) (k : ℕ) : (o.written k).flatten = o.arrived k := by
  have harrived := I.arrived k
  rw [I.received_of_idle hidle k, hidle.1] at harrived
  simpa [Pc.hand] using harrived

/-- A stream that has been written has arrived. -/
theorem Whole.arrived (W : Whole streams old s o ks) (I : Inv old s o) (P : Pieces streams s o) (hk : k ∈ ks) :
    (s.socket k).unsent = [] ∧ streams k ≠ [] := by
  have harrived : o.arrived k ≠ [] := fun hnil => by
    have h := I.arrived k
    rw [hnil, List.append_assoc] at h
    exact (W.mem_iff k).mp hk (List.append_eq_nil_iff.mp h).1
  have hstream := P.arrived k
  refine ⟨(P.whole k).resolve_right fun heq => ?_, fun hnil => ?_⟩
  · rw [heq] at hstream
    exact harrived (List.append_left_eq_self.mp hstream)
  · rw [hnil] at hstream
    exact harrived (List.append_eq_nil_iff.mp hstream).1

theorem Whole.complete (W : Whole streams old s o ks) (I : Inv old s o) (P : Pieces streams s o) (hidle : Idle s)
    (hk : (s.socket k).unsent = []) (hne : streams k ≠ []) : k ∈ ks := by
  refine (W.mem_iff k).mpr ?_
  have hstream := P.arrived k
  rw [hk, List.append_nil] at hstream
  rwa [written_of_idle I hidle k, hstream]

/-- Where the streams are short and each arrives in one piece, the file starts with whole streams at every moment, each of them
    once and all of them arrived; and whenever the server waits with no event pending, it has all that have arrived. -/
theorem written_in_one_piece (hshort : ∀ k, (streams k).length ≤ 256)
    (h : ((machine streams old).watch observer).Reach (fun a p => InOnePiece a p.1) (s, o)) :
    ∃ ks : List ℕ, ks.Nodup ∧ s.file.bytes = ks.flatMap streams ++ old.drop (ks.flatMap streams).length ∧
      (∀ k ∈ ks, (s.socket k).unsent = [] ∧ streams k ≠ []) ∧
      (Idle s → ∀ k, (s.socket k).unsent = [] → streams k ≠ [] → k ∈ ks) := by
  obtain ⟨⟨I, P⟩, ks, W⟩ := whole_of_reach hshort h
  exact ⟨ks, W.nodup, W.file.1, fun k hk => W.arrived I P hk, fun hidle k hk hne => W.complete I P hidle hk hne⟩

/-- Two connections; the second is served, and the first has yet to be read. -/
theorem written_in_one_piece_two : ∃ (s : State) (ks : List ℕ), ks.Nodup ∧ s.file.bytes = ks.flatMap (fun k => [7, UInt8.ofNat k]) ∧
    s.file.bytes = [7, 1] ∧ (s.socket 0).unsent = [] := by
  obtain ⟨⟨s, o⟩, hs, hp⟩ := exists_reach (M := (machine (fun k => [7, UInt8.ofNat k]) []).watch observer)
    (c := fun a p => InOnePiece a p.1) (p := fun p => decide (p.1.file.bytes = [7, 1] ∧ (p.1.socket 0).unsent = []))
    ([.connect, .connect, .wait [.server], .server, .server, .server, .wait [.server], .server, .server, .server, .arrive 1 2,
      .wait [.client 1]] ++ List.replicate 3 .server ++ [.arrive 0 2] ++ List.replicate 4 .server) (by decide +kernel)
  obtain ⟨hfile, hunsent⟩ := of_decide_eq_true hp
  obtain ⟨ks, hnodup, hbytes, -⟩ := written_in_one_piece (fun _ => by simp) hs
  refine ⟨s, ks, hnodup, ?_, hfile, hunsent⟩
  rwa [List.drop_nil, List.append_nil] at hbytes

end Racey.TcpEpoll
