import Racey.Lib.Interleave
import Racey.Lib.Machine

/-! racey-tcp-server-epoll, from the point where `main` enters its event loop, with the sockets and the interest list
    that it works on. The clients are numbered in the order in which they connect; the descriptor of a connection is
    named by its client. `accept`, `fcntl` and `epoll_ctl` succeed. -/

namespace Racey.TcpEpoll

/-- `MAX_EVENTS`. -/
def maxEvents : ℕ := 2048

/-- What an event is about: the listening socket, or a connection. -/
inductive Source
  | server
  | client (k : ℕ)
  deriving DecidableEq

/-- An event that `epoll_wait` has stored: `EPOLLIN` is set in it, `EPOLLERR` or `EPOLLHUP` is set in it. -/
structure Event where
  source : Source
  inSet : Bool
  errSet : Bool
  deriving DecidableEq

/-- Where the server is; `events` are those of the last `epoll_wait` that are still to be looked at. -/
inductive Pc
  /-- In `epoll_wait`. -/
  | wait
  /-- The head of the loop over the events. -/
  | handle (events : List Event)
  /-- Before it registers the connection that it has accepted. -/
  | register (k : ℕ) (events : List Event)
  | read (k : ℕ) (events : List Event)
  /-- Before `write(output_fd, buf, nr)`: `none` if the read has returned -1. -/
  | write (k : ℕ) (chunk : Option (List UInt8)) (events : List Event)
  /-- Before `epoll_ctl(efd, EPOLL_CTL_DEL, ...)`. -/
  | del (k : ℕ) (events : List Event)
  /-- `accept` has failed, and `main` has returned. -/
  | returned
  deriving DecidableEq

/-- What the server has done with a connection. -/
inductive Status
  | unaccepted
  | registered
  /-- Accepted, and not in the interest list any more. -/
  | removed
  | closed
  deriving DecidableEq

/-- A socket: the bytes that have reached it and were not read, those that its client has yet to send, whether the
    end of the stream has reached it, whether the connection was reset, and whether `epoll` is to report it. -/
structure Socket where
  status : Status
  received : List UInt8
  unsent : List UInt8
  eof : Bool
  reset : Bool
  ready : Bool

def Socket.readable (k : Socket) : Bool := !k.received.isEmpty || k.eof || k.reset

structure State where
  pc : Pc
  connected : ℕ
  backlog : List ℕ
  socket : ℕ → Socket
  file : File UInt8

/-- The clients are going to send the given streams, and the output file has the given contents. -/
def start (streams : ℕ → List UInt8) (old : List UInt8) : State where
  pc := .wait
  connected := 0
  backlog := []
  socket k := ⟨.unaccepted, [], streams k, false, false, false⟩
  file := .opened old

/-- The moves: of the clients, a connection, the arrival of bytes or of the end of a stream, a reset; the return of
    `epoll_wait` with events for the given sources; and a step of the server. -/
inductive Move
  | connect
  | arrive (k n : ℕ)
  | finish (k : ℕ)
  | reset (k : ℕ)
  | wait (sources : List Source)
  | server
  deriving DecidableEq

def Move.isReset : Move → Bool
  | .reset _ => true
  | _ => false

namespace State

def goto (s : State) (pc : Pc) : State := { s with pc := pc }

def setSocket (s : State) (k : ℕ) (x : Socket) : State := { s with socket := Function.update s.socket k x }

/-- `epoll` is to report a registered socket again when something has reached it. -/
def notify (s : State) (k : ℕ) (x : Socket) : State :=
  s.setSocket k { x with ready := x.ready || x.status = .registered }

/-- There is an event for the source. The listening socket has one while somebody waits to be accepted. -/
def HasEvent (s : State) : Source → Prop
  | .server => s.backlog ≠ []
  | .client k => (s.socket k).status = .registered ∧ (s.socket k).ready = true

instance (s : State) (x : Source) : Decidable (s.HasEvent x) := by
  cases x <;> unfold HasEvent <;> infer_instance

def event (s : State) : Source → Event
  | .server => ⟨.server, true, false⟩
  | .client k => ⟨.client k, (s.socket k).readable, (s.socket k).reset⟩

/-- An edge-triggered socket is reported once. -/
def reported (s : State) (sources : List Source) (k : ℕ) : Socket :=
  if .client k ∈ sources then { s.socket k with ready := false } else s.socket k

/-- `close(events[i].data.fd)`. Nothing goes wrong with the listening socket. -/
def close (s : State) : Source → State
  | .server => s
  | .client k => s.setSocket k { s.socket k with status := .closed, ready := false }

/-- `read(fd, buf, sizeof(buf))` of a non-blocking socket: what it returns, with `none` for -1. -/
def readResult (s : State) (k : ℕ) : Option (List UInt8) :=
  if (s.socket k).received ≠ [] then some ((s.socket k).received.take 256)
  else if (s.socket k).eof ∧ (s.socket k).reset = false then some []
  else none

end State

/-- The next step of the server, outside `epoll_wait`. -/
def stepServer (s : State) : Option State :=
  match s.pc with
  | .wait | .returned => none
  | .handle [] => some (s.goto .wait)
  | .handle (e :: events) =>
    if e.errSet ∨ e.inSet = false then some ((s.close e.source).goto (.handle events))
    else
      match e.source with
      | .server =>
        match s.backlog with
        | [] => some (s.goto .returned)
        | k :: backlog => some { s.goto (.register k events) with backlog := backlog }
      | .client k => some (s.goto (.read k events))
  | .register k events =>
    let x := s.socket k
    some ((s.setSocket k { x with status := .registered, ready := x.readable }).goto (.handle events))
  | .read k events =>
    let x := s.socket k
    some ((s.setSocket k { x with received := x.received.drop 256 }).goto (.write k (s.readResult k) events))
  | .write k (some chunk) events =>
    some { s.goto (if chunk.length > 0 then .read k events else .del k events) with file := s.file.write chunk }
  | .write k none events => some (s.goto (.del k events)) -- a `write` of -1 bytes fails
  | .del k events =>
    some ((s.setSocket k { s.socket k with status := .removed, ready := false }).goto (.handle events))

def step (a : Move) (s : State) : Option State :=
  match a with
  | .connect => some { s with connected := s.connected + 1, backlog := s.backlog ++ [s.connected] }
  | .arrive k n =>
    let x := s.socket k
    if k < s.connected ∧ x.status ≠ .closed ∧ x.reset = false ∧ 0 < n ∧ n ≤ x.unsent.length then
      some (s.notify k { x with received := x.received ++ x.unsent.take n, unsent := x.unsent.drop n })
    else none
  | .finish k =>
    let x := s.socket k
    if k < s.connected ∧ x.status ≠ .closed ∧ x.reset = false ∧ x.eof = false ∧ x.unsent = [] then
      some (s.notify k { x with eof := true })
    else none
  | .reset k =>
    let x := s.socket k
    if k < s.connected ∧ x.status ≠ .closed then some (s.notify k { x with reset := true }) else none
  | .wait sources =>
    if s.pc = .wait ∧ sources ≠ [] ∧ sources.Nodup ∧ sources.length ≤ maxEvents ∧ ∀ x ∈ sources, s.HasEvent x then
      some { s.goto (.handle (sources.map s.event)) with socket := s.reported sources }
    else none
  | .server => stepServer s

def machine (streams : ℕ → List UInt8) (old : List UInt8) : Machine State Move := ⟨start streams old, step⟩

/-! ### What is observed of a run -/

/-- The bytes that have reached each socket, and the chunks of each connection that were written. -/
structure Log where
  arrived : ℕ → List UInt8
  written : ℕ → List (List UInt8)

def observer : Machine.Observer State Move Log where
  start := ⟨fun _ => [], fun _ => []⟩
  note
    | .arrive k n, s, o =>
      { o with arrived := Function.update o.arrived k (o.arrived k ++ (s.socket k).unsent.take n) }
    | .server, s, o =>
      match s.pc with
      | .write k (some chunk) _ => { o with written := Function.update o.written k (o.written k ++ [chunk]) }
      | _ => o
    | _, _, o => o

/-- The server is in `epoll_wait`, and there is no event for it. -/
def Idle (s : State) : Prop :=
  s.pc = .wait ∧ ¬ s.HasEvent .server ∧ ∀ k < s.connected, ¬ s.HasEvent (.client k)

instance (s : State) : Decidable (Idle s) := by
  unfold Idle
  infer_instance

/-- Every byte that has reached a socket is in the file: it starts with an interleaving of chunks that make up, for
    each connection, what has arrived on it. -/
def AllWritten (old : List UInt8) (s : State) (o : Log) : Prop :=
  (∃ l, Interleave.IsInterleaving o.written l ∧ s.file.bytes = l.flatten ++ old.drop l.flatten.length) ∧
    ∀ k, (o.written k).flatten = o.arrived k

/-- The server has read from connection `k` until `read` returned no bytes, and will not read from it again. -/
def Drained (s : State) (k : ℕ) : Prop :=
  (s.socket k).status = .removed ∨
    match s.pc with
    | .write j chunk _ => j = k ∧ (chunk = none ∨ chunk = some [])
    | .del j _ => j = k
    | _ => False

instance (s : State) (k : ℕ) : Decidable (Drained s k) := by
  unfold Drained
  cases s.pc <;> infer_instance

/-- No connection is reset, and no bytes arrive on a connection that the server has drained. -/
def InTime (a : Move) (s : State) : Prop :=
  match a with
  | .arrive k _ => ¬ Drained s k
  | .reset _ => False
  | _ => True

instance (a : Move) (s : State) : Decidable (InTime a s) := by
  unfold InTime
  split <;> infer_instance

/-- What is sent on a connection arrives in one piece, and no connection is reset. -/
def InOnePiece (a : Move) (s : State) : Prop :=
  match a with
  | .arrive k n => n = (s.socket k).unsent.length
  | .reset _ => False
  | _ => True

instance (a : Move) (s : State) : Decidable (InOnePiece a s) := by
  unfold InOnePiece
  split <;> infer_instance

/-- The server goes on, or hears of something; nothing reaches it. -/
def Move.Own : Move → Prop
  | .server | .wait _ => True
  | _ => False

instance (a : Move) : Decidable a.Own := by
  unfold Move.Own
  split <;> infer_instance

/-! ### Open descriptors -/

/-- An event of the kind that `main` answers with `close`. -/
def Event.Bad (e : Event) : Prop := e.errSet ∨ e.inSet = false

instance (e : Event) : Decidable e.Bad := inferInstanceAs (Decidable (_ ∨ _))

/-- The connections that the server has accepted; and how often it has closed each of them, and taken each of them out
    of the interest list. -/
structure Fds where
  accepted : List ℕ
  closes : ℕ → ℕ
  dels : ℕ → ℕ

def fdObserver : Machine.Observer State Move Fds where
  start := ⟨[], fun _ => 0, fun _ => 0⟩
  note
    | .server, s, o =>
      match s.pc with
      | .handle (e :: _) =>
        match e.source with
        | .server => if e.Bad then o else { o with accepted := o.accepted ++ s.backlog.head?.toList }
        | .client k => if e.Bad then { o with closes := Function.update o.closes k (o.closes k + 1) } else o
      | .del k _ => { o with dels := Function.update o.dels k (o.dels k + 1) }
      | _ => o
    | _, _, o => o

/-- Every connection that was accepted is registered and has not been closed, or it is not registered any more and has
    been closed once. -/
def NoOrphans (s : State) (o : Fds) : Prop :=
  ∀ k ∈ o.accepted, ((s.socket k).status = .registered ∧ o.closes k = 0) ∨
    ((s.socket k).status ≠ .registered ∧ o.closes k = 1)

instance (s : State) (o : Fds) : Decidable (NoOrphans s o) := inferInstanceAs (Decidable (∀ k ∈ o.accepted, _))

/-- The move is not the `EPOLL_CTL_DEL` at the end of the read branch. -/
def KeepsRegistered (a : Move) (s : State) : Prop :=
  match a, s.pc with
  | .server, .del _ _ => False
  | _, _ => True

instance (a : Move) (s : State) : Decidable (KeepsRegistered a s) := by
  unfold KeepsRegistered
  split <;> infer_instance

end Racey.TcpEpoll
