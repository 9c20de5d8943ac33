import Mathlib.Data.Int.Basic
import Racey.Lib.Interleave
import Racey.Lib.Machine

/-! racey-tcp-server, from the point where `main` has set `barrier`: `main` accepts connections and pushes their
    descriptors on a stack; `WORKER_NUM` workers pop them, and copy what they read to the output file. Each
    critical section is one step, and so is each call of `accept`, `read` and `close`. -/

namespace Racey.TcpServer

/-- `WORKER_NUM`. -/
def workerNum : ℕ := 10

inductive MainPc
  /-- Before `accept`. -/
  | accept
  /-- In the loop that pushes `client_fd`. -/
  | push (clientFd : ℤ)
  /-- `accept` has failed, and `main` has returned. -/
  | returned
  deriving DecidableEq

/-- Where a worker is, and what is in its `fd`, `n` and `buf`. -/
inductive WorkerPc
  /-- Before it looks at the stack. -/
  | poll
  | read (fd : ℤ)
  /-- Before it writes what it has read: `none` if the read failed, so that `n` is -1. -/
  | write (fd : ℤ) (chunk : Option (List UInt8))
  | close (fd : ℤ)
  deriving DecidableEq

/-- The state. `clientFds i` is the word at `client_fds[i]`, whether or not `i` is an index of the array. Of the
    system: the connection that each open descriptor stands for, where connections are numbered in the order in
    which they are accepted; how many there are; and what has not been read of each. -/
structure State where
  main : MainPc
  worker : ℕ → WorkerPc
  clientFds : ℤ → ℤ
  clientIdx : ℤ
  conn : ℤ → Option ℕ
  accepted : ℕ
  unread : ℕ → List UInt8
  file : File UInt8

/-- `client_fds` is filled with -1, and other words are what they are. -/
def initialFds (memory : ℤ → ℤ) (i : ℤ) : ℤ := if 0 ≤ i ∧ i < workerNum then -1 else memory i

/-- The server is to receive the given streams, and its output file has the given contents. -/
def start (memory : ℤ → ℤ) (streams : ℕ → List UInt8) (old : List UInt8) : State where
  main := .accept
  worker _ := .poll
  clientFds := initialFds memory
  clientIdx := -1
  conn _ := none
  accepted := 0
  unread := streams
  file := .opened old

/-- The moves. `accept fd` is the call that returns `fd`, and `read w n` the one that returns `n`. -/
inductive Move
  | accept (fd : ℤ)
  | acceptFails
  | push
  | poll (w : ℕ)
  | read (w n : ℕ)
  | readFails (w : ℕ)
  | write (w : ℕ)
  | close (w : ℕ)
  deriving DecidableEq

namespace State

def setWorker (s : State) (w : ℕ) (pc : WorkerPc) : State := { s with worker := Function.update s.worker w pc }

@[simp] theorem setWorker_self (s : State) (w : ℕ) (pc : WorkerPc) : (s.setWorker w pc).worker w = pc := by
  simp [setWorker]

@[simp] theorem setWorker_of_ne (s : State) {w v : ℕ} (h : v ≠ w) (pc : WorkerPc) :
    (s.setWorker w pc).worker v = s.worker v := by simp [setWorker, h]

/-- `accept` returns a descriptor that is not open. -/
def accept (s : State) (fd : ℤ) : State :=
  { s with main := .push fd, conn := Function.update s.conn fd (some s.accepted), accepted := s.accepted + 1 }

/-- The critical section of `main`, which pushes the descriptor if it finds room. -/
def push (s : State) (clientFd : ℤ) : State :=
  if s.clientIdx < workerNum then
    { s with
      clientIdx := s.clientIdx + 1
      clientFds := Function.update s.clientFds (s.clientIdx + 1) clientFd
      main := .accept }
  else s

/-- The critical section of a worker, which takes the descriptor on top of the stack if it finds one. -/
def poll (s : State) (w : ℕ) : State :=
  if s.clientFds s.clientIdx > 0 then
    { s.setWorker w (.read (s.clientFds s.clientIdx)) with
      clientFds := Function.update s.clientFds s.clientIdx (-1)
      clientIdx := s.clientIdx - 1 }
  else s

/-- A worker reads the next `n` bytes of connection `k`. -/
def read (s : State) (w : ℕ) (fd : ℤ) (k n : ℕ) : State :=
  { s.setWorker w (.write fd (some ((s.unread k).take n))) with
    unread := Function.update s.unread k ((s.unread k).drop n) }

/-- `write(output_fd, buf, n)` under `file_lock`, and the test `n > 0`. A `write` of -1 bytes fails. -/
def write (s : State) (w : ℕ) (fd : ℤ) : Option (List UInt8) → State
  | some chunk =>
    { s.setWorker w (if chunk.length > 0 then .read fd else .close fd) with file := s.file.write chunk }
  | none => s.setWorker w (.close fd)

def close (s : State) (w : ℕ) (fd : ℤ) : State :=
  { s.setWorker w .poll with conn := Function.update s.conn fd none }

end State

/-- A `read` of up to 256 bytes that returns `n`: it returns 0 at the end of the stream only. -/
def CanRead (unread : List UInt8) (n : ℕ) : Prop := n ≤ 256 ∧ n ≤ unread.length ∧ (n = 0 → unread = [])

instance (unread : List UInt8) (n : ℕ) : Decidable (CanRead unread n) := inferInstanceAs (Decidable (_ ∧ _ ∧ _))

/-- A step of `main` or of a worker, while the process runs. -/
def stepMain (a : Move) (s : State) : Option State :=
  match a, s.main with
  | .accept fd, .accept => if 0 ≤ fd ∧ s.conn fd = none then some (s.accept fd) else none
  | .acceptFails, .accept => some { s with main := .returned }
  | .push, .push clientFd => some (s.push clientFd)
  | _, _ => none

def stepWorker (w : ℕ) (a : Move) (s : State) : Option State :=
  if w < workerNum ∧ s.main ≠ .returned then
    match a, s.worker w with
    | .poll _, .poll => some (s.poll w)
    | .read _ n, .read fd =>
      (s.conn fd).bind fun k => if CanRead (s.unread k) n then some (s.read w fd k n) else none
    | .readFails _, .read fd => some (s.setWorker w (.write fd none))
    | .write _, .write fd chunk => some (s.write w fd chunk)
    | .close _, .close fd => some (s.close w fd)
    | _, _ => none
  else none

def step (a : Move) (s : State) : Option State :=
  match a with
  | .accept _ | .acceptFails | .push => stepMain a s
  | .poll w | .read w _ | .readFails w | .write w | .close w => stepWorker w a s

def machine (memory : ℤ → ℤ) (streams : ℕ → List UInt8) (old : List UInt8) : Machine State Move :=
  ⟨start memory streams old, step⟩

/-! ### What is observed of a run -/

/-- The indices at which `main` has stored; the connections that workers have taken, in order; of each connection
    the chunks read and the chunks written; and the connections that have been closed. -/
structure Log where
  stores : List ℤ
  taken : List ℕ
  read : ℕ → List (List UInt8)
  written : ℕ → List (List UInt8)
  closed : List ℕ

def Log.start : Log := ⟨[], [], fun _ => [], fun _ => [], []⟩

def observer : Machine.Observer State Move Log where
  start := .start
  note
    | .push, s, o => if s.clientIdx < workerNum then { o with stores := o.stores ++ [s.clientIdx + 1] } else o
    | .poll _, s, o =>
      if s.clientFds s.clientIdx > 0 then { o with taken := o.taken ++ (s.conn (s.clientFds s.clientIdx)).toList } else o
    | .read w n, s, o =>
      match s.worker w with
      | .read fd =>
        match s.conn fd with
        | some k => { o with read := Function.update o.read k (o.read k ++ [(s.unread k).take n]) }
        | none => o
      | _ => o
    | .write w, s, o =>
      match s.worker w with
      | .write fd (some chunk) =>
        match s.conn fd with
        | some k => { o with written := Function.update o.written k (o.written k ++ [chunk]) }
        | none => o
      | _ => o
    | .close w, s, o =>
      match s.worker w with
      | .close fd => { o with closed := o.closed ++ (s.conn fd).toList }
      | _ => o
    | _, _, o => o

/-! ### The bound of the stack -/

def StackBounded (s : State) : Prop := -1 ≤ s.clientIdx ∧ s.clientIdx ≤ workerNum - 1

instance (s : State) : Decidable (StackBounded s) := inferInstanceAs (Decidable (_ ∧ _))

/-- The move does not push on a full stack, and no worker looks at an empty stack while the word in front of
    `client_fds[0]` is positive. -/
def KeepsStack (a : Move) (s : State) : Prop :=
  match a with
  | .push => s.clientIdx ≠ workerNum - 1
  | .poll _ => ¬(s.clientIdx = -1 ∧ s.clientFds (-1) > 0)
  | _ => True

instance (a : Move) (s : State) : Decidable (KeepsStack a s) := by
  unfold KeepsStack
  split <;> infer_instance

/-! ### The copies of the streams -/

/-- `accept` returns positive descriptors, at most `WORKER_NUM` connections are queued, and no `read` fails. -/
def Assumed (a : Move) (s : State) : Prop :=
  match a with
  | .accept fd => 0 < fd
  | .push => s.clientIdx + 1 < workerNum
  | .readFails _ => False
  | _ => True

instance (a : Move) (s : State) : Decidable (Assumed a s) := by
  unfold Assumed
  split <;> infer_instance

/-- The move is one by which the connections that have been accepted get on: nothing fails, there is room on the stack for what
    is pushed, and a worker that looks at the stack takes a descriptor. -/
def Works (a : Move) (s : State) : Prop :=
  match a with
  | .push => s.clientIdx + 1 < workerNum
  | .poll _ => s.clientFds s.clientIdx > 0
  | .read _ _ | .write _ | .close _ => True
  | _ => False

instance (a : Move) (s : State) : Decidable (Works a s) := by
  unfold Works
  split <;> infer_instance

/-- Connection `k` waits to be taken: `main` is about to push it, or it is on the stack. -/
def Queued (s : State) (k : ℕ) : Prop :=
  (∃ fd, s.main = .push fd ∧ s.conn fd = some k) ∨
    ∃ i, 0 ≤ i ∧ i ≤ s.clientIdx ∧ s.conn (s.clientFds i) = some k

/-- The server, which receives the given streams, has done right so far: no connection is taken twice, and none is
    dropped; the file starts with an interleaving of the chunks given by `chunks`, in which those of a connection
    come once, unbroken and in order; each stream is read in order; and all of a closed one is in the file. -/
structure Serves (streams : ℕ → List UInt8) (old : List UInt8) (chunks : Log → ℕ → List (List UInt8)) (s : State)
    (o : Log) : Prop where
  taken_once : o.taken.Nodup
  not_dropped : ∀ k < s.accepted, k ∈ o.taken ∨ Queued s k
  file : ∃ l, Interleave.IsInterleaving (chunks o) l ∧ s.file.bytes = l.flatten ++ old.drop l.flatten.length
  in_order : ∀ k, (o.read k).flatten ++ s.unread k = streams k
  closed : ∀ k ∈ o.closed, (chunks o k).flatten = streams k

/-- A worker has read the chunk from connection `k` and not written it yet. -/
def InHand (s : State) (k : ℕ) (chunk : List UInt8) : Prop :=
  ∃ w fd, s.worker w = .write fd (some chunk) ∧ s.conn fd = some k

/-! ### The slots that workers look at -/

/-- The slots of `client_fds` that `main` has filled and no worker has taken yet; and of each look of a worker at
    `client_fds[client_idx]` the index, and whether it was one of these slots. -/
structure Slots where
  filled : ℤ → Bool
  looks : List (ℤ × Bool)

/-- A worker that takes a descriptor clears the slot that it has looked at. -/
def slotObserver : Machine.Observer State Move Slots where
  start := ⟨fun _ => false, []⟩
  note
    | .push, s, o =>
      if s.clientIdx < workerNum then { o with filled := Function.update o.filled (s.clientIdx + 1) true } else o
    | .poll _, s, o =>
      { filled := if s.clientFds s.clientIdx > 0 then Function.update o.filled s.clientIdx false else o.filled
        looks := o.looks ++ [(s.clientIdx, o.filled s.clientIdx)] }
    | _, _, o => o

/-- Every look was at a slot of the array, one that was filled and not taken. -/
def ValidLooks (o : Slots) : Prop := ∀ x ∈ o.looks, 0 ≤ x.1 ∧ x.1 ≤ (workerNum : ℤ) - 1 ∧ x.2 = true

instance (o : Slots) : Decidable (ValidLooks o) := inferInstanceAs (Decidable (∀ x ∈ o.looks, _))

/-- No worker looks at the stack while `client_idx` is -1, as it is when nothing is queued, or `WORKER_NUM`, as it is
    after a push on a full stack. -/
def LooksInside (a : Move) (s : State) : Prop :=
  match a with
  | .poll _ => s.clientIdx ≠ -1 ∧ s.clientIdx ≠ workerNum
  | _ => True

instance (a : Move) (s : State) : Decidable (LooksInside a s) := by
  unfold LooksInside
  split <;> infer_instance

end Racey.TcpServer
