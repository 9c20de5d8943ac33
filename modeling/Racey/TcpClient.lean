import Mathlib.Data.Int.Basic
import Racey.Lib.Interleave
import Racey.Lib.Machine

/-! racey-tcp-client: `main` starts `WORKER_NUM` threads and joins them; each thread sends the quotes one after the other, each
    on a connection of its own. `socket` and `connect` may fail, `write` does not. Each system call is a step, and the loop
    test is one with the call after it. -/

namespace Racey.TcpClient

/-- `WORKER_NUM`. -/
def workerNum : ℕ := 110

/-- `quote`, up to the row of zeros that ends it. -/
def quotes : List String :=
  ["I love you, Pumpkin.\n", "I love you, Honey Bunny.\n", "All right, everybody be cool, this is a robbery!\n",
    "Any of you fucking pricks move, and I'll execute every motherfucking last one of ya!\n",
    "Whose motorcycle is this?\n", "It's a chopper, baby.\n", "Whose chopper is this?\n", "It's Zed's\n", "Who's Zed?\n",
    "Zed's dead, baby. Zed's dead.\n", "You now what they call a Quarter Pounder with Cheese in France?\n", "No.\n",
    "Tell 'em, Vincent.\n", "A Royale with Cheese.\n", "A Royale with cheese! You now why they call it that?\n",
    "....Because...of the metric system?\n",
    "Check out the big brain on Brett! You're a smart motherfucker. That's right, the metric system!\n"]

/-- The characters of `quote[n]` before the first 0. -/
def quote (n : ℕ) : List Char := (quotes.getD n "").toList

/-- The `strlen(quote[n]) + 1` bytes that are written for `quote[n]`. -/
def message (n : ℕ) : List UInt8 := (quote n).map (fun ch => .ofNat ch.toNat) ++ [0]

/-- All quotes, as a thread sends them. -/
def script : List UInt8 := (List.range quotes.length).flatMap message

/-- Where a thread is, and what is in its `n` and `fd`. -/
inductive Pc
  | unborn
  /-- The test `quote[n][0] != 0`, and the call of `socket`. -/
  | socket (n : ℕ)
  | connect (n : ℕ) (fd : ℤ)
  | write (n : ℕ) (fd : ℤ)
  /-- After `n++`. -/
  | close (n : ℕ) (fd : ℤ)
  /-- The thread has returned; `lost` is a socket that it has left open. -/
  | returned (n : ℕ) (lost : Option ℤ)
  deriving DecidableEq

inductive MainPc
  | creating (i : ℕ)
  | joining (i : ℕ)
  | returned
  deriving DecidableEq

/-- The state. Of the system: the open descriptors, each with the connection that it stands for, if it is connected; and of
    the connections, which are numbered in the order in which they are made, what the client has sent on them, and whether it
    has closed its end. -/
structure State where
  main : MainPc
  worker : ℕ → Pc
  conn : ℤ → Option (Option ℕ)
  connected : ℕ
  sent : ℕ → List UInt8
  closed : ℕ → Bool

def start : State where
  main := .creating 0
  worker _ := .unborn
  conn _ := none
  connected := 0
  sent _ := []
  closed _ := false

/-- The moves; `socket w fd` is the call that returns `fd`. -/
inductive Move
  | main
  | socket (w : ℕ) (fd : ℤ)
  | socketFails (w : ℕ)
  | connect (w : ℕ)
  | connectFails (w : ℕ)
  | write (w : ℕ)
  | close (w : ℕ)
  | leave (w : ℕ)
  deriving DecidableEq

namespace State

def setWorker (s : State) (w : ℕ) (pc : Pc) : State := { s with worker := Function.update s.worker w pc }

def setConn (s : State) (fd : ℤ) (k : Option (Option ℕ)) : State := { s with conn := Function.update s.conn fd k }

end State

def stepMain (s : State) : Option State :=
  match s.main with
  | .creating i =>
    if i < workerNum then some { s.setWorker i (.socket 0) with main := .creating (i + 1) }
    else some { s with main := .joining 0 }
  | .joining i =>
    if i < workerNum then
      match s.worker i with
      | .returned _ _ => some { s with main := .joining (i + 1) }
      | _ => none
    else some { s with main := .returned }
  | .returned => none

def step (a : Move) (s : State) : Option State :=
  match a with
  | .main => stepMain s
  | .socket w fd =>
    match s.worker w with
    | .socket n =>
      if quote n ≠ [] ∧ 0 ≤ fd ∧ s.conn fd = none then some ((s.setWorker w (.connect n fd)).setConn fd (some none)) else none
    | _ => none
  | .socketFails w =>
    match s.worker w with
    | .socket n => if quote n ≠ [] then some (s.setWorker w (.returned n none)) else none
    | _ => none
  | .connect w =>
    match s.worker w with
    | .connect n fd =>
      some { (s.setWorker w (.write n fd)).setConn fd (some (some s.connected)) with connected := s.connected + 1 }
    | _ => none
  | .connectFails w =>
    match s.worker w with
    | .connect n fd => some (s.setWorker w (.returned n (some fd)))
    | _ => none
  | .write w =>
    match s.worker w with
    | .write n fd =>
      match s.conn fd with
      | some (some k) =>
        some { s.setWorker w (.close (n + 1) fd) with sent := Function.update s.sent k (s.sent k ++ message n) }
      | _ => none
    | _ => none
  | .close w =>
    match s.worker w with
    | .close n fd =>
      match s.conn fd with
      | some (some k) =>
        some { (s.setWorker w (.socket n)).setConn fd none with closed := Function.update s.closed k true }
      | _ => none
    | _ => none
  | .leave w =>
    match s.worker w with
    | .socket n => if quote n = [] then some (s.setWorker w (.returned n none)) else none
    | _ => none

def machine : Machine State Move := ⟨start, step⟩

/-- The move is a call that fails. -/
def Move.Fails : Move → Prop
  | .socketFails _ | .connectFails _ => True
  | _ => False

/-! ### What is observed of a run -/

/-- The connections in the order in which they are made: the thread, and the number of the quote. -/
def connections : Machine.Observer State Move (List (ℕ × ℕ)) where
  start := []
  note
    | .connect w, s, o =>
      match s.worker w with
      | .connect n _ => o ++ [(w, n)]
      | _ => o
    | _, _, o => o

/-- How many connections a thread has made. -/
def Pc.made : Pc → ℕ
  | .unborn => 0
  | .socket n | .connect n _ | .close n _ | .returned n _ => n
  | .write n _ => n + 1

/-- What the client has done with its connections, listed in `d`. The connections of a thread are for the quotes, one after
    the other; on each is sent nothing yet, or its quote; and it is not closed before that. Of the sockets that are left open
    in the end, a thread has one that it could not connect. -/
structure Sends (s : State) (d : List (ℕ × ℕ)) : Prop where
  in_order : ∀ w, Interleave.of w d = List.range (s.worker w).made ∧ (s.worker w).made ≤ quotes.length
  threads : ∀ p ∈ d, p.1 < workerNum
  sent : ∀ k p, d[k]? = some p → s.sent k = message p.2 ∨ s.sent k = [] ∧ s.closed k = false
  not_sent : ∀ k, d.length ≤ k → s.sent k = []
  finished : s.main = .returned → (∀ k < d.length, s.closed k = true) ∧
    ∀ fd, s.conn fd ≠ none ↔ ∃ w n, s.worker w = .returned n (some fd)

/-- Every thread has sent all quotes. -/
def AllSent (s : State) : Prop := ∀ w < workerNum, s.worker w = .returned quotes.length none

end Racey.TcpClient
