import Racey.Forkpipe

/-! What racey-forkpipe and racey-clonepipe are for: writers send messages through pipes, and readers take what is there,
    up to 128 bytes at a time, until every writer is done. How a program gets its readers to see the end of their streams
    is left out, and so are the output pipes. -/

namespace Racey.Pipes
open Forkpipe (digest fill message mixInt target)

/-- A reader, which is `done` after it has seen the end of its stream. -/
structure Reader where
  num : ℤ
  done : Bool

structure Writer where
  num : ℤ
  i : ℕ

@[ext] structure State where
  reader : ℕ → Reader
  writer : ℕ → Writer
  buf : ℕ → List UInt8

def start : State where
  reader t := ⟨signed (sigInit t), false⟩
  writer t := ⟨signed (sigInit t), 0⟩
  buf _ := []

inductive Move
  | write (t : ℕ)
  | read (t : ℕ)
  | eof (t : ℕ)

/-- A message of writer `t`, for a pipe with room for it. -/
def stepWrite (c : Config) (cap : ℕ → ℕ) (t : ℕ) (s : State) : Option State :=
  let w := s.writer t
  let m := message w.num
  let num := (fill w.num).2
  let k := target c num
  if (1 ≤ t ∧ t ≤ c.numProcs) ∧ w.i < c.maxLoop ∧ (s.buf k).length + m.bytes.length ≤ cap k then
    some { s with
      writer := Function.update s.writer t ⟨mixInt num m.bytes.length, w.i + 1⟩
      buf := Function.update s.buf k (s.buf k ++ m.bytes) }
  else none

def stepRead (c : Config) (t : ℕ) (s : State) : Option State :=
  if (1 ≤ t ∧ t ≤ c.numProcs) ∧ (s.reader t).done = false ∧ s.buf t ≠ [] then
    some { s with
      reader := Function.update s.reader t ⟨digest (s.reader t).num ((s.buf t).take 128), false⟩
      buf := Function.update s.buf t ((s.buf t).drop 128) }
  else none

/-- Every writer has sent its messages. -/
def State.Sent (c : Config) (s : State) : Prop := ∀ u, 1 ≤ u → u ≤ c.numProcs → (s.writer u).i = c.maxLoop

instance (c : Config) (s : State) : Decidable (s.Sent c) :=
  decidable_of_iff (∀ u < c.numProcs + 1, 1 ≤ u → (s.writer u).i = c.maxLoop)
    ⟨fun h u h1 hn => h u (Nat.lt_succ_of_le hn) h1, fun h u hn h1 => h u h1 (Nat.le_of_lt_succ hn)⟩

/-- Reader `t` sees the end of its stream. -/
def stepEof (c : Config) (t : ℕ) (s : State) : Option State :=
  if (1 ≤ t ∧ t ≤ c.numProcs) ∧ (s.reader t).done = false ∧ s.buf t = [] ∧ s.Sent c then
    some { s with reader := Function.update s.reader t ⟨digest (s.reader t).num [], true⟩ }
  else none

def step (c : Config) (cap : ℕ → ℕ) : Move → State → Option State
  | .write t => stepWrite c cap t
  | .read t => stepRead c t
  | .eof t => stepEof c t

def machine (c : Config) (cap : ℕ → ℕ) : Machine State Move := ⟨start, step c cap⟩

/-- All readers are done, and all messages have been sent. -/
def Complete (c : Config) (s : State) : Prop :=
  (∀ t, 1 ≤ t → t ≤ c.numProcs → (s.reader t).done = true) ∧ s.Sent c

/-- What a `main` can compute from the digests of the readers. -/
def outcomes (c : Config) (cap : ℕ → ℕ) : Set ℤ :=
  {v | ∃ s, (machine c cap).Reachable s ∧ Complete c s ∧ Forkpipe.mixSig c.numProcs (fun t => (s.reader t).num) = some v}

end Racey.Pipes
