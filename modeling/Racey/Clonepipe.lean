import Racey.Forkpipe

/-! racey-clonepipe, from the point where `main` has opened the pipes: the readers and writers of racey-forkpipe as threads
    of one process, which holds every descriptor. `main` closes the write ends of the input pipes when it has joined the
    writers. The pipes behave as those of racey-forkpipe do, and no system call fails. -/

namespace Racey.Clonepipe
open Forkpipe (Pipe Fd inputs output encode digest fill message mixInt target collectOne Output)

/-- Where `ReaderThread` is: not yet created, in its read loop, at the write of the digest, or done. -/
inductive ReaderPhase
  | unborn | read | write | returned
  deriving DecidableEq

inductive WriterPhase
  | unborn | loop | returned
  deriving DecidableEq

structure Reader where
  phase : ReaderPhase
  num : ℤ

structure Writer where
  phase : WriterPhase
  num : ℤ
  i : ℕ

/-- Where `main` is: the loop that spawns the threads, the join of the writers, the closes, the join of the readers, the
    loop over the output pipes, and after the signature is printed; or after a `return 1`. -/
inductive MainPc
  | spawning (i : ℕ)
  | joinWriters (i : ℕ)
  | closing (i : ℕ)
  | joinReaders (i : ℕ)
  | readOut (i : ℕ) (mix_sig : ℤ)
  | printed (mix_sig : ℤ)
  | failed
  deriving DecidableEq

/-- The state: the threads, the descriptors that are open, and the bytes in each pipe. -/
structure State where
  main : MainPc
  reader : ℕ → Reader
  writer : ℕ → Writer
  fds : Fd → Bool
  buf : Pipe → List UInt8

def start (c : Config) : State where
  main := .spawning 1
  reader _ := ⟨.unborn, 0⟩
  writer _ := ⟨.unborn, 0, 0⟩
  fds fd := fd.pipe.Opened c
  buf _ := []

namespace State

@[simps -fullyApplied] def setMain (s : State) (m : MainPc) : State := { s with main := m }

@[simps -fullyApplied] def setReader (s : State) (t : ℕ) (r : Reader) : State := { s with reader := Function.update s.reader t r }

@[simps -fullyApplied] def setWriter (s : State) (t : ℕ) (w : Writer) : State := { s with writer := Function.update s.writer t w }

@[simps -fullyApplied] def setBuf (s : State) (p : Pipe) (bytes : List UInt8) : State := { s with buf := Function.update s.buf p bytes }

@[simps -fullyApplied] def close (s : State) (fd : Fd) : State := { s with fds := Function.update s.fds fd false }

/-- `read`: up to `n` bytes from the front of the pipe. It blocks while the pipe is empty and its write end is open. -/
def read (s : State) (pipe : Pipe) (n : ℕ) : Option (List UInt8 × State) :=
  if s.fds ⟨pipe, .rd⟩ = true ∧ (s.buf pipe ≠ [] ∨ s.fds ⟨pipe, .wr⟩ = false) then
    some ((s.buf pipe).take n, s.setBuf pipe ((s.buf pipe).drop n))
  else none

/-- `write`: all of the bytes to the back of the pipe. It blocks while the pipe has no room for them. -/
def write (cap : Pipe → ℕ) (s : State) (pipe : Pipe) (bytes : List UInt8) : Option State :=
  if s.fds ⟨pipe, .wr⟩ = true ∧ s.fds ⟨pipe, .rd⟩ = true ∧ (s.buf pipe).length + bytes.length ≤ cap pipe then
    some (s.setBuf pipe (s.buf pipe ++ bytes))
  else none

end State

/-! ### The steps -/

def stepReader (cap : Pipe → ℕ) (t : ℕ) (s : State) : Option State :=
  let th := s.reader t
  match th.phase with
  | .unborn | .returned => none
  | .read => (s.read (.inputs t) 128).map fun r =>
      r.2.setReader t ⟨if r.1.length > 0 then .read else .write, digest th.num r.1⟩
  | .write => (s.write cap (.output t) (encode th.num)).map fun s => s.setReader t { th with phase := .returned }

def stepWriter (c : Config) (cap : Pipe → ℕ) (t : ℕ) (s : State) : Option State :=
  let th := s.writer t
  match th.phase with
  | .unborn | .returned => none
  | .loop =>
    if th.i < c.maxLoop then
      let m := message th.num
      let num := (fill th.num).2
      (s.write cap (.inputs (target c num)) m.bytes).map fun s =>
        s.setWriter t ⟨.loop, mixInt num m.bytes.length, th.i + 1⟩
    else some (s.setWriter t { th with phase := .returned })

/-- `pthread_create` of `threads[i]`, with `tids[i]` for its number. -/
def State.spawn (s : State) (i : ℕ) : State :=
  let t := (i + 1) / 2
  if i % 2 = 1 then s.setReader t ⟨.read, signed (sigInit t)⟩ else s.setWriter t ⟨.loop, signed (sigInit t), 0⟩

/-- `pthread_join` of `threads[i]` need not wait. -/
def State.Returned (s : State) (i : ℕ) : Prop :=
  let t := (i + 1) / 2
  if i % 2 = 1 then (s.reader t).phase = .returned else (s.writer t).phase = .returned

instance (s : State) (i : ℕ) : Decidable (s.Returned i) := inferInstanceAs (Decidable (ite _ _ _))

/-- `read(output[i][RD], &num, sizeof(num))` of `main`. -/
def readOutput (s : State) (i : ℕ) : Option (Output × State) := (s.read (.output i) 4).map fun r => (.ofBytes r.1, r.2)

def stepMain (c : Config) (s : State) : Option State :=
  match s.main with
  | .spawning i =>
    if i ≤ c.numProcs * 2 then some ((s.spawn i).setMain (.spawning (i + 1))) else some (s.setMain (.joinWriters 1))
  | .joinWriters i =>
    if i ≤ c.numProcs * 2 then
      if i % 2 = 0 → s.Returned i then some (s.setMain (.joinWriters (i + 1))) else none
    else some (s.setMain (.closing 1))
  | .closing i =>
    if i ≤ c.numProcs then some ((s.close (inputs i .wr)).setMain (.closing (i + 1))) else some (s.setMain (.joinReaders 1))
  | .joinReaders i =>
    if i ≤ c.numProcs * 2 then
      if i % 2 = 1 → s.Returned i then some (s.setMain (.joinReaders (i + 1))) else none
    else some (s.setMain (.readOut 1 (signed (sigInit 0))))
  | .readOut i mix_sig =>
    if i < c.numProcs then
      (readOutput s i).map fun o =>
        match collectOne mix_sig o.1 with
        | some mix_sig => o.2.setMain (.readOut (i + 1) mix_sig)
        | none => o.2.setMain .failed
    else some (s.setMain (.printed mix_sig))
  | .printed _ | .failed => none

inductive Move
  | main
  | reader (t : ℕ)
  | writer (t : ℕ)

def step (c : Config) (cap : Pipe → ℕ) : Move → State → Option State
  | .main => stepMain c
  | .reader t => stepReader cap t
  | .writer t => stepWriter c cap t

/-- All threads, with pipes of the given capacities. -/
def machine (c : Config) (cap : Pipe → ℕ) : Machine State Move := ⟨start c, step c cap⟩

/-- The values of `mix_sig` that some interleaving lets `main` compute. -/
def outcomes (c : Config) (cap : Pipe → ℕ) : Set ℤ :=
  {mix_sig | ∃ s, (machine c cap).Reachable s ∧ s.main = .printed mix_sig}

end Racey.Clonepipe
