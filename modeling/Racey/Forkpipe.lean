import Racey.Lib.Frames
import Racey.Lib.Machine
import Racey.Mix
import Mathlib.Tactic.Simps.Basic

/-! racey-forkpipe: `main` forks `NumProcs` readers and `NumProcs` writers, waits for all of them, and reads
    the output pipes. The machine's moves are the steps of the processes; a step that a pipe or `wait` would
    block cannot be taken, and no system call fails. -/

namespace Racey.Forkpipe

/-! ### Pipes and descriptors -/

/-- The ends of a pipe: `RD` and `WR`. -/
inductive End
  | rd | wr
  deriving DecidableEq

inductive Pipe
  | inputs (i : ℕ)
  | output (i : ℕ)
  deriving DecidableEq

def Pipe.index : Pipe → ℕ
  | .inputs i | .output i => i

structure Fd where
  pipe : Pipe
  side : End
  deriving DecidableEq

def inputs (i : ℕ) (e : End) : Fd := ⟨.inputs i, e⟩

def output (i : ℕ) (e : End) : Fd := ⟨.output i, e⟩

/-- The pipe is one of those that `main` opens, for `i` from 1 to `NumProcs`. -/
def Pipe.Opened (c : Config) (p : Pipe) : Prop := 1 ≤ p.index ∧ p.index ≤ c.numProcs

instance (c : Config) (p : Pipe) : Decidable (p.Opened c) := inferInstanceAs (Decidable (_ ∧ _))

/-! ### The ints in the pipes -/

/-- The four bytes of an `int`, the lowest first. -/
def encode (x : ℤ) : List UInt8 :=
  [.ofNat (unsigned x), .ofNat (unsigned x / 256), .ofNat (unsigned x / 65536), .ofNat (unsigned x / 16777216)]

/-- The `int` that four bytes are read as. -/
def decode (bytes : List UInt8) : ℤ := signed (bytes.foldr (fun b n => b.toNat + 256 * n) 0)

/-- `numbers[k]` for `k < r / sizeof(*numbers)`, where the first `r` bytes are those read. -/
def numbers (buffer : List UInt8) : List ℤ := Frames.items 4 decode buffer

/-- `num = mix(num, j)` for an `int` `num`. -/
def mixInt (num j : ℤ) : ℤ := signed (mix (unsigned num) (unsigned j))

/-- A reader's `num` after a read that returned the bytes of `buffer`: `r`, then the numbers, are mixed in.
    At end of file there are none. -/
def digest (num : ℤ) (buffer : List UInt8) : ℤ := (numbers buffer).foldl mixInt (mixInt num buffer.length)

def fillOne (p : List ℤ × ℤ) (k : ℕ) : List ℤ × ℤ :=
  let num := mixInt p.2 (k * prime1)
  let num := mixInt num (prime2 / (k + 1))
  (p.1 ++ [num], num)

/-- A writer's loop over `buffer`: what it stores there, and `num` after it. -/
def fill (num : ℤ) : List ℤ × ℤ := (List.range 16).foldl fillOne ([], num)

def IsInt (x : ℤ) : Prop := -2147483648 ≤ x ∧ x < 2147483648

theorem isInt_signed {n : ℕ} (h : n < 4294967296) : IsInt (signed n) := by
  unfold IsInt signed
  split <;> omega

theorem isInt_mixInt (num j : ℤ) : IsInt (mixInt num j) :=
  isInt_signed ((Nat.mod_lt _ (by decide)).trans (by decide : prime1 < 4294967296))

theorem length_foldl_fillOne (ks : List ℕ) (p : List ℤ × ℤ) :
    (ks.foldl fillOne p).1.length = p.1.length + ks.length := by
  induction ks generalizing p with
  | nil => rfl
  | cons k ks ih =>
    rw [List.foldl_cons, ih, List.length_cons, fillOne, List.length_append, List.length_singleton]
    omega

theorem isInt_foldl_fillOne {ks : List ℕ} {p : List ℤ × ℤ} (h : ∀ x ∈ p.1, IsInt x) :
    ∀ x ∈ (ks.foldl fillOne p).1, IsInt x := by
  induction ks generalizing p with
  | nil => exact h
  | cons k ks ih =>
    refine ih fun x hx => ?_
    obtain hx | hx := List.mem_append.mp hx
    · exact h x hx
    · rw [List.mem_singleton.mp hx]
      exact isInt_mixInt _ _

/-- What a writer sends at a time: `int buffer[16]`. -/
structure Message where
  buffer : List ℤ
  length_eq : buffer.length = 16
  isInt : ∀ x ∈ buffer, IsInt x

def message (num : ℤ) : Message where
  buffer := (fill num).1
  length_eq := length_foldl_fillOne _ _
  isInt := isInt_foldl_fillOne (by simp)

def Message.bytes (m : Message) : List UInt8 := m.buffer.flatMap encode

/-- `target = (num % NumProcs) + 1`, where `num` is what `mix` returned and not negative. -/
def target (c : Config) (num : ℤ) : ℕ := (num.tmod c.numProcs).toNat + 1

/-! ### The processes -/

inductive Proc
  | main
  | reader (threadId : ℕ)
  | writer (threadId : ℕ)
  deriving DecidableEq

/-- Where a child is: not yet forked, in the closes at its start, in the middle part `β`, in the closes at
    its end, or gone. Each close is a step. -/
inductive Phase (β : Type)
  | unborn
  | start (todo : List Fd)
  | body (pc : β)
  | finish (todo : List Fd)
  | exited

/-- The middle part of `ReaderProcess`: the read loop, and the write of the digest. -/
inductive ReaderPc
  | read | write

inductive WriterPc
  | loop

structure Reader where
  phase : Phase ReaderPc
  num : ℤ

structure Writer where
  phase : Phase WriterPc
  num : ℤ
  i : ℕ

/-- Where `main` is: the fork loop, the closes, the wait loop, the loop over the output pipes, and after the
    signature is printed; or after a `return 1` of the loop over the output pipes. -/
inductive MainPc
  | forking (i : ℕ)
  | closing (todo : List Fd)
  | waiting (i : ℕ)
  | readOut (i : ℕ) (mix_sig : ℤ)
  | printed (mix_sig : ℤ)
  | failed
  deriving DecidableEq

/-- The state: the processes, the descriptors that each of them holds, the bytes in each pipe, the children
    that have exited and are not yet waited for, and the numbers in the lines "R: %d" printed so far. -/
structure State where
  main : MainPc
  reader : ℕ → Reader
  writer : ℕ → Writer
  fds : Proc → Fd → Bool
  buf : Pipe → List UInt8
  zombies : List Proc
  lines : List ℕ

/-- After `main` has opened the pipes. -/
def start (c : Config) : State where
  main := .forking 1
  reader _ := ⟨.unborn, 0⟩
  writer _ := ⟨.unborn, 0, 0⟩
  fds p fd := p = .main ∧ fd.pipe.Opened c
  buf _ := []
  zombies := []
  lines := []

/-! ### The descriptors each process closes -/

/-- `for (i=1; i <= NumProcs; ++i)` around closes that depend on `i`. -/
def closes (c : Config) (f : ℕ → List Fd) : List Fd := (List.range' 1 c.numProcs).flatMap f

/-- The closes at the start of `ReaderProcess`. -/
def readerUnused (c : Config) (threadId : ℕ) : List Fd :=
  closes c fun i =>
    if i = threadId then [inputs i .wr, output i .rd]
    else [inputs i .rd, inputs i .wr, output i .rd, output i .wr]

def readerEnds (threadId : ℕ) : List Fd := [inputs threadId .rd, output threadId .wr]

/-- The closes at the start of `WriterProcess`. -/
def writerUnused (c : Config) : List Fd := closes c fun i => [output i .rd, output i .wr]

def writerEnds (c : Config) : List Fd := closes c fun i => [inputs i .rd, inputs i .wr]

/-- The closes of `main`. -/
def mainUnused (c : Config) : List Fd := closes c fun i => [inputs i .rd, inputs i .wr, output i .wr]

/-! ### Descriptors and pipes in a state -/

namespace State

@[simps -fullyApplied] def setMain (s : State) (m : MainPc) : State := { s with main := m }

@[simps -fullyApplied] def setReader (s : State) (t : ℕ) (r : Reader) : State := { s with reader := Function.update s.reader t r }

@[simps -fullyApplied] def setWriter (s : State) (t : ℕ) (w : Writer) : State := { s with writer := Function.update s.writer t w }

@[simps -fullyApplied] def setFds (s : State) (p : Proc) (held : Fd → Bool) : State := { s with fds := Function.update s.fds p held }

@[simps -fullyApplied] def setBuf (s : State) (p : Pipe) (bytes : List UInt8) : State := { s with buf := Function.update s.buf p bytes }

@[simps! -fullyApplied] def close (s : State) (p : Proc) (fd : Fd) : State := s.setFds p (Function.update (s.fds p) fd false)

/-- The process exits: what it still holds is closed, and `main` can wait for it. -/
@[simps! -fullyApplied] def exit (s : State) (p : Proc) : State := { s.setFds p (fun _ => false) with zombies := s.zombies ++ [p] }

def isOpen (c : Config) (s : State) (fd : Fd) : Bool :=
  s.fds .main fd || (List.range' 1 c.numProcs).any fun t => s.fds (.reader t) fd || s.fds (.writer t) fd

/-- `read`: up to `n` bytes from the front of the pipe. It blocks while the pipe is empty and its write end
    is open somewhere. -/
def read (c : Config) (s : State) (p : Proc) (pipe : Pipe) (n : ℕ) : Option (List UInt8 × State) :=
  if s.fds p ⟨pipe, .rd⟩ = true ∧ (s.buf pipe ≠ [] ∨ s.isOpen c ⟨pipe, .wr⟩ = false) then
    some ((s.buf pipe).take n, s.setBuf pipe ((s.buf pipe).drop n))
  else none

/-- `write`: all of the bytes to the back of the pipe. It blocks while the pipe, of the given capacity, has
    no room for them. -/
def write (c : Config) (cap : Pipe → ℕ) (s : State) (p : Proc) (pipe : Pipe) (bytes : List UInt8) : Option State :=
  if s.fds p ⟨pipe, .wr⟩ = true ∧ s.isOpen c ⟨pipe, .rd⟩ = true ∧ (s.buf pipe).length + bytes.length ≤ cap pipe then
    some (s.setBuf pipe (s.buf pipe ++ bytes))
  else none

end State

/-! ### The steps -/

def stepReader (c : Config) (cap : Pipe → ℕ) (t : ℕ) (s : State) : Option State :=
  let th := s.reader t
  match th.phase with
  | .unborn | .exited => none
  | .start (fd :: todo) => some ((s.close (.reader t) fd).setReader t { th with phase := .start todo })
  | .start [] => some (s.setReader t { th with phase := .body .read })
  | .body .read => (s.read c (.reader t) (.inputs t) 128).map fun r =>
      r.2.setReader t ⟨.body (if r.1.length > 0 then .read else .write), digest th.num r.1⟩
  | .body .write => (s.write c cap (.reader t) (.output t) (encode th.num)).map fun s =>
      s.setReader t { th with phase := .finish (readerEnds t) }
  | .finish (fd :: todo) => some ((s.close (.reader t) fd).setReader t { th with phase := .finish todo })
  | .finish [] => some ((s.exit (.reader t)).setReader t { th with phase := .exited })

def stepWriter (c : Config) (cap : Pipe → ℕ) (t : ℕ) (s : State) : Option State :=
  let th := s.writer t
  match th.phase with
  | .unborn | .exited => none
  | .start (fd :: todo) => some ((s.close (.writer t) fd).setWriter t { th with phase := .start todo })
  | .start [] => some (s.setWriter t { th with phase := .body .loop })
  | .body .loop =>
    if th.i < c.maxLoop then
      let m := message th.num
      let num := (fill th.num).2
      (s.write c cap (.writer t) (.inputs (target c num)) m.bytes).map fun s =>
        s.setWriter t ⟨.body .loop, mixInt num m.bytes.length, th.i + 1⟩
    else some (s.setWriter t { th with phase := .finish (writerEnds c) })
  | .finish (fd :: todo) => some ((s.close (.writer t) fd).setWriter t { th with phase := .finish todo })
  | .finish [] => some ((s.exit (.writer t)).setWriter t { th with phase := .exited })

/-- The child that the fork loop makes in pass `i`: `pids[i-1]`. -/
def child (i : ℕ) : Proc := if i % 2 = 1 then .reader ((i + 1) / 2) else .writer ((i + 1) / 2)

/-- `fork`: the child starts with a copy of the descriptors of `main`. -/
def State.fork (c : Config) (s : State) (i : ℕ) : State :=
  let t := (i + 1) / 2
  let s := s.setFds (child i) (s.fds .main)
  if i % 2 = 1 then s.setReader t ⟨.start (readerUnused c t), signed (sigInit t)⟩
  else s.setWriter t ⟨.start (writerUnused c), signed (sigInit t), 0⟩

/-- The `k` with `pids[k] == r`. -/
def pidIndex (c : Config) (r : Proc) : Option ℕ := (List.range (c.numProcs * 2)).find? fun k => child (k + 1) = r

/-- What a read into `num` leaves, with `num = 0` before: `r`, and `num` with its first `r` bytes read. -/
def Output.ofBytes (bytes : List UInt8) : Output :=
  ⟨bytes.length, decode (bytes ++ List.replicate (4 - bytes.length) 0)⟩

/-- `read(output[i][RD], &num, sizeof(num))` of `main`. -/
def readOutput (c : Config) (s : State) (i : ℕ) : Option (Output × State) :=
  (s.read c .main (.output i) 4).map fun r => (.ofBytes r.1, r.2)

/-- A step of `main` other than `wait`. -/
def stepMain (c : Config) (s : State) : Option State :=
  match s.main with
  | .forking i =>
    if i ≤ c.numProcs * 2 then some ((s.fork c i).setMain (.forking (i + 1)))
    else some (s.setMain (.closing (mainUnused c)))
  | .closing (fd :: todo) => some ((s.close .main fd).setMain (.closing todo))
  | .closing [] => some (s.setMain (.waiting 1))
  | .waiting i => if i ≤ c.numProcs * 2 then none else some (s.setMain (.readOut 1 (signed (sigInit 0))))
  | .readOut i mix_sig =>
    if i < c.numProcs then
      (readOutput c s i).map fun o =>
        match collectOne mix_sig o.1 with
        | some mix_sig => o.2.setMain (.readOut (i + 1) mix_sig)
        | none => o.2.setMain .failed
    else some (s.setMain (.printed mix_sig))
  | .printed _ | .failed => none

/-- A pass of the wait loop: `wait` returns child `r`, one of those that have exited. -/
def stepWait (c : Config) (r : Proc) (s : State) : Option State :=
  match s.main with
  | .waiting i =>
    if i ≤ c.numProcs * 2 ∧ r ∈ s.zombies then
      some { s with main := .waiting (i + 1), zombies := s.zombies.erase r, lines := s.lines ++ (pidIndex c r).toList }
    else none
  | _ => none

/-- The moves: a step of a process, where a `wait` of `main` is named by the child it returns. -/
inductive Move
  | main
  | wait (r : Proc)
  | reader (t : ℕ)
  | writer (t : ℕ)

def step (c : Config) (cap : Pipe → ℕ) : Move → State → Option State
  | .main => stepMain c
  | .wait r => stepWait c r
  | .reader t => stepReader c cap t
  | .writer t => stepWriter c cap t

/-- All processes, from the point where `main` has opened the pipes, with pipes of the given capacities. -/
def machine (c : Config) (cap : Pipe → ℕ) : Machine State Move := ⟨start c, step c cap⟩

/-- The values of `mix_sig` that some interleaving lets `main` compute. -/
def outcomes (c : Config) (cap : Pipe → ℕ) : Set ℤ :=
  {mix_sig | ∃ s, (machine c cap).Reachable s ∧ s.main = .printed mix_sig}

/-! ### What was sent and what was read -/

/-- A record of a run: the messages written to each input pipe, in pipe order; how many messages each writer
    has written; what the reads of each reader have returned; and the integers in that, over all of its reads. -/
structure Log where
  sent : ℕ → List Message
  written : ℕ → ℕ
  reads : ℕ → List (List UInt8)
  folded : ℕ → List ℤ

def observer (c : Config) : Machine.Observer State Move Log where
  start := ⟨fun _ => [], fun _ => 0, fun _ => [], fun _ => []⟩
  note
    | .reader t, s, o =>
      match (s.reader t).phase with
      | .body .read =>
        let bytes := (s.buf (.inputs t)).take 128
        { o with
          reads := Function.update o.reads t (o.reads t ++ [bytes])
          folded := Function.update o.folded t (o.folded t ++ numbers bytes) }
      | _ => o
    | .writer t, s, o =>
      let th := s.writer t
      match th.phase with
      | .body .loop =>
        if th.i < c.maxLoop then
          let k := target c (fill th.num).2
          { o with sent := Function.update o.sent k (o.sent k ++ [message th.num]),
                   written := Function.update o.written t (o.written t + 1) }
        else o
      | _ => o
    | _, _, o => o

/-- What a reader mixes into its `num` for what its reads have returned: after the size of each its integers. -/
def mixedIn (reads : List (List UInt8)) : List ℤ := reads.flatMap fun bytes => (bytes.length : ℤ) :: numbers bytes

/-- The reader has seen end of file: it has left its read loop. -/
def Reader.SawEof (r : Reader) : Prop :=
  match r.phase with
  | .body .write | .finish _ | .exited => True
  | _ => False

end Racey.Forkpipe
