import Racey.Forkpipe
import Racey.Lib.Barrier

/-! `ThreadBody` of racey-readfile: threads 1 to `NumProcs` read one file through one descriptor, and fold what
    they read, word by word, into a local hash. The machine's moves are the threads; a `read` is one step, and
    returns the bytes that are left, up to the size of the buffer. -/

namespace Racey.Readfile
open Forkpipe (decode mixInt)

/-- `char buffer[256]`. -/
structure Buffer where
  bytes : List UInt8
  length_eq : bytes.length = 256

/-- What a `read` leaves in the buffer: the bytes read, and then what was there before. -/
def Buffer.fill (b : Buffer) (read : List UInt8) (h : read.length ≤ 256) : Buffer :=
  ⟨read ++ b.bytes.drop read.length, by rw [List.length_append, List.length_drop, b.length_eq]; omega⟩

/-- The bytes of `numbers[k]`. -/
def Buffer.word (b : Buffer) (k : ℕ) : List UInt8 := (b.bytes.drop (4 * k)).take 4

inductive Pc
  /-- Before `pthread_barrier_wait`. -/
  | barrier
  /-- In `pthread_barrier_wait`, since the given cycle. -/
  | waiting (cycle : ℕ)
  | read
  /-- Before `num = mix(num, r)`. -/
  | mixR (r : ℕ)
  /-- The loop over the words, before the test `k < r / sizeof(*numbers)`. -/
  | fold (k r : ℕ)
  | setSig
  | done
  deriving DecidableEq

structure Thread where
  pc : Pc
  num : ℤ
  buffer : Buffer

structure State where
  thread : ℕ → Thread
  barrier : Barrier
  /-- The file offset, which the threads share with the descriptor. -/
  offset : ℕ
  sig : ℕ → ℕ

/-- The threads start with `num = sig[threadId]` and whatever is in their buffers. -/
def start (buffer : ℕ → Buffer) : State :=
  ⟨fun t => ⟨.barrier, signed (sigInit t), buffer t⟩, .init, 0, sigInit⟩

def State.set (s : State) (t : ℕ) (th : Thread) : State := { s with thread := Function.update s.thread t th }

/-- What `read(fd, buffer, sizeof buffer)` returns at an offset: at most 256 bytes, and none at the end. -/
def readAt (file : List UInt8) (offset : ℕ) : List UInt8 := (file.drop offset).take 256

theorem length_readAt_le (file : List UInt8) (offset : ℕ) : (readAt file offset).length ≤ 256 := List.length_take_le _ _

def step (c : Config) (file : List UInt8) (t : ℕ) (s : State) : Option State :=
  if 1 ≤ t ∧ t ≤ c.numProcs then
    let th := s.thread t
    match th.pc with
    | .barrier => some { s.set t { th with pc := .waiting s.barrier.cycle } with barrier := s.barrier.wait c.numProcs }
    | .waiting cycle => if s.barrier.Released cycle then some (s.set t { th with pc := .read }) else none
    | .read =>
      let read := readAt file s.offset
      some { s.set t ⟨.mixR read.length, th.num, th.buffer.fill read (length_readAt_le _ _)⟩ with
        offset := s.offset + read.length }
    | .mixR r => some (s.set t { th with pc := if r > 0 then .fold 0 r else .setSig, num := mixInt th.num r })
    | .fold k r =>
      if k < r / 4 then some (s.set t { th with pc := .fold (k + 1) r, num := mixInt th.num (decode (th.buffer.word k)) })
      else some (s.set t { th with pc := .read })
    | .setSig => some { s.set t { th with pc := .done } with sig := Function.update s.sig t (unsigned th.num) }
    | .done => none
  else none

def machine (c : Config) (file : List UInt8) (buffer : ℕ → Buffer) : Machine State ℕ := ⟨start buffer, step c file⟩

/-- All threads have stopped. -/
def Stopped (c : Config) (s : State) : Prop := ∀ t, 1 ≤ t → t ≤ c.numProcs → (s.thread t).pc = .done

/-! ### What is folded -/

/-- A record of a pass of the loop over the words: the thread, the offset and length of its last read, the
    index of the word, and the bytes in it. -/
structure Fold where
  thread : ℕ
  base : ℕ
  r : ℕ
  k : ℕ
  word : List UInt8
  deriving DecidableEq

/-- The byte at position `p` of the file is in the word, if the word was read. -/
def Fold.Covers (f : Fold) (p : ℕ) : Prop := f.base + 4 * f.k ≤ p ∧ p < f.base + 4 * f.k + 4

instance (f : Fold) (p : ℕ) : Decidable (f.Covers p) := inferInstanceAs (Decidable (_ ∧ _))

/-- All of the word was part of the read, and it holds four bytes of the file as they stand there. -/
def Fold.Within (file : List UInt8) (f : Fold) : Prop :=
  4 * f.k + 4 ≤ f.r ∧ f.base + f.r ≤ file.length ∧ f.word = (file.drop (f.base + 4 * f.k)).take 4

/-- For each thread the offset of its last read, and what has been folded so far. -/
structure Log where
  base : ℕ → ℕ
  folds : List Fold

def observer : Machine.Observer State ℕ Log where
  start := ⟨fun _ => 0, []⟩
  note t s o :=
    let th := s.thread t
    match th.pc with
    | .read => { o with base := Function.update o.base t s.offset }
    | .fold k r => if k < r / 4 then { o with folds := o.folds ++ [⟨t, o.base t, r, k, th.buffer.word k⟩] } else o
    | _ => o

/-- The threads all stop, in whatever order they run; once they have, each byte of the file is in exactly one
    word that some thread folded; and no word holds a byte that was not part of the thread's read. -/
structure HashesWhole (c : Config) (file : List UInt8) (buffer : ℕ → Buffer) : Prop where
  bounded : ∃ n, ∀ as s, (machine c file buffer).run as (start buffer) = some s → as.length ≤ n
  goes_on : ∀ s, (machine c file buffer).Reachable s → Stopped c s ∨ ∃ t s', step c file t s = some s'
  once : ∀ s o, ((machine c file buffer).watch observer).Reachable (s, o) → Stopped c s →
    ∀ p < file.length, (o.folds.filter fun f => f.Covers p).length = 1
  within : ∀ s o, ((machine c file buffer).watch observer).Reachable (s, o) → ∀ f ∈ o.folds, f.Within file

end Racey.Readfile
