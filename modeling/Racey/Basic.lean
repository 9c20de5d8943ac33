import Racey.Lib.Cells
import Racey.Lib.Machine
import Racey.Mixer

/-! The main loop of racey-basic's `ThreadBody`: threads 1 to `NumProcs` mix `MaxLoop` times each, without
    locks. The machine's moves are the threads. -/

namespace Racey.Basic

/-- A thread in the main loop: the loop counter, and where it is in the iteration. -/
structure Thread where
  i : ℕ
  pc : MixPc

structure State where
  thread : ℕ → Thread
  mem : Memory

def start (mem : Memory) : State := ⟨fun _ => ⟨0, .read1⟩, mem⟩

/-- Thread `t` is one that `main` creates, and it has not left its loop. -/
def Running (c : Config) (t : ℕ) (s : State) : Prop := 1 ≤ t ∧ t ≤ c.numProcs ∧ (s.thread t).i < c.maxLoop

instance (c : Config) (t : ℕ) (s : State) : Decidable (Running c t s) :=
  inferInstanceAs (Decidable (_ ∧ _ ∧ _))

def step (c : Config) (t : ℕ) (s : State) : Option State :=
  if Running c t s then
    let th := s.thread t
    let r := th.pc.step t s.mem
    some ⟨Function.update s.thread t ⟨th.pc.count th.i, r.1⟩, r.2⟩
  else none

def machine (c : Config) (mem : Memory) : Machine State ℕ := ⟨start mem, step c⟩

def Complete (c : Config) (s : State) : Prop := ∀ t, 1 ≤ t → t ≤ c.numProcs → (s.thread t).i = c.maxLoop

/-! ### Steps and their names -/

/-- What a step of a thread depends on besides the cell it touches: the thread's private state. -/
structure Local where
  threadId : ℕ
  i : ℕ
  pc : MixPc
  sig : ℕ

def State.local (s : State) (t : ℕ) : Local := ⟨t, (s.thread t).i, (s.thread t).pc, s.mem.sig t⟩

/-- What a step is in its thread's program: the iteration, and which of the three accesses. Together with
    the thread it names the step. -/
def Local.label (l : Local) : ℕ × MixKind := (l.i, l.pc.kind)

def program (c : Config) : CellProgram Local ℕ ℤ where
  cell l := if 1 ≤ l.threadId ∧ l.threadId ≤ c.numProcs ∧ l.i < c.maxLoop then some (l.pc.index l.sig) else none
  writes l := l.pc.kind = .write
  next l v :=
    match l.pc with
    | .read1 => { l with pc := .read2 (mix l.sig (unsigned v)) }
    | .read2 num => { l with pc := .write (num % maxElem) (mix num (unsigned v)) }
    | .write _ num => { l with i := l.i + 1, pc := .read1, sig := num }
  put l v :=
    match l.pc with
    | .write _ num => signed num
    | _ => v

def State.cells (s : State) : CellProgram.State ℕ Local ℕ ℤ := ⟨s.local, s.mem.m⟩

/-- The steps of a run, in order: which thread, in which private state, on which cell. -/
def trace (c : Config) (mem : Memory) (as : List ℕ) : List (CellProgram.Event ℕ Local ℕ) :=
  CellProgram.steps (machine c mem) State.cells (fun t s => (s.thread t).pc.index (s.mem.sig t)) as (start mem)

end Racey.Basic
