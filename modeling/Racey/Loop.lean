import Racey.Lib.Machine
import Racey.Mixer

/-! The main loop that racey-basic, racey-nobarrier and racey-forkmmap run in each thread or child process, with every
    access to a cell of `m` and to an entry of `sig` as a step of its own. The machine's moves are the threads. -/

namespace Racey.Loop

/-- Where a thread is in its iteration. -/
inductive Pc
  /-- At the head of the loop, before the load of `sig[threadId]`. -/
  | head
  /-- Before the load of `m[index1].value`. -/
  | read1 (num : ℕ)
  /-- Before the load of `m[index2].value`. -/
  | read2 (num : ℕ)
  /-- Before the store to `m[index2].value`. -/
  | write (index2 num : ℕ)
  /-- Before the store to `sig[threadId]`. -/
  | setSig (num : ℕ)
  deriving DecidableEq

structure Thread where
  i : ℕ
  pc : Pc

/-- The test `i < n` is next, and fails. -/
def Thread.Over (n : ℕ) (th : Thread) : Prop := th.pc = .head ∧ n ≤ th.i

instance (n : ℕ) (th : Thread) : Decidable (th.Over n) := inferInstanceAs (Decidable (_ ∧ _))

/-- One access of thread `t`. -/
def Thread.step (t : ℕ) (mem : Memory) (th : Thread) : Thread × Memory :=
  match th.pc with
  | .head => ({ th with pc := .read1 (mem.sig t) }, mem)
  | .read1 num => ({ th with pc := .read2 (mix num (unsigned (mem.m (num % maxElem)))) }, mem)
  | .read2 num => ({ th with pc := .write (num % maxElem) (mix num (unsigned (mem.m (num % maxElem)))) }, mem)
  | .write index2 num => ({ th with pc := .setSig num }, { mem with m := Function.update mem.m index2 (signed num) })
  | .setSig num => (⟨th.i + 1, .head⟩, { mem with sig := Function.update mem.sig t num })

/-- The index into `m` that the next access of a thread uses, if it is one to a cell. -/
def Pc.cell : Pc → Option ℕ
  | .head | .setSig _ => none
  | .read1 num | .read2 num => some (num % maxElem)
  | .write index2 _ => some index2

/-- A second mix of an iteration: `num` before it and after it. -/
structure Mixed where
  num : ℕ
  result : ℕ

/-- The second mixes on record after an access of a thread. -/
def Thread.note (mem : Memory) (th : Thread) (o : List Mixed) : List Mixed :=
  match th.pc with
  | .read2 num => ⟨num, mix num (unsigned (mem.m (num % maxElem)))⟩ :: o
  | _ => o

structure State where
  thread : ℕ → Thread
  mem : Memory

def start : State := ⟨fun _ => ⟨0, .head⟩, Memory.init⟩

/-- Thread `t` is one that `main` creates, and it has not left its loop. -/
def Running (c : Config) (t : ℕ) (s : State) : Prop := 1 ≤ t ∧ t ≤ c.numProcs ∧ ¬ (s.thread t).Over c.maxLoop

instance (c : Config) (t : ℕ) (s : State) : Decidable (Running c t s) := inferInstanceAs (Decidable (_ ∧ _ ∧ _))

def State.update (s : State) (t : ℕ) (r : Thread × Memory) : State := ⟨Function.update s.thread t r.1, r.2⟩

def step (c : Config) (t : ℕ) (s : State) : Option State :=
  if Running c t s then some (s.update t ((s.thread t).step t s.mem)) else none

def machine (c : Config) : Machine State ℕ := ⟨start, step c⟩

def Complete (c : Config) (s : State) : Prop := ∀ t, 1 ≤ t → t ≤ c.numProcs → (s.thread t).Over c.maxLoop

/-- The signatures of all interleavings of the loops. -/
def outcomes (c : Config) : Set ℤ := {v | ∃ s, (machine c).Reachable s ∧ Complete c s ∧ v = mixSig c.numProcs s.mem.sig}

end Racey.Loop
