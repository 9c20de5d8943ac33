import Racey.Lib.Cells
import Racey.Mixer

/-! The main loop of racey-guarded's `ThreadBody`: the two accesses of an iteration are critical sections,
    under the lock of the index's class modulo `NLOCK`. Below it, the machine that it implements: each
    critical section is one step. The moves of both machines are the threads. -/

namespace Racey.Guarded

def nlock : ℕ := 8

/-- Where a thread is in its loop, and the locals that are live there. -/
inductive Pc
  /-- The loop head: the thread takes `num = sig[threadId]` and `index1`, then calls `lockItem(index1)`. -/
  | lockItem1
  | load1 (index1 num : ℕ)
  | mix1 (index1 num : ℕ) (value : ℤ)
  | unlockItem1 (index1 num : ℕ)
  | lockItem2 (num : ℕ)
  | load2 (index2 num : ℕ)
  | mix2 (index2 num : ℕ) (value : ℤ)
  /-- `result` is what the second mix made of `num`. -/
  | store (index2 num result : ℕ)
  | unlockItem2 (index2 result : ℕ)
  | setSig (result : ℕ)
  deriving DecidableEq

structure Thread where
  i : ℕ
  pc : Pc

/-- The threads, what they share, and for each lock the thread that holds it. -/
structure State where
  thread : ℕ → Thread
  mem : Memory
  locks : ℕ → Option ℕ

def start (mem : Memory) : State := ⟨fun _ => ⟨0, .lockItem1⟩, mem, fun _ => none⟩

/-- Thread `t` is one that `main` creates, and it has not left its loop. -/
def Running (c : Config) (t : ℕ) (s : State) : Prop := 1 ≤ t ∧ t ≤ c.numProcs ∧ (s.thread t).i < c.maxLoop

instance (c : Config) (t : ℕ) (s : State) : Decidable (Running c t s) :=
  inferInstanceAs (Decidable (_ ∧ _ ∧ _))

/-- `lockItem`: blocks while some thread holds the lock. -/
def lockItem (t index : ℕ) (locks : ℕ → Option ℕ) : Option (ℕ → Option ℕ) :=
  if locks (index % nlock) = none then some (Function.update locks (index % nlock) (some t)) else none

def unlockItem (index : ℕ) (locks : ℕ → Option ℕ) : ℕ → Option ℕ :=
  Function.update locks (index % nlock) none

def State.goto (s : State) (t : ℕ) (pc : Pc) : State :=
  { s with thread := Function.update s.thread t ⟨(s.thread t).i, pc⟩ }

def step (c : Config) (t : ℕ) (s : State) : Option State :=
  if Running c t s then
    match (s.thread t).pc with
    | .lockItem1 =>
      let num := s.mem.sig t
      let index1 := num % maxElem
      (lockItem t index1 s.locks).map fun locks => { s.goto t (.load1 index1 num) with locks := locks }
    | .load1 index1 num => some (s.goto t (.mix1 index1 num (s.mem.m index1)))
    | .mix1 index1 num value => some (s.goto t (.unlockItem1 index1 (mix num (unsigned value))))
    | .unlockItem1 index1 num => some { s.goto t (.lockItem2 num) with locks := unlockItem index1 s.locks }
    | .lockItem2 num =>
      let index2 := num % maxElem
      (lockItem t index2 s.locks).map fun locks => { s.goto t (.load2 index2 num) with locks := locks }
    | .load2 index2 num => some (s.goto t (.mix2 index2 num (s.mem.m index2)))
    | .mix2 index2 num value => some (s.goto t (.store index2 num (mix num (unsigned value))))
    | .store index2 _ result =>
      some { s.goto t (.unlockItem2 index2 result) with
        mem := { s.mem with m := Function.update s.mem.m index2 (signed result) } }
    | .unlockItem2 index2 result => some { s.goto t (.setSig result) with locks := unlockItem index2 s.locks }
    | .setSig result =>
      some { s with
        thread := Function.update s.thread t ⟨(s.thread t).i + 1, .lockItem1⟩
        mem := { s.mem with sig := Function.update s.mem.sig t result } }
  else none

def machine (c : Config) (mem : Memory) : Machine State ℕ := ⟨start mem, step c⟩

def Complete (c : Config) (s : State) : Prop := ∀ t, 1 ≤ t → t ≤ c.numProcs → (s.thread t).i = c.maxLoop

/-- The lock that a thread at `pc` acquires with its next step. -/
def Pc.acquires (sig : ℕ) : Pc → Option ℕ
  | .lockItem1 => some (sig % maxElem % nlock)
  | .lockItem2 num => some (num % maxElem % nlock)
  | _ => none

/-- The threads that acquired lock `l` in a run, in order. -/
def acquired (c : Config) (mem : Memory) (l : ℕ) : List ℕ → State → List ℕ :=
  (machine c mem).labels fun t s => if (s.thread t).pc.acquires (s.mem.sig t) = some l then some t else none

/-- Thread `t` is at `lockItem`, for a lock that `u` holds. -/
def WaitsFor (c : Config) (s : State) (t u : ℕ) : Prop :=
  Running c t s ∧ ∃ l, (s.thread t).pc.acquires (s.mem.sig t) = some l ∧ s.locks l = some u

/-- How many updates each thread has made: the stores to `m[index2].value`. -/
def updates : Machine.Observer State ℕ (ℕ → ℕ) where
  start _ := 0
  note t s o :=
    match (s.thread t).pc with
    | .store _ _ _ => Function.update o t (o t + 1)
    | _ => o

/-! ### The atomic machine -/

namespace Atomic

/-- Which critical section a thread is about to enter, the second with its `num`. -/
inductive Section
  | first
  | second (num : ℕ)
  deriving DecidableEq

structure Thread where
  i : ℕ
  sec : Section

structure State where
  thread : ℕ → Thread
  mem : Memory

def start (mem : Memory) : State := ⟨fun _ => ⟨0, .first⟩, mem⟩

def Running (c : Config) (t : ℕ) (s : State) : Prop := 1 ≤ t ∧ t ≤ c.numProcs ∧ (s.thread t).i < c.maxLoop

instance (c : Config) (t : ℕ) (s : State) : Decidable (Running c t s) :=
  inferInstanceAs (Decidable (_ ∧ _ ∧ _))

/-- A whole critical section of thread `t`: `num := mix(sig[t], m[index1])`, or
    `(m[index2], sig[t]) := mix(num, m[index2])`. -/
def step (c : Config) (t : ℕ) (s : State) : Option State :=
  if Running c t s then
    match (s.thread t).sec with
    | .first =>
      let num := mix (s.mem.sig t) (unsigned (s.mem.m (s.mem.sig t % maxElem)))
      some { s with thread := Function.update s.thread t ⟨(s.thread t).i, .second num⟩ }
    | .second num =>
      let result := mix num (unsigned (s.mem.m (num % maxElem)))
      some
        { thread := Function.update s.thread t ⟨(s.thread t).i + 1, .first⟩
          mem :=
            { sig := Function.update s.mem.sig t result
              m := Function.update s.mem.m (num % maxElem) (signed result) } }
  else none

def machine (c : Config) (mem : Memory) : Machine State ℕ := ⟨start mem, step c⟩

def Complete (c : Config) (s : State) : Prop := ∀ t, 1 ≤ t → t ≤ c.numProcs → (s.thread t).i = c.maxLoop

/-- The index into `m` that a critical section uses, for a thread whose entry of `sig` is `sig`. -/
def Section.index (sig : ℕ) : Section → ℕ
  | first => sig % maxElem
  | second num => num % maxElem

/-- What a critical section depends on besides the cell it uses. -/
structure Local where
  threadId : ℕ
  i : ℕ
  sec : Section
  sig : ℕ

def program (c : Config) : CellProgram Local ℕ ℤ where
  cell l := if 1 ≤ l.threadId ∧ l.threadId ≤ c.numProcs ∧ l.i < c.maxLoop then some (l.sec.index l.sig) else none
  writes l := l.sec ≠ .first
  next l v :=
    match l.sec with
    | .first => { l with sec := .second (mix l.sig (unsigned v)) }
    | .second num => { l with i := l.i + 1, sec := .first, sig := mix num (unsigned v) }
  put l v :=
    match l.sec with
    | .first => v
    | .second num => signed (mix num (unsigned v))

def State.cells (s : State) : CellProgram.State ℕ Local ℕ ℤ :=
  ⟨fun t => ⟨t, (s.thread t).i, (s.thread t).sec, s.mem.sig t⟩, s.mem.m⟩

/-- The critical sections of a run, in order: which thread, in which private state, on which cell. -/
def trace (c : Config) (mem : Memory) : List ℕ → State → List (CellProgram.Event ℕ Local ℕ) :=
  CellProgram.steps (machine c mem) State.cells fun t s => (s.thread t).sec.index (s.mem.sig t)

end Atomic

end Racey.Guarded
