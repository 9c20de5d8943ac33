import Racey.Basic

/-! The main loop of racey-freqsyscall's `ThreadBody`: after the store to `sig[threadId]` an iteration calls
    `getuid`, and in some iterations maps a page and changes its protection:

    ```
    if (i % (MaxLoop/200) == 0) {
      int k,*x = (int*)mmap(NULL, 4096, wr, MAP_ANONYMOUS|MAP_PRIVATE, 0, 0);
      *x = 10;
      mprotect(x, 4096, rd);
      k = *x;
      mprotect(x, 4096, PROT_NONE);
    }
    ```

    No system call fails. The machine's moves are the threads. -/

namespace Racey.Freqsyscall

inductive Prot
  | none | read | readWrite
  deriving DecidableEq

/-- The page that `x` points to: its protection, and the first `int` in it. -/
structure Page where
  prot : Prot
  value : ℤ
  deriving DecidableEq

/-- Where a thread is in an iteration. -/
inductive Pc
  | mix (pc : MixPc)
  | getuid
  /-- Before the test `i % (MaxLoop/200) == 0`. -/
  | probe
  | mmap
  | setX (x : Page)
  | protectRead (x : Page)
  | getX (x : Page)
  | protectNone (x : Page)
  /-- The thread has performed an operation that C leaves undefined. -/
  | undefined
  deriving DecidableEq

/-- `a % b`, which is undefined for `b = 0`. -/
def remainder (a b : ℕ) : Option ℕ := if b = 0 then none else some (a % b)

structure Thread where
  i : ℕ
  pc : Pc

structure State where
  thread : ℕ → Thread
  mem : Memory

def start (mem : Memory) : State := ⟨fun _ => ⟨0, .mix .read1⟩, mem⟩

/-- Thread `t` is one that `main` creates, and it has not left its loop. -/
def Running (c : Config) (t : ℕ) (s : State) : Prop := 1 ≤ t ∧ t ≤ c.numProcs ∧ (s.thread t).i < c.maxLoop

instance (c : Config) (t : ℕ) (s : State) : Decidable (Running c t s) :=
  inferInstanceAs (Decidable (_ ∧ _ ∧ _))

/-- The next iteration. -/
def Thread.again (th : Thread) : Thread := ⟨th.i + 1, .mix .read1⟩

def Thread.goto (th : Thread) (pc : Pc) : Thread := ⟨th.i, pc⟩

/-- A step other than an access to `m`: where the thread stands afterwards. -/
def Thread.call (c : Config) (th : Thread) : Thread :=
  match th.pc with
  | .getuid => th.goto .probe
  | .probe =>
    match remainder th.i (c.maxLoop / 200) with
    | none => th.goto .undefined
    | some 0 => th.goto .mmap
    | some _ => th.again
  | .mmap => th.goto (.setX ⟨.readWrite, 0⟩)
  | .setX x => th.goto (if x.prot = .readWrite then .protectRead { x with value := 10 } else .undefined)
  | .protectRead x => th.goto (.getX { x with prot := .read })
  | .getX x => th.goto (if x.prot = .none then .undefined else .protectNone x)
  | .protectNone _ => th.again
  | .mix _ | .undefined => th

def step (c : Config) (t : ℕ) (s : State) : Option State :=
  if Running c t s then
    let th := s.thread t
    match th.pc with
    | .undefined => none
    | .mix pc =>
      let r := pc.step t s.mem
      let next := match pc with
        | .write _ _ => Pc.getuid
        | _ => .mix r.1
      some ⟨Function.update s.thread t (th.goto next), r.2⟩
    | _ => some { s with thread := Function.update s.thread t (th.call c) }
  else none

def machine (c : Config) (mem : Memory) : Machine State ℕ := ⟨start mem, step c⟩

def Complete (c : Config) (s : State) : Prop := ∀ t, 1 ≤ t → t ≤ c.numProcs → (s.thread t).i = c.maxLoop

/-- Some thread has performed an undefined operation. -/
def State.Undefined (s : State) : Prop := ∃ t, (s.thread t).pc = .undefined

/-- The thread whose access to a cell of `m` the step is, if it is one. -/
def access (t : ℕ) (s : State) : Option ℕ :=
  match (s.thread t).pc with
  | .mix _ => some t
  | _ => none

/-- The interleaving of the accesses to `m` in a run. -/
def accesses (c : Config) (mem : Memory) : List ℕ → State → List ℕ := (machine c mem).labels access

/-- Under the interleaving `as`, which takes racey-basic to `u`, racey-freqsyscall performs no undefined
    operation, can always go on to the end of its loops, and ends there with the same memory and signature. -/
structure MixesAs (c : Config) (mem : Memory) (as : List ℕ) (u : Basic.State) : Prop where
  defined : ∀ bs s, (machine c mem).run bs (start mem) = some s → accesses c mem bs (start mem) <+: as → ¬ s.Undefined
  completes : ∀ bs s, (machine c mem).run bs (start mem) = some s → accesses c mem bs (start mem) <+: as →
    ∃ bs' s', (machine c mem).run bs' s = some s' ∧ accesses c mem (bs ++ bs') (start mem) = as ∧ Complete c s'
  same : ∀ bs s, (machine c mem).run bs (start mem) = some s → accesses c mem bs (start mem) = as → Complete c s →
    s.mem = u.mem ∧ mixSig c.numProcs s.mem.sig = mixSig c.numProcs u.mem.sig

end Racey.Freqsyscall
