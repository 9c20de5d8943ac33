import Racey.Loop

/-! racey-basic, racey-nobarrier and racey-forkmmap, from the point where `main` has initialised what is shared: how they
    start the threads or child processes, what these do before their loops, and how `main` waits for them and computes
    the signature. `pthread_create` and `fork` succeed. -/

namespace Racey.Start

/-- Where a thread or a child process is. -/
inductive Phase
  | unborn
  /-- At `pthread_mutex_lock(&threadLock)`. -/
  | lock
  /-- Before the load of `startCounter--`. -/
  | load
  /-- Before the store of `startCounter--`; the load has given `v`. -/
  | store (v : ℤ)
  /-- Before the load of `if(startCounter == 0)`. -/
  | test
  /-- At `pthread_mutex_unlock(&threadLock)`. -/
  | unlock
  /-- At `while(startCounter) {}`. -/
  | spin
  | loop
  /-- Returned from `ThreadBody` or `ChildProcess`. -/
  | returned
  /-- A child process that `main` has waited for. -/
  | reaped
  deriving DecidableEq

/-- The state of a program whose `main` is at a point of type `μ`. In racey-forkmmap `startCounter` is called `waiting`,
    and nothing reads it. -/
structure State (μ : Type) where
  main : μ
  phase : ℕ → Phase
  thread : ℕ → Loop.Thread
  startCounter : ℤ
  threadLock : Option ℕ
  mem : Memory

section State
variable {μ : Type}

def start (c : Config) (main : μ) : State μ where
  main := main
  phase _ := .unborn
  thread _ := ⟨0, .head⟩
  startCounter := c.numProcs
  threadLock := none
  mem := Memory.init

def State.setPhase (s : State μ) (t : ℕ) (p : Phase) : State μ := { s with phase := Function.update s.phase t p }

/-- What the loops are about. -/
def State.loops (s : State μ) : Loop.State := ⟨s.thread, s.mem⟩

/-- A step of a thread or of a child process. -/
def stepThread (c : Config) (t : ℕ) (s : State μ) : Option (State μ) :=
  match s.phase t with
  | .unborn | .returned | .reaped => none
  | .lock => if s.threadLock = none then some { s.setPhase t .load with threadLock := some t } else none
  | .load => some (s.setPhase t (.store s.startCounter))
  | .store v => some { s.setPhase t .test with startCounter := v - 1 }
  | .test => some (s.setPhase t .unlock) -- nothing is done in either case
  | .unlock => some { s.setPhase t .spin with threadLock := none }
  | .spin => some (if s.startCounter = 0 then s.setPhase t .loop else s)
  | .loop =>
    if (s.thread t).Over c.maxLoop then some (s.setPhase t .returned)
    else
      let r := (s.thread t).step t s.mem
      some { s with thread := Function.update s.thread t r.1, mem := r.2 }

end State

/-! ### Threads -/

/-- The two programs with threads. -/
inductive Program
  | basic
  | nobarrier
  deriving DecidableEq

/-- Where `ThreadBody` starts, after the loop that only takes time. -/
def Program.entry : Program → Phase
  | basic => .lock
  | nobarrier => .loop

/-- Where `main` is; `i` is its loop counter. -/
inductive MainPc
  | create (i : ℕ)
  | join (i : ℕ)
  /-- Before `mix_sig = sig[0]`. -/
  | first
  | result (i : ℕ) (mix_sig : ℤ)
  | printed (mix_sig : ℤ)
  deriving DecidableEq

inductive Move
  | main
  | thread (t : ℕ)
  deriving DecidableEq

def stepMain (p : Program) (c : Config) (s : State MainPc) : Option (State MainPc) :=
  match s.main with
  | .create i =>
    if i < c.numProcs then some { s.setPhase (i + 1) p.entry with main := .create (i + 1) }
    else some { s with main := .join 0 }
  | .join i =>
    if i < c.numProcs then if s.phase (i + 1) = .returned then some { s with main := .join (i + 1) } else none
    else some { s with main := .first }
  | .first => some { s with main := .result 1 (signed (s.mem.sig 0)) }
  | .result i mix_sig =>
    if i < c.numProcs then some { s with main := .result (i + 1) (signed (mix (s.mem.sig i) (unsigned mix_sig))) }
    else some { s with main := .printed mix_sig }
  | .printed _ => none

def step (p : Program) (c : Config) : Move → State MainPc → Option (State MainPc)
  | .main, s => stepMain p c s
  | .thread t, s => stepThread c t s

def machine (p : Program) (c : Config) : Machine (State MainPc) Move := ⟨start c (.create 0), step p c⟩

/-- The second mixes of all threads. -/
def mixes : Machine.Observer (State MainPc) Move (List Loop.Mixed) where
  start := []
  note a s o :=
    match a with
    | .main => o
    | .thread t => if s.phase t = .loop then (s.thread t).note s.mem o else o

/-- The values of `mix_sig` that the interleavings produce. -/
def outcomes (p : Program) (c : Config) : Set ℤ := {v | ∃ s, (machine p c).Reachable s ∧ s.main = .printed v}

end Racey.Start

/-! ### Processes -/

namespace Racey.Forkmmap
open Start

/-- Where `main` is; `i` is its loop counter in the loop of `fork`, and from 0 on in that of `wait`. -/
inductive MainPc
  | fork (i : ℕ)
  /-- Before `mix_sig = SHARED->sig[0]`. -/
  | first
  | wait (i : ℕ) (mix_sig : ℤ)
  | result (i : ℕ) (mix_sig : ℤ)
  | printed (mix_sig : ℤ)
  deriving DecidableEq

/-- The moves: a step of `main` other than a `wait`, a `wait` that returns child `t`, and a step of child `t`. -/
inductive Move
  | main
  | wait (t : ℕ)
  | child (t : ℕ)
  deriving DecidableEq

def stepMain (c : Config) (s : State MainPc) : Option (State MainPc) :=
  match s.main with
  | .fork i =>
    if i ≤ c.numProcs then some { s.setPhase i .loop with main := .fork (i + 1) } else some { s with main := .first }
  | .first => some { s with main := .wait 0 (signed (s.mem.sig 0)) }
  | .wait i mix_sig => if i < c.numProcs then none else some { s with main := .result 1 mix_sig }
  | .result i mix_sig =>
    if i < c.numProcs then some { s with main := .result (i + 1) (signed (mix (s.mem.sig i) (unsigned mix_sig))) }
    else some { s with main := .printed mix_sig }
  | .printed _ => none

/-- `wait(NULL)` returns for a child that has ended. The search for it in `pids` has no effect. -/
def stepWait (c : Config) (t : ℕ) (s : State MainPc) : Option (State MainPc) :=
  match s.main with
  | .wait i mix_sig =>
    if i < c.numProcs ∧ s.phase t = .returned then some { s.setPhase t .reaped with main := .wait (i + 1) mix_sig }
    else none
  | _ => none

def step (c : Config) : Move → State MainPc → Option (State MainPc)
  | .main, s => stepMain c s
  | .wait t, s => stepWait c t s
  | .child t, s => stepThread c t s

def machine (c : Config) : Machine (State MainPc) Move := ⟨start c (.fork 1), step c⟩

/-- The values of `mix_sig` that the interleavings produce. -/
def outcomes (c : Config) : Set ℤ := {v | ∃ s, (machine c).Reachable s ∧ s.main = .printed v}

end Racey.Forkmmap
