import Racey.Guarded
import Racey.Lib.Barrier
import Racey.Start

/-! racey-guarded from the point where `main` has initialised the cells, the barrier and the locks: how `main` creates the
    threads, what these do before their loops, and how `main` waits for them and computes the signature. `pthread_create`
    succeeds. -/

namespace Racey.GuardedStart
open Start (MainPc Move)

/-- Where a thread is. -/
inductive Phase
  | unborn
  /-- At `pthread_barrier_wait`, after the loop that only takes time. -/
  | arrive
  /-- In it, having arrived in the given cycle of the barrier. -/
  | inBarrier (cycle : ℕ)
  | loop
  /-- Returned from `ThreadBody`. -/
  | returned
  deriving DecidableEq

/-- The threads and what they share. -/
structure Threads where
  phase : ℕ → Phase
  barrier : Barrier
  loops : Guarded.State

structure State where
  main : MainPc
  threads : Threads

def start : State := ⟨.create 0, ⟨fun _ => .unborn, .init, Guarded.start Memory.init⟩⟩

def Threads.setPhase (s : Threads) (t : ℕ) (p : Phase) : Threads := { s with phase := Function.update s.phase t p }

/-- The test `i < MaxLoop` of thread `t` is next, and fails. -/
def Ended (c : Config) (t : ℕ) (s : Guarded.State) : Prop := (s.thread t).pc = .lockItem1 ∧ c.maxLoop ≤ (s.thread t).i

instance (c : Config) (t : ℕ) (s : Guarded.State) : Decidable (Ended c t s) := inferInstanceAs (Decidable (_ ∧ _))

def stepThread (c : Config) (t : ℕ) (s : Threads) : Option Threads :=
  match s.phase t with
  | .unborn | .returned => none
  | .arrive => some { s.setPhase t (.inBarrier s.barrier.cycle) with barrier := s.barrier.wait c.numProcs }
  | .inBarrier cycle => if s.barrier.Released cycle then some (s.setPhase t .loop) else none
  | .loop =>
    if Ended c t s.loops then some (s.setPhase t .returned)
    else (Guarded.step c t s.loops).map fun loops => { s with loops := loops }

def stepMain (c : Config) (s : State) : Option State :=
  match s.main with
  | .create i =>
    if i < c.numProcs then some ⟨.create (i + 1), s.threads.setPhase (i + 1) .arrive⟩
    else some { s with main := .join 0 }
  | .join i =>
    if i < c.numProcs then
      if s.threads.phase (i + 1) = .returned then some { s with main := .join (i + 1) } else none
    else some { s with main := .first }
  | .first => some { s with main := .result 1 (signed (s.threads.loops.mem.sig 0)) }
  | .result i mix_sig =>
    if i < c.numProcs then
      some { s with main := .result (i + 1) (signed (mix (s.threads.loops.mem.sig i) (unsigned mix_sig))) }
    else some { s with main := .printed mix_sig }
  | .printed _ => none

def step (c : Config) : Move → State → Option State
  | .main, s => stepMain c s
  | .thread t, s => (stepThread c t s.threads).map fun threads => { s with threads := threads }

def machine (c : Config) : Machine State Move := ⟨start, step c⟩

/-- The values of `mix_sig` that the interleavings produce. -/
def outcomes (c : Config) : Set ℤ := {v | ∃ s, (machine c).Reachable s ∧ s.main = .printed v}

/-! ### Accesses -/

/-- An entry of an array that threads and `main` share. -/
inductive Loc
  | sig (i : ℕ)
  | m (i : ℕ)
  deriving DecidableEq

structure Access where
  loc : Loc
  write : Bool
  deriving DecidableEq

/-- The access to shared data that the next step of a thread in its loop makes, where `t` is the thread. -/
def loopAccess (t : ℕ) : Guarded.Pc → Option Access
  | .lockItem1 => some ⟨.sig t, false⟩
  | .load1 index1 _ => some ⟨.m index1, false⟩
  | .load2 index2 _ => some ⟨.m index2, false⟩
  | .store index2 _ _ => some ⟨.m index2, true⟩
  | .setSig _ => some ⟨.sig t, true⟩
  | _ => none

/-- The access that a move makes, where it can be taken. -/
def access (c : Config) (a : Move) (s : State) : Option Access :=
  match a with
  | .main =>
    match s.main with
    | .first => some ⟨.sig 0, false⟩
    | .result i _ => if i < c.numProcs then some ⟨.sig i, false⟩ else none
    | _ => none
  | .thread t =>
    if s.threads.phase t = .loop ∧ ¬ Ended c t s.threads.loops then loopAccess t (s.threads.loops.thread t).pc else none

/-- Two accesses to one location, one of them a write. -/
def Access.Conflicts (x y : Access) : Prop := x.loc = y.loc ∧ (x.write = true ∨ y.write = true)

instance (x y : Access) : Decidable (x.Conflicts y) := inferInstanceAs (Decidable (_ ∧ _))

/-- Two parties are about to make accesses that conflict. -/
def Race (c : Config) (s : State) : Prop :=
  ∃ a b x y, a ≠ b ∧ access c a s = some x ∧ access c b s = some y ∧ x.Conflicts y

/-! ### What the locks leave of the interleavings -/

/-- The values of `mix_sig` for the interleavings of whole critical sections. -/
def atomicOutcomes (c : Config) : Set ℤ :=
  {v | ∃ x, (Guarded.Atomic.machine c Memory.init).Reachable x ∧ Guarded.Atomic.Complete c x ∧
    v = mixSig c.numProcs x.mem.sig}

end Racey.GuardedStart
