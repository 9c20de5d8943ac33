import Mathlib.Order.Interval.Finset.Nat
import Racey.Freqsyscall
import Racey.Start

/-! racey-basic, racey-mmaptmpfile and racey-freqsyscall from the point where `main` has initialised what is shared. They have
    the start barrier and `main` in common, and differ in the loops that the threads run after the barrier. -/

namespace Racey.StartBarrier
open Start (Phase MainPc Move)

/-- The loops of a program, with `sig` among what they share. -/
structure Loops (σ : Type) where
  start : σ
  /-- The test `i < MaxLoop` of thread `t` is next, and fails. -/
  ended : ℕ → σ → Bool
  step : ℕ → σ → Option σ
  sig : σ → ℕ → ℕ

/-! ### The programs -/

def basic (c : Config) : Loops Loop.State where
  start := Loop.start
  ended t s := decide ((s.thread t).Over c.maxLoop)
  step := Loop.step c
  sig s := s.mem.sig

/-- `InitMmap`: `for(i = 0; i < 33; i++) sig[i] = i`, in a new file. -/
def initMmap : ℕ → ℕ := (List.range 33).foldl (fun sig i => Function.update sig i i) fun _ => 0

/-- racey-mmaptmpfile has the loop of racey-basic, with `sig` in a file that is mapped. -/
def mmaptmpfile (c : Config) : Loops Loop.State := { basic c with start := { Loop.start with mem := ⟨initMmap, mInit⟩ } }

def freqsyscall (c : Config) : Loops Freqsyscall.State where
  start := Freqsyscall.start Memory.init
  ended t s := decide ((s.thread t).pc = .mix .read1 ∧ c.maxLoop ≤ (s.thread t).i)
  step := Freqsyscall.step c
  sig s := s.mem.sig

/-! ### Threads and `main` -/

structure State (σ : Type) where
  main : MainPc
  phase : ℕ → Phase
  startCounter : ℤ
  threadLock : Option ℕ
  loops : σ

variable {σ : Type}

def start (L : Loops σ) (c : Config) : State σ := ⟨.create 0, fun _ => .unborn, c.numProcs, none, L.start⟩

def State.setPhase (s : State σ) (t : ℕ) (p : Phase) : State σ := { s with phase := Function.update s.phase t p }

def stepThread (L : Loops σ) (t : ℕ) (s : State σ) : Option (State σ) :=
  match s.phase t with
  | .unborn | .returned | .reaped => none
  | .lock => if s.threadLock = none then some { s.setPhase t .load with threadLock := some t } else none
  | .load => some (s.setPhase t (.store s.startCounter))
  | .store v => some { s.setPhase t .test with startCounter := v - 1 }
  | .test => some (s.setPhase t .unlock) -- nothing is done in either case
  | .unlock => some { s.setPhase t .spin with threadLock := none }
  | .spin => some (if s.startCounter = 0 then s.setPhase t .loop else s)
  | .loop =>
    if L.ended t s.loops then some (s.setPhase t .returned)
    else (L.step t s.loops).map fun loops => { s with loops := loops }

def stepMain (L : Loops σ) (c : Config) (s : State σ) : Option (State σ) :=
  match s.main with
  | .create i =>
    if i < c.numProcs then some { s.setPhase (i + 1) .lock with main := .create (i + 1) }
    else some { s with main := .join 0 }
  | .join i =>
    if i < c.numProcs then if s.phase (i + 1) = .returned then some { s with main := .join (i + 1) } else none
    else some { s with main := .first }
  | .first => some { s with main := .result 1 (signed (L.sig s.loops 0)) }
  | .result i mix_sig =>
    if i < c.numProcs then some { s with main := .result (i + 1) (signed (mix (L.sig s.loops i) (unsigned mix_sig))) }
    else some { s with main := .printed mix_sig }
  | .printed _ => none

def step (L : Loops σ) (c : Config) : Move → State σ → Option (State σ)
  | .main, s => stepMain L c s
  | .thread t, s => stepThread L t s

def machine (L : Loops σ) (c : Config) : Machine (State σ) Move := ⟨start L c, step L c⟩

/-! ### What the barrier is for -/

/-- The thread has completed its `startCounter--`. -/
def decremented : Phase → Bool
  | .unborn | .lock | .load | .store _ => false
  | .test | .unlock | .spin | .loop | .returned | .reaped => true

/-- The thread has left `while(startCounter) {}`. -/
def released : Phase → Bool
  | .loop | .returned | .reaped => true
  | _ => false

def State.decremented (c : Config) (s : State σ) : Finset ℕ :=
  (Finset.Icc 1 c.numProcs).filter fun t => StartBarrier.decremented (s.phase t)

def State.released (c : Config) (s : State σ) : Finset ℕ :=
  (Finset.Icc 1 c.numProcs).filter fun t => StartBarrier.released (s.phase t)

/-- `startCounter` is `NumProcs` less the threads that have decremented it, and not negative; no thread is past the barrier
    before all `NumProcs` have decremented; once at zero `startCounter` stays there; and whatever has happened, it can still
    get there, so that no thread spins for good. -/
structure HoldsBack (L : Loops σ) (c : Config) : Prop where
  counts : ∀ s, (machine L c).Reachable s → s.startCounter = c.numProcs - (s.decremented c).card
  nonneg : ∀ s, (machine L c).Reachable s → 0 ≤ s.startCounter
  together : ∀ s, (machine L c).Reachable s → ∀ t, released (s.phase t) → ∀ u, 1 ≤ u → u ≤ c.numProcs →
    decremented (s.phase u)
  stays : ∀ s, (machine L c).Reachable s → s.startCounter = 0 → ∀ as s', (machine L c).run as s = some s' →
    s'.startCounter = 0
  opens : ∀ s, (machine L c).Reachable s → ∃ as s', (machine L c).run as s = some s' ∧ s'.startCounter = 0

/-! ### What is printed -/

/-- The loops by themselves. -/
def Loops.machine (L : Loops σ) : Machine σ ℕ := ⟨L.start, L.step⟩

/-- The values of `mix_sig` that the interleavings of a whole program produce. -/
def outcomes (L : Loops σ) (c : Config) : Set ℤ := {v | ∃ s, (machine L c).Reachable s ∧ s.main = .printed v}

/-- Whatever has happened, `main` can still get to print a signature. -/
def CanPrint (L : Loops σ) (c : Config) : Prop :=
  ∀ s, (machine L c).Reachable s → ∃ as s' v, (machine L c).run as s = some s' ∧ s'.main = .printed v

end Racey.StartBarrier
