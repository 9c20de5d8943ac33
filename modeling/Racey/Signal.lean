import Racey.Lib.Barrier
import Racey.Loop

/-! racey-signal, from the point where `main` has initialised the arrays and the barrier: the threads mix like those of
    racey-basic and send each other `SIGUSR1`, whose handler mixes as well, with `sig2` in place of `sig`. A handler can
    interrupt its thread between any two steps. `pthread_create` and `sigaction` succeed; the handle of a thread is its
    number. -/

namespace Racey.Signal

/-- How many iterations a thread makes between two signals. -/
def npersig (c : Config) : ℕ :=
  if 1000 ≤ c.maxLoop then c.maxLoop / 1000 else if 100 ≤ c.maxLoop then c.maxLoop / 100 else 1

/-- Where `ThreadBody` is. -/
inductive Phase
  | unborn
  /-- Before `threadSelfs[threadId] = pthread_self()`. -/
  | setSelf
  | sigaction
  /-- At the first `pthread_barrier_wait`. -/
  | arrive
  /-- In it, having arrived in the given cycle of the barrier. -/
  | inBarrier (cycle : ℕ)
  /-- At the test of the outer loop. -/
  | outer
  /-- In the inner loop. -/
  | inner
  /-- At `pthread_kill`. -/
  | kill
  /-- At the last `pthread_barrier_wait`. -/
  | arriveLast
  | inBarrierLast (cycle : ℕ)
  | returned
  deriving DecidableEq

/-- A thread: `loop` holds `i`, and where it is in its iteration; `frame` is the handler that has interrupted it, and
    `SIGUSR1` is blocked until that returns. -/
structure Thread where
  phase : Phase
  k : ℕ
  loop : Loop.Thread
  frame : Option Loop.Thread
  pending : Bool

inductive MainPc
  | create (i : ℕ)
  | join (i : ℕ)
  /-- Before `mix_sig = sig[0]`. -/
  | first
  | result (i : ℕ) (mix_sig : ℤ)
  | result2 (i : ℕ) (mix_sig : ℤ)
  | printed (mix_sig : ℤ)
  deriving DecidableEq

structure State where
  main : MainPc
  thread : ℕ → Thread
  barrier : Barrier
  /-- The handler is installed; it is for the whole process. -/
  handler : Bool
  threadSelfs : ℕ → Option ℕ
  sig : ℕ → ℕ
  sig2 : ℕ → ℕ
  m : ℕ → ℤ

/-- `sig2[i] = sig[33-i]`, where `behind` is what the load of `sig[33]` gives. -/
def sig2Init (behind i : ℕ) : ℕ := if i = 0 then behind else sigInit (33 - i)

def start (behind : ℕ) : State where
  main := .create 0
  thread _ := ⟨.unborn, 0, ⟨0, .head⟩, none, false⟩
  barrier := .init
  handler := false
  threadSelfs _ := none
  sig := sigInit
  sig2 := sig2Init behind
  m := mInit

/-- The moves: a step of `main`, the next step of a thread or of the handler that has interrupted it, and the delivery
    of a pending signal to a thread. -/
inductive Move
  | main
  | thread (t : ℕ)
  | deliver (t : ℕ)
  deriving DecidableEq

namespace State

def setThread (s : State) (t : ℕ) (th : Thread) : State := { s with thread := Function.update s.thread t th }

def goto (s : State) (t : ℕ) (p : Phase) : State := s.setThread t { s.thread t with phase := p }

/-- The index of `threadSelfs` that thread `t` signals. -/
def target (c : Config) (t : ℕ) (s : State) : ℕ := s.sig t % c.numProcs + 1

end State

def stepMain (c : Config) (s : State) : Option State :=
  match s.main with
  | .create i =>
    if i < c.numProcs then some { s.goto (i + 1) .setSelf with main := .create (i + 1) }
    else some { s with main := .join 0 }
  | .join i =>
    if i < c.numProcs then
      if (s.thread (i + 1)).phase = .returned then some { s with main := .join (i + 1) } else none
    else some { s with main := .first }
  | .first => some { s with main := .result 1 (signed (s.sig 0)) }
  | .result i mix_sig =>
    if i < c.numProcs then some { s with main := .result (i + 1) (signed (mix (s.sig i) (unsigned mix_sig))) }
    else some { s with main := .result2 1 mix_sig }
  | .result2 i mix_sig =>
    if i < c.numProcs then some { s with main := .result2 (i + 1) (signed (mix (s.sig2 i) (unsigned mix_sig))) }
    else some { s with main := .printed mix_sig }
  | .printed _ => none

/-- The next step of the handler that has interrupted thread `t`. -/
def stepHandler (t : ℕ) (frame : Loop.Thread) (s : State) : State :=
  if frame.Over 100 then s.setThread t { s.thread t with frame := none }
  else
    let r := frame.step t ⟨s.sig2, s.m⟩
    { s.setThread t { s.thread t with frame := some r.1 } with sig2 := r.2.sig, m := r.2.m }

/-- `pthread_kill(y, SIGUSR1)`. Nothing happens to a thread that has returned. -/
def kill (y : ℕ) (s : State) : State :=
  if (s.thread y).phase = .returned then s else s.setThread y { s.thread y with pending := true }

/-- The next step of `ThreadBody` in thread `t`. -/
def stepBody (c : Config) (t : ℕ) (s : State) : Option State :=
  let th := s.thread t
  match th.phase with
  | .unborn | .returned => none
  | .setSelf => some { s.goto t .sigaction with threadSelfs := Function.update s.threadSelfs t (some t) }
  | .sigaction => some { s.goto t .arrive with handler := true }
  | .arrive => some { s.goto t (.inBarrier s.barrier.cycle) with barrier := s.barrier.wait c.numProcs }
  | .inBarrier cycle => if s.barrier.Released cycle then some (s.goto t .outer) else none
  | .outer =>
    if th.loop.i < c.maxLoop then some (s.setThread t { th with phase := .inner, k := 0 })
    else some (s.goto t .arriveLast)
  | .inner =>
    if th.loop.pc = .head ∧ ¬ (th.k < npersig c ∧ th.loop.i < c.maxLoop) then some (s.goto t .kill)
    else
      let r := th.loop.step t ⟨s.sig, s.m⟩
      let k := if r.1.i = th.loop.i then th.k else th.k + 1
      some { s.setThread t { th with k := k, loop := r.1 } with sig := r.2.sig, m := r.2.m }
  | .kill =>
    -- A slot that no thread has stored to holds no handle, and the call would be undefined.
    match s.threadSelfs (s.target c t) with
    | none => none
    | some y => some (kill y (s.goto t .outer))
  | .arriveLast => some { s.goto t (.inBarrierLast s.barrier.cycle) with barrier := s.barrier.wait c.numProcs }
  | .inBarrierLast cycle => if s.barrier.Released cycle then some (s.goto t .returned) else none

def stepThread (c : Config) (t : ℕ) (s : State) : Option State :=
  match (s.thread t).frame with
  | some frame => some (stepHandler t frame s)
  | none => stepBody c t s

/-- A pending signal interrupts its thread, unless a handler is running in it already. -/
def deliver (t : ℕ) (s : State) : Option State :=
  let th := s.thread t
  if th.pending = true ∧ th.frame = none ∧ s.handler = true ∧ th.phase ≠ .unborn ∧ th.phase ≠ .returned then
    some (s.setThread t { th with frame := some ⟨0, .head⟩, pending := false })
  else none

def step (c : Config) : Move → State → Option State
  | .main, s => stepMain c s
  | .thread t, s => stepThread c t s
  | .deliver t, s => deliver t s

def machine (c : Config) (behind : ℕ) : Machine State Move := ⟨start behind, step c⟩

/-- Thread `x` has stored its handle and has executed `sigaction`, and it has not returned from `ThreadBody`. -/
def Ready (s : State) (x : ℕ) : Prop :=
  s.threadSelfs x = some x ∧ (s.thread x).phase ≠ .unborn ∧ (s.thread x).phase ≠ .setSelf ∧
    (s.thread x).phase ≠ .sigaction ∧ (s.thread x).phase ≠ .returned

/-! ### The mixers that the threads and their handlers amount to -/

/-- The mixer of thread `t`'s loop, or of its handlers. -/
inductive Mixer
  | main (t : ℕ)
  | handler (t : ℕ)
  deriving DecidableEq

@[ext] structure Mixers where
  thread : Mixer → Loop.Thread
  sig : ℕ → ℕ
  sig2 : ℕ → ℕ
  m : ℕ → ℤ

def startMixers (behind : ℕ) : Mixers := ⟨fun _ => ⟨0, .head⟩, sigInit, sig2Init behind, mInit⟩

/-- One access of a mixer: that of a loop works on its entry of `sig`, that of the handlers on its entry of `sig2`. -/
def Mixers.access (x : Mixer) (a : Mixers) : Mixers :=
  match x with
  | .main t =>
    let r := (a.thread x).step t ⟨a.sig, a.m⟩
    { a with thread := Function.update a.thread x r.1, sig := r.2.sig, m := r.2.m }
  | .handler t =>
    let r := (a.thread x).step t ⟨a.sig2, a.m⟩
    { a with thread := Function.update a.thread x r.1, sig2 := r.2.sig, m := r.2.m }

/-- Independent mixers, of which `x` makes `quota x` iterations. -/
def mixers (quota : Mixer → ℕ) (behind : ℕ) : Machine Mixers Mixer where
  init := startMixers behind
  step x a := if (a.thread x).Over (quota x) then none else some (a.access x)

/-- How many signals each thread has handled. -/
def observer : Machine.Observer State Move (ℕ → ℕ) where
  start _ := 0
  note
    | .deliver t, _, o => Function.update o t (o t + 1)
    | _, _, o => o

/-- `MaxLoop` iterations for each thread, and 100 for each signal that it has handled. -/
def quota (c : Config) (handled : ℕ → ℕ) : Mixer → ℕ
  | .main t => if 1 ≤ t ∧ t ≤ c.numProcs then c.maxLoop else 0
  | .handler t => 100 * handled t

/-! ### The arrays -/

/-- The entries of `sig`, `sig2` and `threadSelfs`. -/
def slots : ℕ := 33

/-- `for(i = 0; i < 33; ++i) sig2[i] = sig[33-i];`, where `sig` is what lies at and behind the array: the indices at which
    it reads `sig`, and `sig2` after it. -/
def initSig2 (sig : ℕ → ℕ) : List ℕ × (ℕ → ℕ) :=
  (List.range slots).foldl (fun p i => (p.1 ++ [33 - i], Function.update p.2 i (sig (33 - i)))) ([], fun _ => 0)

/-- The start of the threads, with any contents of `sig`. -/
def startWith (sig : ℕ → ℕ) : State := { start (sig 33) with sig := sig, sig2 := (initSig2 sig).2 }

def machineWith (c : Config) (sig : ℕ → ℕ) : Machine State Move := ⟨startWith sig, step c⟩

/-- An entry of one of the arrays. -/
inductive Entry
  | sig (i : ℕ)
  | sig2 (i : ℕ)
  | threadSelfs (i : ℕ)
  | m (i : ℕ)
  deriving DecidableEq

/-- The entry exists. -/
def Entry.Exists : Entry → Prop
  | sig i | sig2 i | threadSelfs i => i < slots
  | m i => i < maxElem

instance : (x : Entry) → Decidable x.Exists
  | .sig i | .sig2 i | .threadSelfs i => inferInstanceAs (Decidable (i < slots))
  | .m i => inferInstanceAs (Decidable (i < maxElem))

/-- What an access of a mixer is to, where `own` is its entry of `sig` or `sig2`. -/
def mixEntry (own : Entry) : Loop.Pc → Entry
  | .head | .setSig _ => own
  | .read1 num | .read2 num => .m (num % maxElem)
  | .write index2 _ => .m index2

/-- The entries that the next step of `ThreadBody` in thread `t` uses. -/
def bodyEntries (c : Config) (t : ℕ) (s : State) : List Entry :=
  let th := s.thread t
  match th.phase with
  | .setSelf => [.threadSelfs t]
  | .inner =>
    if th.loop.pc = .head ∧ ¬ (th.k < npersig c ∧ th.loop.i < c.maxLoop) then [] else [mixEntry (.sig t) th.loop.pc]
  | .kill => [.sig t, .threadSelfs (s.target c t)]
  | _ => []

/-- The entries that a move uses. -/
def entries (c : Config) (a : Move) (s : State) : List Entry :=
  match a with
  | .main =>
    match s.main with
    | .first => [.sig 0]
    | .result i _ => if i < c.numProcs then [.sig i] else []
    | .result2 i _ => if i < c.numProcs then [.sig2 i] else []
    | _ => []
  | .thread t =>
    match (s.thread t).frame with
    | some frame => if frame.Over 100 then [] else [mixEntry (.sig2 t) frame.pc]
    | none => bodyEntries c t s
  | .deliver _ => []

/-- From the start of the threads on, every entry that is used exists. -/
def RunsInside (c : Config) (sig : ℕ → ℕ) : Prop :=
  ∀ s, (machineWith c sig).Reachable s → ∀ a, ∀ x ∈ entries c a s, x.Exists

/-- racey-signal stays inside its arrays: the initialisation reads entries of `sig` that exist, and `sig2` is the reverse
    of `sig` after it; and so does the run. -/
def StaysInside (c : Config) (sig : ℕ → ℕ) : Prop :=
  (∀ i ∈ (initSig2 sig).1, i < slots) ∧ (∀ i < slots, (initSig2 sig).2 i = sig (slots - 1 - i)) ∧ RunsInside c sig

/-! ### What is sent, handled and printed -/

/-- The loop `mix_sig = mix(sig[i], mix_sig)` for `i` from 1 below `numProcs`. -/
def foldSig (numProcs : ℕ) (sig : ℕ → ℕ) (mix_sig : ℤ) : ℤ :=
  (List.range' 1 (numProcs - 1)).foldl (fun mix_sig i => signed (mix (sig i) (unsigned mix_sig))) mix_sig

/-- What the two result loops make of the arrays. -/
def signature (numProcs : ℕ) (sig sig2 : ℕ → ℕ) : ℤ := foldSig numProcs sig2 (foldSig numProcs sig (signed (sig 0)))

/-- Signals by who has sent them, by whom they were sent to, and by who has handled them. -/
structure Tally where
  sent : ℕ → ℕ
  sentTo : ℕ → ℕ
  handled : ℕ → ℕ

def tally (c : Config) : Machine.Observer State Move Tally where
  start := ⟨fun _ => 0, fun _ => 0, fun _ => 0⟩
  note
    | .deliver t, _, o => { o with handled := Function.update o.handled t (o.handled t + 1) }
    | .thread t, s, o =>
      if (s.thread t).frame = none ∧ (s.thread t).phase = .kill then
        { o with
          sent := Function.update o.sent t (o.sent t + 1)
          sentTo := Function.update o.sentTo (s.target c t) (o.sentTo (s.target c t) + 1) }
      else o
    | .main, _, o => o

end Racey.Signal
