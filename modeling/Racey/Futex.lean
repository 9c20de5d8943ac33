import Racey.Lib.Fair
import Racey.Mixer
import Racey.Turns

/-! racey-futex: `main`'s division of the threads into groups, and the main loop of `ThreadBody` after its
    barrier. Each access to `g->owner`, `g->round` and `g->threads[]`, each load and store of `m[]` and each
    futex call is one step; the moves of the machine are the threads.

    `round` is an `int` that does not come near overflowing: it grows by at most one for each batch executed, and
    a thread executes fewer than 2000 batches. -/

namespace Racey.Futex
open Turns

def nfutex : ℕ := 4

/-- The entries of `threads[33]` and of `sig[33]`. -/
def slots : ℕ := 33

/-- A `FutexGroup`; the range of its members is `begin` to `end`. -/
structure FutexGroup where
  owner : ℤ
  round : ℤ
  threads : ℕ → Bool
  begin : ℕ
  stop : ℕ

/-! ### Groups -/

/-- The loop `for(; k < end && k <= NumProcs; ++k)`, where `end - k` passes are left: `size`, `k` and `threads`
    after it. -/
def fill (numProcs : ℕ) : ℕ → ℕ → ℕ → (ℕ → Bool) → ℕ × ℕ × (ℕ → Bool)
  | 0, size, k, threads => (size, k, threads)
  | left + 1, size, k, threads =>
    if k ≤ numProcs then fill numProcs left (size + 1) (k + 1) (Function.update threads k true)
    else (size, k, threads)

/-- One pass of `main`'s group loop, which starts at thread `k`. -/
def makeGroup (numProcs nfutex k : ℕ) : FutexGroup :=
  let stop := if numProcs < nfutex then k + numProcs else k + numProcs / nfutex
  let (size, k', threads) := fill numProcs (stop - k) 0 k fun _ => false
  { owner := -(size : ℤ), round := 0, threads := threads, begin := k, stop := k' }

def groupStart (numProcs nfutex : ℕ) : ℕ → ℕ
  | 0 => 1
  | i + 1 => (makeGroup numProcs nfutex (groupStart numProcs nfutex i)).stop

/-- The groups as `main` initialises them. -/
def groups (numProcs nfutex i : ℕ) : FutexGroup := makeGroup numProcs nfutex (groupStart numProcs nfutex i)

/-- The group that `ThreadBody` finds for thread `t`: the first that has it, or else the last. -/
def findGroup (numProcs nfutex t : ℕ) : ℕ :=
  ((List.range nfutex).find? fun i => (groups numProcs nfutex i).threads t).getD (nfutex - 1)

/-- Thread `t` is one that `main` creates, and it belongs to group `i`. -/
def Member (c : Config) (i t : ℕ) : Prop := 1 ≤ t ∧ t ≤ c.numProcs ∧ findGroup c.numProcs nfutex t = i

instance (c : Config) (i t : ℕ) : Decidable (Member c i t) := inferInstanceAs (Decidable (_ ∧ _ ∧ _))

/-- `main` places every thread in a group: the assertion on `g->threads[threadId]` holds for each. -/
def Placed (c : Config) : Prop :=
  ∀ t, 1 ≤ t → t ≤ c.numProcs → (groups c.numProcs nfutex (findGroup c.numProcs nfutex t)).threads t = true

/-! ### The choice of the next owner -/

/-- `groupSize`: how many of `threads[0]` to `threads[32]` are set. -/
def groupSize (g : FutexGroup) : ℕ := (List.range slots).foldl (fun n i => if g.threads i then n + 1 else n) 0

/-- The loop `while (n != g->end && g->threads[n] == 0) n = (n+1) % 33`: the `n` that it leaves; `none` where it
    takes more than `fuel` passes. -/
def findNext (g : FutexGroup) : ℕ → ℕ → Option ℕ
  | 0, n => if n ≠ g.stop ∧ g.threads n = false then none else some n
  | fuel + 1, n => if n ≠ g.stop ∧ g.threads n = false then findNext g fuel ((n + 1) % slots) else some n

/-- `sig[threadId] % (g->end - g->begin + 1) + g->begin`. -/
def FutexGroup.startAt (g : FutexGroup) (sig : ℕ) : ℕ := sig % (g.stop - g.begin + 1) + g.begin

/-- `groupPickNext`, for a thread whose entry of `sig` is `sig`; the body of the outer loop is reached for the
    first entry of `threads[]` that is set, and it is the same for each. -/
def groupPickNext (g : FutexGroup) (sig fuel : ℕ) : Option ℤ :=
  if (List.range slots).any g.threads then
    (findNext g fuel (g.startAt sig)).map fun n => if n = g.stop then -(groupSize g : ℤ) else n
  else some 0

/-! ### Threads -/

/-- The constants of a turn: `owner`, `isLeader` and `oldRound`. -/
structure Turn where
  owner : ℤ
  isLeader : Bool
  oldRound : ℤ
  deriving DecidableEq

/-- Where a thread is in the main loop. -/
inductive Pc
  /-- The loop test, and the load of `g->owner`. -/
  | loop
  /-- `groupLeader` at `threads[i]`. -/
  | groupLeader (owner : ℤ) (i : ℕ)
  /-- Before the load of `g->round` into `oldRound`. -/
  | readRound (owner : ℤ) (isLeader : Bool)
  /-- In the loop under "EXECUTE", after `k` of its passes. -/
  | execute (turn : Turn) (k : ℕ) (pc : MixPc)
  | removeMe (turn : Turn)
  | addOwner (turn : Turn)
  /-- The tests `g->owner != 0` and `g->round == oldRound` of the execution barrier. -/
  | spinOwner (turn : Turn)
  | spinRound (turn : Turn)
  /-- `groupPickNext`: the outer loop, the inner loop, and `groupSize`. -/
  | pickScan (turn : Turn) (n : ℕ)
  | pickFind (turn : Turn) (n : ℕ)
  | pickSize (turn : Turn) (i n : ℕ)
  | setOwner (turn : Turn) (next : ℤ)
  /-- The load and the store of `g->round++`. -/
  | getRound (turn : Turn)
  | setRound (turn : Turn) (round : ℤ)
  /-- `FUTEX_WAKE`. -/
  | wake (turn : Turn)
  /-- `FUTEX_WAIT` on `round`: before the test of the word, and asleep. -/
  | waitRound (oldRound : ℤ)
  | sleepRound (oldRound : ℤ)
  /-- `FUTEX_WAIT` on `owner`. -/
  | waitOwner (owner : ℤ)
  | sleepOwner (owner : ℤ)
  /-- Before `sig[threadId]++`. -/
  | muck
  | done
  deriving DecidableEq

structure Thread where
  i : ℕ
  pc : Pc

/-- What a step does to the group and to the sleepers in it. -/
inductive Effect
  | none
  | removeMe
  | addOwner
  | setOwner (owner : ℤ)
  | setRound (round : ℤ)
  | wakeRound
  | wakeOwner
  deriving DecidableEq

/-- What a step makes of the thread that takes it and of the memory, and its effect on the group. -/
structure Outcome where
  thread : Thread
  mem : Memory
  effect : Effect

def npersig (maxLoop : ℕ) : ℕ :=
  if 1000 ≤ maxLoop then maxLoop / 1000 else if 100 ≤ maxLoop then maxLoop / 100 else 1

def scheduleNext (turn : Turn) : Pc := if turn.owner < 0 then .addOwner turn else .pickScan turn 0

def afterBarrier (turn : Turn) : Pc := if turn.isLeader then .pickScan turn 0 else .waitRound turn.oldRound

/-- One step of thread `t`, in group `g`; `none` if it is asleep or has returned. -/
def act (maxLoop t : ℕ) (g : FutexGroup) (mem : Memory) (th : Thread) : Option Outcome :=
  let goto (pc : Pc) : Option Outcome := some ⟨⟨th.i, pc⟩, mem, .none⟩
  match th.pc with
  | .loop =>
    if th.i < maxLoop then
      if g.owner = t then goto (.readRound g.owner true)
      else if g.owner < 0 then goto (.groupLeader g.owner 0)
      else goto (.waitOwner g.owner)
    else goto .done
  | .groupLeader owner i =>
    if i < slots then
      if g.threads i then goto (.readRound owner (i = t)) else goto (.groupLeader owner (i + 1))
    else goto (.readRound owner (0 = t))
  | .readRound owner isLeader => goto (.execute ⟨owner, isLeader, g.round⟩ 0 .read1)
  | .execute turn k .read1 =>
    if k < npersig maxLoop ∧ th.i < maxLoop then goto (.execute turn k (MixPc.read1.step t mem).1)
    else if th.i = maxLoop then goto (.removeMe turn)
    else goto (scheduleNext turn)
  | .execute turn k (.read2 num) => goto (.execute turn k ((MixPc.read2 num).step t mem).1)
  | .execute turn k (.write index2 num) =>
    some ⟨⟨th.i + 1, .execute turn (k + 1) .read1⟩, ((MixPc.write index2 num).step t mem).2, .none⟩
  | .removeMe turn => some ⟨⟨th.i, scheduleNext turn⟩, mem, .removeMe⟩
  | .addOwner turn => some ⟨⟨th.i, .spinOwner turn⟩, mem, .addOwner⟩
  | .spinOwner turn => if g.owner ≠ 0 then goto (.spinRound turn) else goto (afterBarrier turn)
  | .spinRound turn => if g.round = turn.oldRound then goto (.spinOwner turn) else goto (afterBarrier turn)
  | .pickScan turn n =>
    if n < slots then
      if g.threads n then goto (.pickFind turn (mem.sig t % (g.stop - g.begin + 1) + g.begin))
      else goto (.pickScan turn (n + 1))
    else goto (.setOwner turn 0)
  | .pickFind turn n =>
    if n = g.stop then goto (.pickSize turn 0 0)
    else if g.threads n then goto (.setOwner turn n)
    else goto (.pickFind turn ((n + 1) % slots))
  | .pickSize turn i n =>
    if i < slots then goto (.pickSize turn (i + 1) (if g.threads i then n + 1 else n))
    else goto (.setOwner turn (-n))
  | .setOwner turn next => some ⟨⟨th.i, .getRound turn⟩, mem, .setOwner next⟩
  | .getRound turn => goto (.setRound turn g.round)
  | .setRound turn round => some ⟨⟨th.i, .wake turn⟩, mem, .setRound (round + 1)⟩
  | .wake turn => some ⟨⟨th.i, .loop⟩, mem, if turn.owner < 0 then .wakeRound else .wakeOwner⟩
  | .waitRound oldRound => if g.round = oldRound then goto (.sleepRound oldRound) else goto .loop
  | .waitOwner owner => if g.owner = owner then goto (.sleepOwner owner) else goto .muck
  | .muck =>
    some ⟨⟨th.i, .loop⟩, { mem with sig := Function.update mem.sig t ((mem.sig t + 1) % 4294967296) }, .none⟩
  | .sleepRound _ | .sleepOwner _ | .done => none

/-! ### The machine -/

structure State where
  thread : ℕ → Thread
  mem : Memory
  group : ℕ → FutexGroup

def Effect.onGroup (t : ℕ) (g : FutexGroup) : Effect → FutexGroup
  | removeMe => { g with threads := Function.update g.threads t false }
  | addOwner => { g with owner := g.owner + 1 }
  | setOwner owner => { g with owner := owner }
  | setRound round => { g with round := round }
  | _ => g

def Effect.onPc : Effect → Pc → Pc
  | wakeRound, .sleepRound _ => .loop
  | wakeOwner, .sleepOwner _ => .muck
  | _, pc => pc

def start (c : Config) : State := ⟨fun _ => ⟨0, .loop⟩, Memory.init, groups c.numProcs nfutex⟩

def State.after (c : Config) (s : State) (t i : ℕ) (o : Outcome) : State where
  thread u :=
    if u = t then o.thread
    else if Member c i u then ⟨(s.thread u).i, o.effect.onPc (s.thread u).pc⟩
    else s.thread u
  mem := o.mem
  group := Function.update s.group i (o.effect.onGroup t (s.group i))

def step (c : Config) (t : ℕ) (s : State) : Option State :=
  if 1 ≤ t ∧ t ≤ c.numProcs then
    let i := findGroup c.numProcs nfutex t
    (act c.maxLoop t (s.group i) s.mem (s.thread t)).map (s.after c t i)
  else none

def machine (c : Config) : Machine State ℕ := ⟨start c, step c⟩

/-! ### What is on record of the rounds -/

/-- The members of a group that have not removed themselves. -/
def FutexGroup.live (g : FutexGroup) : Finset ℕ := (Finset.range slots).filter fun u => g.threads u = true

/-- What a step of thread `t`, in group `g`, adds to the record of the group. -/
def record (maxLoop t : ℕ) (g : FutexGroup) (th : Thread) (log : Log) : Log :=
  match th.pc with
  | .loop => if th.i < maxLoop ∧ (g.owner = t ∨ g.owner < 0) then log.join t else log
  | .readRound _ _ => log.batch t
  | .addOwner _ => log.add t
  | .spinOwner _ => if g.owner ≠ 0 then log else log.leave t
  | .spinRound turn => if g.round = turn.oldRound then log else log.leave t
  | .setOwner _ next => log.next t next g.live
  | .setRound _ _ => log.bump t
  | _ => log

def observer (c : Config) : Machine.Observer State ℕ (ℕ → Log) where
  start i := Log.opened (groups c.numProcs nfutex i).owner (groups c.numProcs nfutex i).live
  note t s logs :=
    let i := findGroup c.numProcs nfutex t
    Function.update logs i (record c.maxLoop t (s.group i) (s.thread t) (logs i))

/-! ### What the program is meant to do -/

def Pc.executes : Pc → Option Turn
  | .execute turn _ _ => some turn
  | _ => none

/-- The entry of `threads[]` that a thread in `groupPickNext` reads with its next step. -/
def Pc.entry (g : FutexGroup) : Pc → Option ℕ
  | .pickScan _ n => if n < slots then some n else none
  | .pickFind _ n => if n = g.stop then none else some n
  | .pickSize _ i _ => if i < slots then some i else none
  | _ => none

def Pc.asleep : Pc → Bool
  | .sleepRound _ | .sleepOwner _ => true
  | _ => false

def Pc.window : Pc → Bool
  | .getRound _ | .setRound _ _ => true
  | _ => false

/-- A group of which some thread has iterations left, while every thread of it that has not returned is asleep. -/
def Deadlocked (c : Config) (s : State) : Prop :=
  ∃ i < nfutex, (∃ t, Member c i t ∧ (s.thread t).i < c.maxLoop) ∧
    ∀ t, Member c i t → (s.thread t).pc = .done ∨ (s.thread t).pc.asleep = true

/-- While a thread executes a batch because `owner` was its id, no other thread of its group executes one. -/
def Exclusive (c : Config) (s : State) : Prop :=
  ∀ i < nfutex, ∀ t u turn, Member c i t → Member c i u → (s.thread t).pc.executes = some turn → turn.owner = t →
    u ≠ t → (s.thread u).pc.executes = none

/-- Whenever `owner` has been set to `-s`: `s` is the number of members then, each executes one batch and adds 1
    once before `owner` is set again, and nobody else does; and nobody leaves the barrier before all additions. -/
def Barrier (p : State × (ℕ → Log)) : Prop :=
  ∀ i < nfutex, ∀ j ≤ (p.2 i).gen, ((p.2 i).round j).value < 0 →
    ((p.2 i).round j).value = -((p.2 i).round j).members.card ∧
    (∀ t, ((p.2 i).round j).batches t ≤ 1 ∧ ((p.2 i).round j).adds t ≤ ((p.2 i).round j).batches t) ∧
    (∀ t ∉ ((p.2 i).round j).members, ((p.2 i).round j).batches t = 0) ∧
    (j < (p.2 i).gen → ∀ t ∈ ((p.2 i).round j).members,
      ((p.2 i).round j).batches t = 1 ∧ ((p.2 i).round j).adds t = 1) ∧
    ∀ t, 0 < ((p.2 i).round j).leaves t → ∀ u ∈ ((p.2 i).round j).members, ((p.2 i).round j).adds u = 1

/-- In the run `r` no round of all members stays incomplete: whenever `owner` has been set to `-s`, each of the members
    has, in the end, executed one batch and added 1 once. -/
def BarriersComplete (c : Config) (r : ((machine c).watch (observer c)).Trace) : Prop :=
  ∀ n, ∀ i < nfutex, ∀ j ≤ ((r.state n).2 i).gen, (((r.state n).2 i).round j).value < 0 →
    ∃ m, n ≤ m ∧ ∀ t ∈ (((r.state n).2 i).round j).members,
      (((r.state m).2 i).round j).batches t = 1 ∧ (((r.state m).2 i).round j).adds t = 1

/-- Each round that is over has been scheduled by one thread: it alone has stored to `owner`, once, and to
    `round`, once, or is still about to. The current round has been scheduled by nobody. -/
def OneScheduler (c : Config) (p : State × (ℕ → Log)) : Prop :=
  ∀ i < nfutex,
    (∀ j < (p.2 i).gen, ∃ u, ∀ t, ((p.2 i).round j).owners t = (if t = u then 1 else 0) ∧
      ((p.2 i).round j).rounds t =
        if t = u ∧ ¬ (Member c i u ∧ (p.1.thread u).pc.window = true ∧ (p.2 i).joined u = j) then 1 else 0) ∧
    ∀ t, (p.2 i).cur.owners t = 0 ∧ (p.2 i).cur.rounds t = 0

/-- In the run `r` no round stays unscheduled, except the last, opened with 0 when nobody is left: in the end one thread
    has stored to `owner` and to `round` for it, each once, and nobody else has. -/
def RoundsScheduled (c : Config) (r : ((machine c).watch (observer c)).Trace) : Prop :=
  ∀ n, ∀ i < nfutex, ∀ j ≤ ((r.state n).2 i).gen, (((r.state n).2 i).round j).value ≠ 0 →
    ∃ m, n ≤ m ∧ ∃ u, ∀ t, (((r.state m).2 i).round j).owners t = (if t = u then 1 else 0) ∧
      (((r.state m).2 i).round j).rounds t = if t = u then 1 else 0

/-! ### Where it does -/

/-- If `t` is about to sample `round` for a batch of all members, then no thread of its group is between its store
    to `owner` and its store to `round`. -/
def RoundSettled (c : Config) (t : ℕ) (s : State) : Prop :=
  match (s.thread t).pc with
  | .readRound owner _ => owner < 0 → ∀ u ≤ c.numProcs,
      Member c (findGroup c.numProcs nfutex t) u → (s.thread u).pc.window = false
  | _ => True

/-- In the execution barrier, with a sample of `round`. -/
def Pc.barrier : Pc → Option ℤ
  | .addOwner turn | .spinOwner turn | .spinRound turn => some turn.oldRound
  | _ => none

/-- If `t` is about to find itself first in `threads[]`, then no thread of its group with a lower number has
    removed itself and is still in the execution barrier of the current `round`. -/
def LeaderPresent (c : Config) (t : ℕ) (s : State) : Prop :=
  let i := findGroup c.numProcs nfutex t
  match (s.thread t).pc with
  | .groupLeader _ n => n = t → (s.group i).threads t = true → ∀ u < t, Member c i u →
      (s.group i).threads u = false → (s.thread u).pc.barrier ≠ some (s.group i).round
  | _ => True

/-- If `t` is about to wake up the sleepers on `round`, then none of them waits for the current `round`. -/
def WakesPast (c : Config) (t : ℕ) (s : State) : Prop :=
  let i := findGroup c.numProcs nfutex t
  match (s.thread t).pc with
  | .wake turn => turn.owner < 0 → ∀ u ≤ c.numProcs, Member c i u →
      (s.thread u).pc ≠ .sleepRound (s.group i).round
  | _ => True

instance (c : Config) (t : ℕ) (s : State) : Decidable (RoundSettled c t s) := by
  unfold RoundSettled
  split <;> infer_instance

instance (c : Config) (t : ℕ) (s : State) : Decidable (LeaderPresent c t s) := by
  unfold LeaderPresent
  split <;> infer_instance

instance (c : Config) (t : ℕ) (s : State) : Decidable (WakesPast c t s) := by
  unfold WakesPast
  split <;> infer_instance

def Settled (c : Config) (t : ℕ) (s : State) : Prop := RoundSettled c t s ∧ LeaderPresent c t s

instance (c : Config) (t : ℕ) (s : State) : Decidable (Settled c t s) := inferInstanceAs (Decidable (_ ∧ _))

end Racey.Futex
