import Mathlib.Data.Finset.Card
import Mathlib.Data.Finset.Range
import Mathlib.Logic.Function.Basic

/-! The scheduling protocol of a futex group, without the code: what each member is doing, the two words
    `owner` and `round`, and a record of the rounds so far.

    A round is opened by a store to `owner`. Its value is a member, whose turn it is; or minus the number of
    members, who then all take a turn and meet at a barrier; or 0, when nobody is left. Whoever holds the turn,
    or the lowest-numbered member after the barrier, schedules: a store to `owner`, which opens the next round,
    and then one to `round`. -/

namespace Racey.Turns

/-- What is on record of a round: the value of `owner` that opened it, who was in the group then, and what each
    thread did for it: batches executed, additions to `owner`, departures from the barrier, stores to `owner`,
    stores to `round`. -/
structure Round where
  value : ℤ
  members : Finset ℕ
  batches : ℕ → ℕ
  adds : ℕ → ℕ
  leaves : ℕ → ℕ
  owners : ℕ → ℕ
  rounds : ℕ → ℕ

def Round.opened (value : ℤ) (members : Finset ℕ) : Round :=
  ⟨value, members, fun _ => 0, fun _ => 0, fun _ => 0, fun _ => 0, fun _ => 0⟩

/-- The rounds so far: `gen` is the number of the current one, and `joined t` the round whose `owner` thread `t`
    read when it last took a turn. -/
structure Log where
  gen : ℕ
  joined : ℕ → ℕ
  round : ℕ → Round

def tick (f : ℕ → ℕ) (t : ℕ) : ℕ → ℕ := Function.update f t (f t + 1)

namespace Log

def opened (value : ℤ) (members : Finset ℕ) : Log := ⟨0, fun _ => 0, fun _ => Round.opened value members⟩

def cur (l : Log) : Round := l.round l.gen

/-- Thread `t` takes a turn in the current round. -/
def join (l : Log) (t : ℕ) : Log := { l with joined := Function.update l.joined t l.gen }

/-- An entry for `t` in the record of the round that it joined. -/
def note (l : Log) (t : ℕ) (f : Round → Round) : Log :=
  { l with round := Function.update l.round (l.joined t) (f (l.round (l.joined t))) }

def batch (l : Log) (t : ℕ) : Log := l.note t fun r => { r with batches := tick r.batches t }
def add (l : Log) (t : ℕ) : Log := l.note t fun r => { r with adds := tick r.adds t }
def leave (l : Log) (t : ℕ) : Log := l.note t fun r => { r with leaves := tick r.leaves t }
def bump (l : Log) (t : ℕ) : Log := l.note t fun r => { r with rounds := tick r.rounds t }

/-- Thread `t` stores `value` to `owner`, which opens the next round. -/
def next (l : Log) (t : ℕ) (value : ℤ) (live : Finset ℕ) : Log :=
  let l' := l.note t fun r => { r with owners := tick r.owners t }
  { l' with gen := l.gen + 1, round := Function.update l'.round (l.gen + 1) (Round.opened value live) }

end Log

/-- What a thread is doing in the protocol. -/
inductive Role
  /-- Between turns. -/
  | out
  /-- It has read its own id in `owner`, and will schedule. -/
  | own
  /-- It has read a negative `owner`, and may know whether it is the leader. -/
  | pre (isLeader : Option Bool)
  /-- It executes its batch for the barrier. -/
  | work (isLeader : Bool) (oldRound : ℤ)
  /-- It has added itself to `owner`, and spins. -/
  | spin (isLeader : Bool) (oldRound : ℤ)
  /-- It has left the barrier, and is in `FUTEX_WAIT` on `round`, asleep or about to. -/
  | rest (asleep : Bool) (oldRound : ℤ)
  /-- It has left the barrier as the leader, and will schedule. -/
  | lead
  /-- It has stored to `owner` but not yet to `round`, which it may have read; `all` after a barrier. -/
  | window (all : Bool) (read : Option ℤ)
  /-- It is about to wake up the others. -/
  | wake (all : Bool)
  /-- It is in `FUTEX_WAIT` on `owner`, asleep or about to. -/
  | wait (asleep : Bool) (owner : ℤ)
  deriving DecidableEq

namespace Role

def isWindow : Role → Bool
  | window _ _ => true
  | _ => false

def idle : Role → Bool
  | out | rest _ _ | wake _ | wait _ _ => true
  | _ => false

def asleep : Role → Bool
  | rest true _ | wait true _ => true
  | _ => false

/-- What a wake-up on `round`, or on `owner`, does to a thread of this role. -/
def woken (all : Bool) : Role → Role
  | rest true r => if all then out else rest true r
  | wait true e => if all then wait true e else out
  | role => role

end Role

structure View where
  owner : ℤ
  round : ℤ
  live : Finset ℕ
  role : ℕ → Role
  log : Log

namespace View
variable (V : View)

def cur : Round := V.log.cur

/-- Thread `t` goes on to another role, with what it leaves in `owner` and on record. -/
def act (t : ℕ) (role : Role) (owner : ℤ) (log : Log) : View :=
  ⟨owner, V.round, V.live, Function.update V.role t role, log⟩

abbrev goto (t : ℕ) (role : Role) : View := V.act t role V.owner V.log

/-- No member is between its store to `owner` and its store to `round`. -/
def Quiet : Prop := ∀ u, (V.role u).isWindow = false

/-- Every member of the current round has added itself to `owner`. -/
def Full : Prop := ∀ u ∈ V.cur.members, V.cur.adds u = 1

/-- No member of the current round has a lower number than `t`. -/
def Least (t : ℕ) : Prop := ∀ u ∈ V.cur.members, t ≤ u

/-- What `groupPickNext` may return: a member, minus the number of members, or 0 if there is none. -/
def Choice (v : ℤ) : Prop :=
  (∃ u ∈ V.live, v = u) ∨ (V.live.Nonempty ∧ v = -V.live.card) ∨ (V.live = ∅ ∧ v = 0)

/-- Thread `u` has removed itself in the round that `round` still shows, and has not left its barrier. -/
def Absent (u : ℕ) : Prop :=
  u ∉ V.live ∧ ((∃ b, V.role u = .work b V.round) ∨ ∃ b, V.role u = .spin b V.round)

end View

/-- The moves of thread `t`. A leader is found, and `round` is sampled, only under the conditions on which the
    protocol rests: nobody below the leader is absent, and no scheduler is between its two stores. -/
inductive Move (t : ℕ) : View → View → Prop
  | stay (V : View) : Move t V V
  | enterOwn (V : View) : V.role t = .out → t ∈ V.live → V.owner = t →
      Move t V (V.act t .own V.owner (V.log.join t))
  | enterAll (V : View) : V.role t = .out → t ∈ V.live → V.owner < 0 →
      Move t V (V.act t (.pre none) V.owner (V.log.join t))
  | enterWait (V : View) : V.role t = .out → t ∈ V.live → V.owner ≠ t → 0 ≤ V.owner →
      Move t V (V.goto t (.wait false V.owner))
  | leader (V : View) : V.role t = .pre none → (∀ u < t, u ∉ V.live) → (∀ u < t, ¬ V.Absent u) →
      Move t V (V.goto t (.pre (some true)))
  | follower (V : View) (u : ℕ) : V.role t = .pre none → u ∈ V.live → u < t →
      Move t V (V.goto t (.pre (some false)))
  | beginOwn (V : View) : V.role t = .own → Move t V (V.act t .own V.owner (V.log.batch t))
  | beginAll (V : View) (b : Bool) : V.role t = .pre (some b) → V.Quiet →
      Move t V (V.act t (.work b V.round) V.owner (V.log.batch t))
  | remove (V : View) : (V.role t = .own ∨ ∃ b r, V.role t = .work b r) →
      Move t V { V with live := V.live.erase t }
  | add (V : View) (b : Bool) (r : ℤ) : V.role t = .work b r →
      Move t V (V.act t (.spin b r) (V.owner + 1) (V.log.add t))
  | leave (V : View) (b : Bool) (r : ℤ) : V.role t = .spin b r → V.owner = 0 ∨ V.round ≠ r →
      Move t V (V.act t (if b then .lead else .rest false r) V.owner (V.log.leave t))
  | schedule (V : View) (all : Bool) (v : ℤ) : V.role t = (if all then .lead else .own) → V.Choice v →
      Move t V (V.act t (.window all none) v (V.log.next t v V.live))
  | getRound (V : View) (all : Bool) : V.role t = .window all none →
      Move t V (V.goto t (.window all (some V.round)))
  | setRound (V : View) (all : Bool) (r : ℤ) : V.role t = .window all (some r) →
      Move t V { V.act t (.wake all) V.owner (V.log.bump t) with round := r + 1 }
  | wake (V : View) (all : Bool) : V.role t = .wake all →
      Move t V { V with role := fun u => if u = t then .out else (V.role u).woken all }
  | sleepRound (V : View) (r : ℤ) : V.role t = .rest false r → V.round = r → Move t V (V.goto t (.rest true r))
  | skipRound (V : View) (r : ℤ) : V.role t = .rest false r → V.round ≠ r → Move t V (V.goto t .out)
  | sleepOwner (V : View) (e : ℤ) : V.role t = .wait false e → V.owner = e → Move t V (V.goto t (.wait true e))
  | skipOwner (V : View) (e : ℤ) : V.role t = .wait false e → V.owner ≠ e → Move t V (V.goto t .out)

end Racey.Turns
