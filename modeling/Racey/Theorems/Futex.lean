import Racey.Theorems.FutexGroups
import Racey.Theorems.TurnsSleep

/-! racey-futex follows the scheduling protocol, under the two conditions on which the protocol rests: `round` is
    sampled while no scheduler is between its two stores, and nobody below a new leader has left the group in the
    current round. What the protocol guarantees then holds of the program. -/

namespace Racey.Futex
open Turns

variable {c : Config} {s s' : State} {logs : ℕ → Log} {i t u : ℕ} {g : FutexGroup} {th : Thread} {mem : Memory}
  {o : Outcome}

/-! ### Threads as the protocol sees them -/

/-- What a thread at `pc` is doing in the protocol. -/
def Pc.role : Pc → Role
  | .loop | .muck | .done => .out
  | .groupLeader _ _ => .pre none
  | .readRound owner isLeader => if owner < 0 then .pre (some isLeader) else .own
  | .execute turn _ _ | .removeMe turn => if turn.owner < 0 then .work turn.isLeader turn.oldRound else .own
  | .addOwner turn => .work turn.isLeader turn.oldRound
  | .spinOwner turn | .spinRound turn => .spin turn.isLeader turn.oldRound
  | .pickScan turn _ | .pickFind turn _ | .pickSize turn _ _ | .setOwner turn _ =>
    if turn.owner < 0 then .lead else .own
  | .getRound turn => .window (turn.owner < 0) none
  | .setRound turn round => .window (turn.owner < 0) (some round)
  | .wake turn => .wake (turn.owner < 0)
  | .waitRound oldRound => .rest false oldRound
  | .sleepRound oldRound => .rest true oldRound
  | .waitOwner owner => .wait false owner
  | .sleepOwner owner => .wait true owner

def roleIn (c : Config) (i : ℕ) (thread : ℕ → Thread) (t : ℕ) : Role :=
  if Member c i t then (thread t).pc.role else .out

def view (c : Config) (i : ℕ) (s : State) (logs : ℕ → Log) : View :=
  ⟨(s.group i).owner, (s.group i).round, (s.group i).live, roleIn c i s.thread, logs i⟩

theorem view_role (h : Member c i t) : (view c i s logs).role t = (s.thread t).pc.role := if_pos h

theorem lt_slots (hc : c.Accepted) (hn : t ≤ c.numProcs) : t < slots := by
  have := hc.numProcs_le
  unfold slots
  omega

theorem mem_live : t ∈ g.live ↔ t < slots ∧ g.threads t = true := by
  simp only [FutexGroup.live, Finset.mem_filter, Finset.mem_range]

theorem role_isWindow (pc : Pc) : pc.role.isWindow = pc.window := by
  cases pc <;> first | rfl | (simp only [Pc.role]; split <;> rfl)

theorem role_asleep (pc : Pc) : pc.role.asleep = pc.asleep := by
  cases pc <;> first | rfl | (simp only [Pc.role]; split <;> rfl)

theorem scheduleNext_role (turn : Turn) :
    (scheduleNext turn).role = if turn.owner < 0 then .work turn.isLeader turn.oldRound else .own := by
  unfold scheduleNext
  split
  · rfl
  · rename_i h
    simp only [Pc.role, if_neg h]

theorem afterBarrier_role {turn : Turn} (h : turn.owner < 0) :
    (afterBarrier turn).role = if turn.isLeader then .lead else .rest false turn.oldRound := by
  unfold afterBarrier
  split
  · simp only [Pc.role, if_pos h]
  · rfl

/-! ### What holds of a thread -/

/-- What `groupPickNext` has found, in the group as it is. -/
def FutexGroup.Found (g : FutexGroup) (v : ℤ) : Prop :=
  (∃ u < slots, g.threads u = true ∧ v = u) ∨ ((∃ u < slots, g.threads u = true) ∧ v = -(g.live.card : ℤ)) ∨
    ((∀ u < slots, g.threads u = false) ∧ v = 0)

/-- Where a thread is tells how many iterations it has done, whether it is still in the group, and what it has seen
    of `threads[]`. -/
def ThreadOk (maxLoop t : ℕ) (g : FutexGroup) (th : Thread) : Prop :=
  th.i ≤ maxLoop ∧
  match th.pc with
  | .groupLeader owner n => (g.threads t = true ∧ th.i < maxLoop) ∧ (∀ u < n, g.threads u = false) ∧ owner < 0
  | .readRound _ _ => g.threads t = true ∧ th.i < maxLoop
  | .execute _ _ pc => g.threads t = true ∧ (pc ≠ .read1 → th.i < maxLoop)
  | .removeMe _ => g.threads t = true ∧ th.i = maxLoop
  | .addOwner turn | .spinOwner turn | .spinRound turn => (g.threads t = true ↔ th.i < maxLoop) ∧ turn.owner < 0
  | .pickScan _ n => (g.threads t = true ↔ th.i < maxLoop) ∧ ∀ u < n, g.threads u = false
  | .pickFind _ n => (g.threads t = true ↔ th.i < maxLoop) ∧ (∃ u < slots, g.threads u = true) ∧
      (n < slots ∨ n = g.stop)
  | .pickSize _ k n => (g.threads t = true ↔ th.i < maxLoop) ∧ (∃ u < slots, g.threads u = true) ∧ k ≤ slots ∧
      n = ((Finset.range k).filter fun u => g.threads u = true).card
  | .setOwner _ v => (g.threads t = true ↔ th.i < maxLoop) ∧ g.Found v
  | .done => th.i = maxLoop ∧ g.threads t = false
  | _ => g.threads t = true ↔ th.i < maxLoop

/-- The thread is scanning `threads[]` to pick the next owner. -/
def Pc.picks : Pc → Bool
  | .pickFind _ _ | .pickSize _ _ _ | .setOwner _ _ => true
  | _ => false

theorem ThreadOk.congr {g' : FutexGroup} (h : ThreadOk c.maxLoop t g th) (ht : g'.threads = g.threads)
    (hs : g'.stop = g.stop) : ThreadOk c.maxLoop t g' th := by
  have hlive : g'.live = g.live := by rw [FutexGroup.live, ht, FutexGroup.live]
  obtain ⟨hi, h⟩ := h
  refine ⟨hi, ?_⟩
  cases hpc : th.pc <;> rw [hpc] at h <;> simp only [ht, hs, FutexGroup.Found, hlive] <;> exact h

/-- A thread that is not picking does not mind another thread removing itself. -/
theorem ThreadOk.remove (h : ThreadOk c.maxLoop t g th) (hu : t ≠ u) (hp : th.pc.picks = false) :
    ThreadOk c.maxLoop t { g with threads := Function.update g.threads u false } th := by
  have hold : ∀ {n : ℕ}, (∀ w < n, g.threads w = false) → ∀ w < n, Function.update g.threads u false w = false := by
    intro n hn w hw
    by_cases hwu : w = u
    · rw [hwu, Function.update_self]
    · rw [Function.update_of_ne hwu]
      exact hn w hw
  obtain ⟨hi, h⟩ := h
  refine ⟨hi, ?_⟩
  cases hpc : th.pc <;> rw [hpc] at h hp <;> simp only [Function.update_of_ne hu]
  case groupLeader owner n => exact ⟨h.1, hold h.2.1, h.2.2⟩
  case pickScan turn n => exact ⟨h.1, hold h.2⟩
  case pickFind => cases hp
  case pickSize => cases hp
  case setOwner => cases hp
  all_goals exact h

structure Good (c : Config) (i : ℕ) (s : State) (logs : ℕ → Log) : Prop where
  inv : Inv (view c i s logs)
  stop : (s.group i).begin ≤ (s.group i).stop ∧ (s.group i).stop ≤ slots
  members : ∀ u, (s.group i).threads u = true → Member c i u
  thread : ∀ t, Member c i t → ThreadOk c.maxLoop t (s.group i) (s.thread t)

theorem role_of_picks {pc : Pc} (h : pc.picks = true) : pc.role = .own ∨ pc.role = .lead := by
  have hif : ∀ turn : Turn, (if turn.owner < 0 then Role.lead else .own) = .own ∨
      (if turn.owner < 0 then Role.lead else .own) = .lead := by
    intro turn
    split
    · exact Or.inr rfl
    · exact Or.inl rfl
  cases pc with
  | pickFind turn _ => exact hif turn
  | pickSize turn _ _ => exact hif turn
  | setOwner turn _ => exact hif turn
  | _ => cases h

/-! ### Views after a step -/

/-- The view after a step of a member that wakes nobody up. -/
theorem view_after (ht : Member c i t) (hwake : o.effect ≠ .wakeRound ∧ o.effect ≠ .wakeOwner) (l : Log) :
    view c i (s.after c t i o) (Function.update logs i l) =
      ⟨(o.effect.onGroup t (s.group i)).owner, (o.effect.onGroup t (s.group i)).round,
        (o.effect.onGroup t (s.group i)).live, Function.update (view c i s logs).role t o.thread.pc.role, l⟩ := by
  have honPc : ∀ pc, o.effect.onPc pc = pc := by
    intro pc
    cases he : o.effect with
    | wakeRound => exact absurd he hwake.1
    | wakeOwner => exact absurd he hwake.2
    | _ => rfl
  simp only [view, State.after, Function.update_self, View.mk.injEq, true_and, and_true]
  funext u
  by_cases hu : u = t
  · subst hu
    simp only [roleIn, if_pos ht, if_true, Function.update_self]
  · rw [Function.update_of_ne hu]
    simp only [roleIn, if_neg hu, honPc]
    split
    · rfl
    · rfl

theorem role_onPc (pc : Pc) (all : Bool) :
    ((if all then Effect.wakeRound else Effect.wakeOwner).onPc pc).role = pc.role.woken all := by
  cases hpc : pc with
  | sleepRound r => cases all <;> rfl
  | sleepOwner e => cases all <;> rfl
  | _ =>
    rw [Role.woken_of_awake (role_asleep _)]
    cases all <;> rfl

theorem view_wake (ht : Member c i t) {k : ℕ} (all : Bool) (l : Log) :
    view c i (s.after c t i ⟨⟨k, .loop⟩, mem, if all then .wakeRound else .wakeOwner⟩) (Function.update logs i l) =
      { view c i s logs with role := fun u => if u = t then .out else ((view c i s logs).role u).woken all, log := l } := by
  have honGroup : (if all then Effect.wakeRound else Effect.wakeOwner).onGroup t (s.group i) = s.group i := by
    cases all <;> rfl
  simp only [view, State.after, honGroup, Function.update_self, View.mk.injEq, true_and, and_true]
  funext u
  by_cases hu : u = t
  · subst hu
    simp only [roleIn, if_pos ht, if_true]
    rfl
  · simp only [roleIn, if_neg hu]
    split
    · exact role_onPc _ _
    · rfl

theorem live_remove : FutexGroup.live { g with threads := Function.update g.threads t false } = g.live.erase t := by
  ext u
  simp only [mem_live, Finset.mem_erase]
  by_cases hu : u = t
  · subst hu
    simp
  · simp [hu]

theorem view_other {k : ℕ} (hk : k ≠ i) (ht : Member c i t) (l : Log) :
    view c k (s.after c t i o) (Function.update logs i l) = view c k s logs := by
  simp only [view, State.after, Function.update_of_ne hk, View.mk.injEq, true_and, and_true]
  funext u
  simp only [roleIn]
  split
  · rename_i hu
    have hne : u ≠ t := by
      rintro rfl
      exact hk (hu.2.2.symm.trans ht.2.2)
    have hni : ¬ Member c i u := fun hm => hk (hu.2.2.symm.trans hm.2.2)
    rw [if_neg hne, if_neg hni]
  · rfl

/-! ### Steps are moves of the protocol -/

theorem view_goto (ht : Member c i t) (k : ℕ) (pc : Pc) (l : Log) :
    view c i (s.after c t i ⟨⟨k, pc⟩, mem, .none⟩) (Function.update logs i l) =
      (view c i s logs).act t pc.role (view c i s logs).owner l :=
  view_after ht ⟨by simp, by simp⟩ l

theorem move_stay (ht : Member c i t) {k : ℕ} {pc : Pc} (hpc : pc.role = (s.thread t).pc.role) :
    Move t (view c i s logs) (view c i (s.after c t i ⟨⟨k, pc⟩, mem, .none⟩) (Function.update logs i (logs i))) := by
  rw [view_goto ht, hpc]
  rw [← view_role ht, View.act, Function.update_eq_self]
  exact .stay _

/-- A thread at work for the barrier, or at it, is in the execution barrier or before its addition to `owner`. -/
theorem barrier_of_role {pc : Pc} {b : Bool} {r : ℤ} (h : pc.role = .work b r ∨ pc.role = .spin b r) :
    pc.barrier = some r ∨ (∃ turn k q, pc = .execute turn k q) ∨ ∃ turn, pc = .removeMe turn := by
  cases pc <;> simp only [Pc.role] at h <;> (try split at h) <;> simp_all [Pc.barrier]

namespace Good

/-- A member below `t` that is absent from the round has removed itself, and is in the execution barrier. -/
theorem barrier_of_absent (h : Good c i s logs) (hu : (view c i s logs).Absent u) (hlt : u < slots) :
    Member c i u ∧ (s.group i).threads u = false ∧ (s.thread u).pc.barrier = some (s.group i).round := by
  obtain ⟨hlive, hrole⟩ := hu
  have hthreads : (s.group i).threads u = false := by
    cases hth : (s.group i).threads u with
    | false => rfl
    | true => exact absurd (mem_live.mpr ⟨hlt, hth⟩) hlive
  have hm : Member c i u := by
    by_contra hm
    simp only [view, roleIn, if_neg hm] at hrole
    simp at hrole
  have hok := (h.thread u hm).2
  rw [view_role hm] at hrole
  refine ⟨hm, hthreads, ?_⟩
  have hpc : (s.thread u).pc.barrier = some (s.group i).round ∨ (∃ turn k pc, (s.thread u).pc = .execute turn k pc) ∨
      ∃ turn, (s.thread u).pc = .removeMe turn := by
    rcases hrole with ⟨b, hw⟩ | ⟨b, hw⟩
    · exact barrier_of_role (Or.inl hw)
    · exact barrier_of_role (Or.inr hw)
  rcases hpc with hb | ⟨turn, k, pc, hpc⟩ | ⟨turn, hpc⟩
  · exact hb
  · rw [hpc, hthreads] at hok
    exact absurd hok.1 Bool.false_ne_true
  · rw [hpc, hthreads] at hok
    exact absurd hok.1 Bool.false_ne_true

theorem choice_of_found {v : ℤ} (hv : (s.group i).Found v) : (view c i s logs).Choice v := by
  rcases hv with ⟨u, hlt, hu, rfl⟩ | ⟨⟨u, hlt, hu⟩, rfl⟩ | ⟨hnone, rfl⟩
  · exact Or.inl ⟨u, mem_live.mpr ⟨hlt, hu⟩, rfl⟩
  · exact Or.inr (Or.inl ⟨⟨u, mem_live.mpr ⟨hlt, hu⟩⟩, rfl⟩)
  · refine Or.inr (Or.inr ⟨Finset.eq_empty_of_forall_notMem fun u hu => ?_, rfl⟩)
    obtain ⟨hlt, hu⟩ := mem_live.mp hu
    rw [hnone u hlt] at hu
    cases hu

/-- A step of a member is a move of the protocol. -/
theorem move_of_act (h : Good c i s logs) (ht : Member c i t) (hlt : t < slots)
    (ho : act c.maxLoop t (s.group i) s.mem (s.thread t) = some o) (hround : RoundSettled c t s)
    (hleader : LeaderPresent c t s) :
    Move t (view c i s logs) (view c i (s.after c t i o)
      (Function.update logs i (record c.maxLoop t (s.group i) (s.thread t) (logs i)))) := by
  have hrole : (view c i s logs).role t = (s.thread t).pc.role := view_role ht
  have hfind : findGroup c.numProcs nfutex t = i := ht.2.2
  have hok := (h.thread t ht).2
  unfold RoundSettled at hround
  unfold LeaderPresent at hleader
  rw [hfind] at hround hleader
  cases hpc : (s.thread t).pc <;> rw [hpc] at hrole hok hround hleader <;>
    simp only [act, record, hpc, Option.some.injEq, reduceCtorEq] at ho ⊢
  case loop =>
    split at ho
    · rename_i hi
      have hlive : t ∈ (view c i s logs).live := mem_live.mpr ⟨hlt, hok.mpr hi⟩
      split at ho
      · rename_i howner
        cases ho
        rw [if_pos ⟨hi, Or.inl howner⟩, view_goto ht, Pc.role, if_neg (by omega)]
        exact .enterOwn _ hrole hlive howner
      · rename_i howner
        split at ho
        · rename_i hneg
          cases ho
          rw [if_pos ⟨hi, Or.inr hneg⟩, view_goto ht]
          exact .enterAll _ hrole hlive hneg
        · rename_i hneg
          cases ho
          rw [if_neg fun hor => hor.2.elim howner hneg, view_goto ht]
          exact .enterWait _ hrole hlive howner (Int.not_lt.mp hneg)
    · rename_i hi
      cases ho
      rw [if_neg fun hand => hi hand.1]
      exact move_stay ht (by rw [hpc]; rfl)
  case groupLeader owner n =>
    obtain ⟨⟨hth, hi⟩, hscan, hneg⟩ := hok
    have hn : n ≤ t := Nat.le_of_not_lt fun hlt => by
      rw [hscan t hlt] at hth
      cases hth
    rw [if_pos (Nat.lt_of_le_of_lt hn hlt)] at ho
    split at ho
    · rename_i hset
      cases ho
      rw [view_goto ht, Pc.role, if_pos hneg]
      rcases Nat.lt_or_eq_of_le hn with hnt | rfl
      · rw [decide_eq_false (Nat.ne_of_lt hnt)]
        exact .follower _ n hrole (mem_live.mpr ⟨Nat.lt_trans hnt hlt, hset⟩) hnt
      · rw [decide_eq_true rfl]
        refine .leader _ hrole (fun u hu hl => ?_) fun u hu habsent => ?_
        · have := (mem_live.mp hl).2
          rw [hscan u hu] at this
          cases this
        · obtain ⟨hm, hf, hb⟩ := h.barrier_of_absent habsent (Nat.lt_trans hu hlt)
          exact hleader rfl hth u hu hm hf hb
    · cases ho
      exact move_stay ht (by rw [hpc]; rfl)
  case readRound owner isLeader =>
    cases ho
    rw [view_goto ht]
    simp only [Pc.role] at hrole ⊢
    split
    · rename_i hneg
      rw [if_pos hneg] at hrole
      refine .beginAll _ isLeader hrole fun u => ?_
      show (roleIn c i s.thread u).isWindow = false
      unfold roleIn
      split
      · rename_i hu
        rw [role_isWindow]
        exact hround hneg u hu.2.1 hu
      · rfl
    · rename_i hneg
      rw [if_neg hneg] at hrole
      exact .beginOwn _ hrole
  case execute turn k pc =>
    cases pc with
    | read1 =>
      simp only at ho
      split at ho
      · cases ho
        exact move_stay ht (by rw [hpc]; rfl)
      · split at ho
        · cases ho
          exact move_stay ht (by rw [hpc]; rfl)
        · cases ho
          exact move_stay ht (by rw [hpc, scheduleNext_role]; rfl)
    | read2 num =>
      cases ho
      exact move_stay ht (by rw [hpc]; rfl)
    | write index2 num =>
      cases ho
      exact move_stay ht (by rw [hpc]; rfl)
  case removeMe turn =>
    cases ho
    rw [view_after ht ⟨by simp, by simp⟩, scheduleNext_role]
    have hsame : Function.update (view c i s logs).role t
        (if turn.owner < 0 then .work turn.isLeader turn.oldRound else .own) = (view c i s logs).role := by
      simp only [Pc.role] at hrole
      rw [← hrole, Function.update_eq_self]
    rw [hsame, Effect.onGroup, live_remove]
    refine .remove _ ?_
    rw [hrole, Pc.role]
    split
    · exact Or.inr ⟨_, _, rfl⟩
    · exact Or.inl rfl
  case addOwner turn =>
    cases ho
    rw [view_after ht ⟨by simp, by simp⟩]
    exact .add _ turn.isLeader turn.oldRound hrole
  case spinOwner turn =>
    split at ho
    · rename_i howner
      cases ho
      rw [if_pos howner]
      exact move_stay ht (by rw [hpc]; rfl)
    · rename_i howner
      cases ho
      rw [if_neg howner, view_goto ht, afterBarrier_role hok.2]
      exact .leave _ turn.isLeader turn.oldRound hrole (Or.inl (not_not.mp howner))
  case spinRound turn =>
    split at ho
    · rename_i hold
      cases ho
      rw [if_pos hold]
      exact move_stay ht (by rw [hpc]; rfl)
    · rename_i hold
      cases ho
      rw [if_neg hold, view_goto ht, afterBarrier_role hok.2]
      exact .leave _ turn.isLeader turn.oldRound hrole (Or.inr hold)
  case pickScan turn n =>
    split at ho
    · split at ho <;> cases ho <;> exact move_stay ht (by rw [hpc]; rfl)
    · cases ho
      exact move_stay ht (by rw [hpc]; rfl)
  case pickFind turn n =>
    split at ho
    · cases ho
      exact move_stay ht (by rw [hpc]; rfl)
    · split at ho <;> cases ho <;> exact move_stay ht (by rw [hpc]; rfl)
  case pickSize turn k n =>
    split at ho <;> cases ho <;> exact move_stay ht (by rw [hpc]; rfl)
  case setOwner turn v =>
    cases ho
    rw [view_after ht ⟨by simp, by simp⟩]
    refine .schedule _ (decide (turn.owner < 0)) v ?_ (choice_of_found hok.2)
    rw [hrole, Pc.role]
    by_cases hneg : turn.owner < 0 <;> simp [hneg]
  case getRound turn =>
    cases ho
    rw [view_goto ht]
    exact .getRound _ (decide (turn.owner < 0)) hrole
  case setRound turn r =>
    cases ho
    rw [view_after ht ⟨by simp, by simp⟩]
    exact .setRound _ (decide (turn.owner < 0)) r hrole
  case wake turn =>
    cases ho
    have heff : (if turn.owner < 0 then Effect.wakeRound else Effect.wakeOwner) =
        if decide (turn.owner < 0) then Effect.wakeRound else Effect.wakeOwner := by
      by_cases hneg : turn.owner < 0 <;> simp [hneg]
    rw [heff, view_wake ht]
    exact .wake _ (decide (turn.owner < 0)) hrole
  case waitRound r =>
    split at ho
    · rename_i hold
      cases ho
      rw [view_goto ht]
      exact .sleepRound _ r hrole hold
    · rename_i hold
      cases ho
      rw [view_goto ht]
      exact .skipRound _ r hrole hold
  case waitOwner e =>
    split at ho
    · rename_i hold
      cases ho
      rw [view_goto ht]
      exact .sleepOwner _ e hrole hold
    · rename_i hold
      cases ho
      rw [view_goto ht]
      exact .skipOwner _ e hrole hold
  case muck =>
    cases ho
    exact move_stay ht (by rw [hpc]; rfl)

end Good

/-! ### What a step keeps of a thread -/

section ThreadOk
variable {maxLoop k : ℕ} {turn : Turn}

theorem scheduleNext_ok (hk : k ≤ maxLoop) (hin : g.threads t = true ↔ k < maxLoop) :
    ThreadOk maxLoop t g ⟨k, scheduleNext turn⟩ := by
  unfold scheduleNext
  split
  · rename_i hneg
    exact ⟨hk, hin, hneg⟩
  · exact ⟨hk, hin, fun u hu => absurd hu (Nat.not_lt_zero u)⟩

theorem afterBarrier_ok (hk : k ≤ maxLoop) (hin : g.threads t = true ↔ k < maxLoop) :
    ThreadOk maxLoop t g ⟨k, afterBarrier turn⟩ := by
  unfold afterBarrier
  split
  · exact ⟨hk, hin, fun u hu => absurd hu (Nat.not_lt_zero u)⟩
  · exact ⟨hk, hin⟩

theorem card_live_succ (k : ℕ) : ((Finset.range (k + 1)).filter fun u => g.threads u = true).card =
    if g.threads k = true then ((Finset.range k).filter fun u => g.threads u = true).card + 1
    else ((Finset.range k).filter fun u => g.threads u = true).card := by
  rw [Finset.range_add_one, Finset.filter_insert]
  split
  · rw [Finset.card_insert_of_notMem]
    simp
  · rfl

theorem threadOk_of_act (h : ThreadOk maxLoop t g th) (hstop : g.begin ≤ g.stop ∧ g.stop ≤ slots)
    (ho : act maxLoop t g mem th = some o) : ThreadOk maxLoop t (o.effect.onGroup t g) o.thread := by
  obtain ⟨hi, hok⟩ := h
  cases hpc : th.pc <;> rw [hpc] at hok <;> simp only [act, hpc, Option.some.injEq, reduceCtorEq] at ho
  case loop =>
    split at ho
    · rename_i hlt
      split at ho
      · cases ho
        exact ⟨hi, hok.mpr hlt, hlt⟩
      · split at ho
        · rename_i hneg
          cases ho
          exact ⟨hi, ⟨hok.mpr hlt, hlt⟩, fun u hu => absurd hu (Nat.not_lt_zero u), hneg⟩
        · cases ho
          exact ⟨hi, hok⟩
    · rename_i hge
      cases ho
      refine ⟨hi, Nat.le_antisymm hi (Nat.not_lt.mp hge), ?_⟩
      cases hth : g.threads t with
      | false => exact hth
      | true => exact absurd (hok.mp hth) hge
  case groupLeader owner n =>
    obtain ⟨hin, hscan, hneg⟩ := hok
    split at ho
    · split at ho
      · cases ho
        exact ⟨hi, hin⟩
      · rename_i hset
        cases ho
        refine ⟨hi, hin, fun u hu => ?_, hneg⟩
        rcases Nat.lt_succ_iff_lt_or_eq.mp hu with hu | rfl
        · exact hscan u hu
        · exact Bool.eq_false_iff.mpr hset
    · cases ho
      exact ⟨hi, hin⟩
  case readRound owner isLeader =>
    cases ho
    exact ⟨hi, hok.1, fun _ => hok.2⟩
  case execute turn k pc =>
    cases pc with
    | read1 =>
      simp only at ho
      split at ho
      · rename_i hgo
        cases ho
        exact ⟨hi, hok.1, fun _ => hgo.2⟩
      · split at ho
        · rename_i hend
          cases ho
          exact ⟨hi, hok.1, hend⟩
        · rename_i hend
          cases ho
          exact scheduleNext_ok hi (iff_of_true hok.1 (by omega))
    | read2 num =>
      cases ho
      exact ⟨hi, hok.1, fun _ => hok.2 (by simp)⟩
    | write index2 num =>
      cases ho
      exact ⟨Nat.succ_le_of_lt (hok.2 (by simp)), hok.1, fun hne => absurd rfl hne⟩
  case removeMe turn =>
    cases ho
    refine scheduleNext_ok hi ?_
    simp only [Effect.onGroup, Function.update_self, Bool.false_eq_true, false_iff]
    omega
  case addOwner turn =>
    cases ho
    exact ⟨hi, hok⟩
  case spinOwner turn =>
    split at ho <;> cases ho
    · exact ⟨hi, hok⟩
    · exact afterBarrier_ok hi hok.1
  case spinRound turn =>
    split at ho <;> cases ho
    · exact ⟨hi, hok⟩
    · exact afterBarrier_ok hi hok.1
  case pickScan turn n =>
    obtain ⟨hin, hscan⟩ := hok
    split at ho
    · rename_i hn
      split at ho
      · rename_i hset
        cases ho
        refine ⟨hi, hin, ⟨n, hn, hset⟩, ?_⟩
        have hmod : mem.sig t % (g.stop - g.begin + 1) < g.stop - g.begin + 1 := Nat.mod_lt _ (Nat.succ_pos _)
        show _ < slots ∨ _ = g.stop
        omega
      · rename_i hset
        cases ho
        refine ⟨hi, hin, fun u hu => ?_⟩
        rcases Nat.lt_succ_iff_lt_or_eq.mp hu with hu | rfl
        · exact hscan u hu
        · exact Bool.eq_false_iff.mpr hset
    · rename_i hn
      cases ho
      exact ⟨hi, hin, Or.inr (Or.inr ⟨fun u hu => hscan u (by omega), rfl⟩)⟩
  case pickFind turn n =>
    obtain ⟨hin, hsome, hn⟩ := hok
    split at ho
    · cases ho
      exact ⟨hi, hin, hsome, Nat.zero_le _, rfl⟩
    · rename_i hne
      split at ho
      · rename_i hset
        cases ho
        exact ⟨hi, hin, Or.inl ⟨n, hn.resolve_right hne, hset, rfl⟩⟩
      · cases ho
        exact ⟨hi, hin, hsome, Or.inl (Nat.mod_lt _ (by decide))⟩
  case pickSize turn k n =>
    obtain ⟨hin, hsome, hk, rfl⟩ := hok
    split at ho
    · rename_i hlt
      cases ho
      refine ⟨hi, hin, hsome, hlt, ?_⟩
      show _ = ((Finset.range (k + 1)).filter fun u => g.threads u = true).card
      rw [card_live_succ]
    · rename_i hge
      obtain rfl : k = slots := Nat.le_antisymm hk (Nat.not_lt.mp hge)
      cases ho
      exact ⟨hi, hin, Or.inr (Or.inl ⟨hsome, rfl⟩)⟩
  case setOwner turn v =>
    cases ho
    exact ⟨hi, hok.1⟩
  case getRound turn =>
    cases ho
    exact ⟨hi, hok⟩
  case setRound turn r =>
    cases ho
    exact ⟨hi, hok⟩
  case wake turn =>
    cases ho
    refine ThreadOk.congr (c := ⟨0, maxLoop⟩) (g := g) ⟨hi, hok⟩ ?_ ?_ <;> split <;> rfl
  case waitRound r =>
    split at ho <;> cases ho <;> exact ⟨hi, hok⟩
  case waitOwner e =>
    split at ho <;> cases ho <;> exact ⟨hi, hok⟩
  case muck =>
    cases ho
    exact ⟨hi, hok⟩

theorem threadOk_onPc {e : Effect} (h : ThreadOk maxLoop t g th) : ThreadOk maxLoop t g ⟨th.i, e.onPc th.pc⟩ := by
  have hsame : e.onPc th.pc = th.pc ∨ ((∃ r, th.pc = .sleepRound r) ∧ e.onPc th.pc = .loop) ∨
      ((∃ r, th.pc = .sleepOwner r) ∧ e.onPc th.pc = .muck) := by
    cases e <;> cases th.pc <;> simp [Effect.onPc]
  rcases hsame with heq | ⟨⟨r, hpc⟩, heq⟩ | ⟨⟨r, hpc⟩, heq⟩
  · rw [heq]
    exact h
  · rw [ThreadOk, hpc] at h
    rw [heq]
    exact h
  · rw [ThreadOk, hpc] at h
    rw [heq]
    exact h

/-- Only a thread that is about to remove itself does so, and only one that is about to add itself to `owner`. -/
theorem pc_of_effect (ho : act maxLoop t g mem th = some o) : (o.effect = .removeMe → ∃ turn, th.pc = .removeMe turn) ∧
    (o.effect = .addOwner → ∃ turn, th.pc = .addOwner turn) := by
  cases hpc : th.pc <;> simp only [act, hpc, Option.some.injEq, reduceCtorEq] at ho
  case removeMe turn =>
    cases ho
    exact ⟨fun _ => ⟨turn, rfl⟩, fun he => by cases he⟩
  case addOwner turn =>
    cases ho
    exact ⟨fun he => (by cases he), fun _ => ⟨turn, rfl⟩⟩
  case execute turn k pc =>
    cases pc <;> simp only at ho <;> (repeat' split at ho) <;> cases ho <;> exact ⟨fun he => (by cases he), fun he => by cases he⟩
  case wake turn =>
    cases ho
    constructor <;> intro he <;> simp only at he <;> split at he <;> cases he
  all_goals
    (repeat' split at ho) <;> cases ho <;> exact ⟨fun he => (by cases he), fun he => by cases he⟩

end ThreadOk

/-! ### The invariant of the program -/

theorem step_eq_some : step c t s = some s' ↔ (1 ≤ t ∧ t ≤ c.numProcs) ∧
    ∃ o, act c.maxLoop t (s.group (findGroup c.numProcs nfutex t)) s.mem (s.thread t) = some o ∧
      s' = s.after c t (findGroup c.numProcs nfutex t) o := by
  unfold step
  split
  · rename_i h
    simp only [h, and_self, true_and, Option.map_eq_some_iff]
    constructor
    · rintro ⟨o, ho, rfl⟩
      exact ⟨o, ho, rfl⟩
    · rintro ⟨o, ho, rfl⟩
      exact ⟨o, ho, rfl⟩
  · rename_i h
    simp [h]

namespace Good

/-- Nobody is picking the next owner while a member removes itself. -/
theorem not_picks (h : Good c i s logs) (ht : Member c i t) (hu : Member c i u) (hut : u ≠ t) {turn : Turn}
    (hpc : (s.thread t).pc = .removeMe turn) : (s.thread u).pc.picks = false := by
  have hrt : (view c i s logs).role t = (Pc.removeMe turn).role := hpc ▸ view_role ht
  cases hp : (s.thread u).pc.picks with
  | false => rfl
  | true =>
    have hsched : (view c i s logs).role u = .own ∨ (view c i s logs).role u = .lead := by
      rw [view_role hu]
      exact role_of_picks hp
    obtain ⟨hown, -, hwork, -⟩ := h.inv.alone hsched (Ne.symm hut)
    rw [hrt] at hown hwork
    simp only [Pc.role] at hown hwork
    split at hown
    · rename_i hneg
      exact absurd (if_pos hneg) (hwork _ _)
    · exact absurd rfl hown

theorem step (h : Good c i s logs) (ht : Member c i t) (hlt : t < slots)
    (ho : act c.maxLoop t (s.group i) s.mem (s.thread t) = some o) (hround : RoundSettled c t s)
    (hleader : LeaderPresent c t s) : Good c i (s.after c t i o)
      (Function.update logs i (record c.maxLoop t (s.group i) (s.thread t) (logs i))) where
  inv := h.inv.move (h.move_of_act ht hlt ho hround hleader)
  stop := by
    simp only [State.after, Function.update_self]
    cases o.effect <;> exact h.stop
  members := fun u hu => by
    simp only [State.after, Function.update_self] at hu
    refine h.members u ?_
    cases he : o.effect <;> rw [he] at hu
    case removeMe =>
      simp only [Effect.onGroup] at hu
      by_cases hut : u = t
      · rw [hut, Function.update_self] at hu
        cases hu
      · rwa [Function.update_of_ne hut] at hu
    all_goals exact hu
  thread := fun u hu => by
    by_cases hut : u = t
    · subst hut
      simp only [State.after, Function.update_self, if_true]
      exact threadOk_of_act (h.thread u hu) h.stop ho
    · simp only [State.after, Function.update_self, if_neg hut, if_pos hu]
      refine threadOk_onPc ?_
      cases he : o.effect
      case removeMe =>
        obtain ⟨turn, hpc⟩ := (pc_of_effect ho).1 he
        exact (h.thread u hu).remove hut (h.not_picks ht hu hut hpc)
      all_goals exact (h.thread u hu).congr rfl rfl

theorem step_other {k : ℕ} (h : Good c k s logs) (hk : k ≠ i) (ht : Member c i t) (l : Log) :
    Good c k (s.after c t i o) (Function.update logs i l) := by
  have hgroup : (s.after c t i o).group k = s.group k := Function.update_of_ne hk _ _
  refine ⟨by rw [view_other hk ht]; exact h.inv, by rw [hgroup]; exact h.stop, by rw [hgroup]; exact h.members,
    fun u hu => ?_⟩
  have hne : u ≠ t := by
    rintro rfl
    exact hk (hu.2.2.symm.trans ht.2.2)
  have hni : ¬ Member c i u := fun hm => hk (hu.2.2.symm.trans hm.2.2)
  rw [hgroup]
  simp only [State.after, if_neg hne, if_neg hni]
  exact h.thread u hu

end Good

theorem good_start (hc : c.Accepted) (hplaced : Placed c) (hi : i < nfutex) :
    Good c i (start c) (observer c).start := by
  have hmember : ∀ u, (groups c.numProcs nfutex i).threads u = true → Member c i u := by
    intro u hu
    have hrange := groups_threads.mp hu
    have hpos : 0 < groupStart c.numProcs nfutex i := groupStart_pos
    have hle : groupStart c.numProcs nfutex (i + 1) ≤ c.numProcs + 1 := groupStart_le
    exact ⟨by omega, by omega, findGroup_eq hi hu⟩
  refine ⟨inv_opened rfl rfl rfl (fun u => ?_) (groups_owner_eq_card hc.numProcs_le) fun u hu => ?_, ?_, hmember,
    fun u hu => ⟨Nat.zero_le _, iff_of_true ?_ hc.maxLoop_pos⟩⟩
  · simp only [view, roleIn]
    split <;> rfl
  · exact (hmember u (mem_live.mp hu).2).1
  · simp only [start, groups_begin, groups_stop]
    have hle : groupStart c.numProcs nfutex (i + 1) ≤ c.numProcs + 1 := groupStart_le
    have := hc.numProcs_le
    exact ⟨groupStart_mono (Nat.le_succ i), by simp only [slots]; omega⟩
  · have := hplaced u hu.1 hu.2.1
    rwa [hu.2.2] at this

theorem good_of_reach (hc : c.Accepted) (hplaced : Placed c) {p : State × (ℕ → Log)}
    (h : ((machine c).watch (observer c)).Reach (fun t p => Settled c t p.1) p) : ∀ i < nfutex, Good c i p.1 p.2 := by
  refine h.invariant (I := fun p => ∀ i < nfutex, Good c i p.1 p.2) (fun i hi => good_start hc hplaced hi) ?_
  rintro t ⟨s, logs⟩ ⟨s', logs'⟩ hgood hok hs i hi
  obtain ⟨hs, hlogs⟩ := Machine.watch_step_eq_some.mp hs
  simp only at hs hlogs hgood hok
  obtain ⟨⟨h1, hn⟩, o, ho, rfl⟩ := step_eq_some.mp hs
  subst hlogs
  have hmem : Member c (findGroup c.numProcs nfutex t) t := ⟨h1, hn, rfl⟩
  by_cases hk : i = findGroup c.numProcs nfutex t
  · subst hk
    exact (hgood _ hi).step hmem (lt_slots hc hn) ho hok.1 hok.2
  · exact (hgood i hi).step_other hk hmem _

/-! ### What sleepers can count on -/

theorem pc_of_wake {pc : Pc} (h : pc.role = .wake true) : ∃ turn, pc = .wake turn ∧ turn.owner < 0 := by
  cases pc <;> simp only [Pc.role] at h <;> (try split at h) <;> try cases h
  case wake turn =>
    simp only [Role.wake.injEq, decide_eq_true_eq] at h
    exact ⟨turn, rfl, h⟩

theorem pc_of_rest {r : ℤ} (h : roleIn c i s.thread u = .rest true r) : Member c i u ∧ (s.thread u).pc = .sleepRound r := by
  unfold roleIn at h
  split at h
  · rename_i hu
    refine ⟨hu, ?_⟩
    cases hpc : (s.thread u).pc <;> rw [hpc] at h <;> simp only [Pc.role] at h <;> (try split at h) <;> cases h
    rfl
  · cases h

/-- What sleepers can count on, in a run in which wake-ups find nobody who waits for the current round. -/
theorem sleep_of_reach (hc : c.Accepted) (hplaced : Placed c) {p : State × (ℕ → Log)}
    (h : ((machine c).watch (observer c)).Reach (fun t p => Settled c t p.1 ∧ WakesPast c t p.1) p) :
    ∀ i < nfutex, Sleep (view c i p.1 p.2) := by
  induction h with
  | init =>
    refine fun i _ => sleep_opened rfl fun u => ?_
    simp only [view, roleIn]
    split <;> rfl
  | @step p q t hr hok hs ih =>
    intro i hi
    have hg := good_of_reach hc hplaced (hr.mono fun _ _ h => h.1) i hi
    obtain ⟨⟨hround, hleader⟩, hwake⟩ := hok
    obtain ⟨s, logs⟩ := p
    obtain ⟨s', logs'⟩ := q
    obtain ⟨hs, hlogs⟩ := Machine.watch_step_eq_some.mp hs
    simp only at hs hlogs hround hleader hwake hg
    obtain ⟨⟨h1, hn⟩, o, ho, rfl⟩ := step_eq_some.mp hs
    subst hlogs
    have hmem : Member c (findGroup c.numProcs nfutex t) t := ⟨h1, hn, rfl⟩
    by_cases hk : i = findGroup c.numProcs nfutex t
    · subst hk
      refine (ih _ hi).move hg.inv (hg.move_of_act hmem (lt_slots hc hn) ho hround hleader) ?_
      intro hrole u r hru hr
      rw [view_role hmem] at hrole
      obtain ⟨turn, hpc, hneg⟩ := pc_of_wake hrole
      obtain ⟨hu, hpu⟩ := pc_of_rest hru
      unfold WakesPast at hwake
      rw [hpc] at hwake
      exact hwake hneg u hu.2.1 hu (hpu.trans (congrArg Pc.sleepRound hr))
    · have hview : view c i (s.after c t (findGroup c.numProcs nfutex t) o) ((observer c).note t s logs) =
          view c i s logs := view_other hk hmem _
      rw [hview]
      exact ih i hi

end Racey.Futex
