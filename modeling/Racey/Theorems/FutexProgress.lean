import Mathlib.Algebra.Order.BigOperators.Group.Finset
import Mathlib.Data.Prod.Lex
import Mathlib.Order.WellFounded
import Racey.Lib.Fair
import Racey.Theorems.Futex

/-! What is left to do in a round of racey-futex. While a round lasts, every step of a member brings it closer to its end,
    except for the passes of the spin loop in a barrier that is not full; and as long as anybody is left, some member can
    take another step than these. -/

namespace Racey.Futex
open Turns

variable {c : Config} {s : State} {logs : ℕ → Log} {i t u n maxLoop : ℕ} {g g' : FutexGroup} {th : Thread} {mem : Memory}
  {o : Outcome} {v : ℤ}

/-! ### What is left to do for a thread -/

/-- How far a thread is from its wake-up, after its store to `owner`. -/
def Pc.closing : Pc → ℕ
  | .getRound _ => 3
  | .setRound _ _ => 2
  | .wake _ => 1
  | _ => 0

/-- The passes of a thread that spins while its barrier is not full and `round` has not moved. -/
def Pc.Spins (g : FutexGroup) : Pc → Prop
  | .spinOwner turn | .spinRound turn => g.owner ≠ 0 ∧ turn.oldRound = g.round
  | _ => False

def FutexGroup.first (g : FutexGroup) : ℕ := ((List.range slots).find? g.threads).getD 0

/-- How many entries a scan that is at `n` has before it to the first member. -/
def FutexGroup.ahead (g : FutexGroup) (n : ℕ) : ℕ := (g.first + slots - n) % slots

/-- How far a thread is from the store to `owner`, or from sleep, in a round that was opened with `v`: from the bottom up
    those who wait, who schedule, who are at the barrier, who execute, and those who have not come to the round yet. -/
def Thread.rank (maxLoop : ℕ) (v : ℤ) (g : FutexGroup) (th : Thread) : ℕ :=
  let batches := 3 * (maxLoop - th.i)
  match th.pc with
  | .done | .sleepOwner _ | .sleepRound _ | .getRound _ | .setRound _ _ | .wake _ => 0
  | .setOwner _ _ => 2
  | .pickSize _ k _ => 3 + (slots - k)
  | .pickFind _ n => 37 + g.ahead n
  | .pickScan _ n => 70 + (slots - n)
  | .spinOwner turn => if turn.oldRound = g.round then (if g.owner = 0 then 104 else 105) else 150 + batches
  | .spinRound turn => if turn.oldRound = g.round then 105 else 149 + batches
  | .addOwner _ => 106
  | .removeMe _ => 107
  | .execute _ _ .read1 => 108 + batches
  | .execute _ _ (.read2 _) => 107 + batches
  | .execute _ _ (.write _ _) => 106 + batches
  | .readRound _ _ => 109 + batches
  | .groupLeader _ n => 110 + batches + (slots - n)
  | .loop => 144 + batches
  | .muck => 145 + batches
  | .waitRound r => if r = g.round then 1 else 146 + batches
  | .waitOwner e => if e = v then 1 else 146 + batches

theorem first_spec (h : ∃ u < slots, g.threads u = true) : g.first < slots ∧ g.threads g.first = true := by
  obtain ⟨u, hu, hon⟩ := h
  have hsome : ((List.range slots).find? g.threads).isSome = true :=
    List.find?_isSome.mpr ⟨u, List.mem_range.mpr hu, hon⟩
  obtain ⟨m, hm⟩ := Option.isSome_iff_exists.mp hsome
  rw [FutexGroup.first, hm, Option.getD_some]
  exact ⟨List.mem_range.mp (List.mem_of_find?_eq_some hm), List.find?_some hm⟩

theorem ahead_lt (n : ℕ) : g.ahead n < slots := Nat.mod_lt _ (by decide)

/-- A pass of the scan brings it closer to the first member. -/
theorem ahead_pass (h : ∃ u < slots, g.threads u = true) (hn : n < slots) (hoff : g.threads n = false) :
    g.ahead ((n + 1) % slots) < g.ahead n := by
  obtain ⟨hlt, hon⟩ := first_spec h
  have hne : n ≠ g.first := by
    rintro rfl
    rw [hon] at hoff
    cases hoff
  simp only [FutexGroup.ahead, slots] at hn hlt ⊢
  omega

/-- What the others do to the group, as long as `round` stays, brings nobody further away. -/
theorem rank_le (hround : g'.round = g.round) (howner : g.owner = 0 → g'.owner = 0)
    (hpick : th.pc.picks = true → g'.threads = g.threads) : th.rank maxLoop v g' ≤ th.rank maxLoop v g := by
  unfold Thread.rank
  cases hpc : th.pc with
  | spinOwner turn =>
    simp only [hround]
    split
    · by_cases hzero : g.owner = 0
      · rw [if_pos hzero, if_pos (howner hzero)]
      · rw [if_neg hzero]
        split <;> omega
    · exact le_rfl
  | pickFind turn n =>
    have hthreads := hpick (by rw [hpc]; rfl)
    have hfirst : g'.first = g.first := by rw [FutexGroup.first, hthreads, FutexGroup.first]
    have hahead : g'.ahead n = g.ahead n := by rw [FutexGroup.ahead, hfirst, FutexGroup.ahead]
    simp only [hahead, le_refl]
  | execute turn k q => cases q <;> exact le_rfl
  | _ => simp only [hround, le_refl]

/-! ### One step -/

/-- The effects of a step before the store to `owner`. -/
def Effect.Early : Effect → Prop
  | none | removeMe | addOwner => True
  | _ => False

theorem act_eq_none_iff : act maxLoop t g mem th = none ↔ th.pc = .done ∨ th.pc.asleep = true := by
  cases hpc : th.pc <;> simp only [act, hpc, Pc.asleep, reduceCtorEq, or_true, or_false, iff_false]
  case execute turn k q => cases q <;> simp only <;> (repeat' split) <;> exact Option.some_ne_none _
  all_goals (repeat' split) <;> simp

theorem closing_lt_of_act (ho : act maxLoop t g mem th = some o) (h : th.pc.closing ≠ 0) :
    o.thread.pc.closing < th.pc.closing := by
  cases hpc : th.pc <;> rw [hpc] at h <;> simp only [act, hpc, Option.some.injEq] at ho
  case getRound turn =>
    cases ho
    exact Nat.lt_succ_self 2
  case setRound turn r =>
    cases ho
    exact Nat.lt_succ_self 1
  case wake turn =>
    cases ho
    exact Nat.zero_lt_one
  all_goals exact absurd rfl h

theorem spins_of_act (ho : act maxLoop t g mem th = some o) (h : th.pc.Spins g) :
    o.thread.i = th.i ∧ o.thread.pc.Spins g ∧ o.effect = .none := by
  cases hpc : th.pc <;> rw [hpc] at h <;> simp only [act, hpc] at ho
  case spinOwner turn =>
    rw [if_pos h.1] at ho
    cases ho
    exact ⟨rfl, h, rfl⟩
  case spinRound turn =>
    rw [if_pos h.2.symm] at ho
    cases ho
    exact ⟨rfl, h, rfl⟩
  all_goals exact absurd h not_false

theorem closing_of_spins {pc : Pc} (h : pc.Spins g) : pc.closing = 0 := by
  cases pc with
  | spinOwner turn => rfl
  | spinRound turn => rfl
  | _ => exact absurd h not_false

theorem rank_of_spins (h : th.pc.Spins g) : th.rank maxLoop v g = 105 := by
  unfold Thread.rank
  cases hpc : th.pc <;> rw [hpc] at h
  case spinOwner turn => simp only [if_pos h.2, if_neg h.1]
  case spinRound turn => simp only [if_pos h.2]
  all_goals exact absurd h not_false

/-- Whoever waits for a turn by the number of a member waits for the current round's, or it is not that any more. -/
theorem owner_eq_iff {V : View} {e : ℤ} (hi : Inv V) (he : 0 < e) : V.owner = e ↔ e = V.cur.value := by
  constructor
  · rintro rfl
    exact (hi.value_eq he).symm
  · rintro rfl
    exact (hi.owner.single he).1

theorem scheduleNext_rank_lt (k : ℕ) (turn : Turn) : Thread.rank maxLoop v g ⟨k, scheduleNext turn⟩ < 107 := by
  unfold scheduleNext
  split
  · exact Nat.lt_succ_self 106
  · show 70 + (slots - 0) < 107
    decide

/-- Whoever leaves the barrier picks the next owner, or waits for a `round` that has moved on, or sleeps soon. -/
theorem afterBarrier_rank_le (k : ℕ) (turn : Turn) : Thread.rank maxLoop v g ⟨k, afterBarrier turn⟩ ≤
    if turn.oldRound = g.round then 103 else 146 + 3 * (maxLoop - k) := by
  unfold afterBarrier
  split
  · show 70 + (slots - 0) ≤ _
    unfold slots
    split <;> omega
  · show (if turn.oldRound = g.round then 1 else 146 + 3 * (maxLoop - k)) ≤ _
    split <;> omega

/-- Step `o` of a thread brings it closer to the end of the round, and is none after the store to `owner`. -/
structure Lowers (maxLoop t : ℕ) (v : ℤ) (g : FutexGroup) (th : Thread) (o : Outcome) : Prop where
  closing : o.thread.pc.closing = 0
  early : o.effect.Early
  rank : o.thread.rank maxLoop v (o.effect.onGroup t g) < th.rank maxLoop v g

theorem Lowers.goto {k : ℕ} {pc : Pc} (hclosing : pc.closing = 0)
    (h : Thread.rank maxLoop v g ⟨k, pc⟩ < th.rank maxLoop v g) : Lowers maxLoop t v g th ⟨⟨k, pc⟩, mem, .none⟩ :=
  ⟨hclosing, trivial, h⟩

theorem scheduleNext_closing (turn : Turn) : (scheduleNext turn).closing = 0 := by
  unfold scheduleNext
  split <;> rfl

theorem afterBarrier_closing (turn : Turn) : (afterBarrier turn).closing = 0 := by
  unfold afterBarrier
  split <;> rfl

/-- A pass of `mix` is three steps, and uses up one iteration. -/
theorem lowers_of_execute {k : ℕ} {turn : Turn} {pc : MixPc} (hk : pc ≠ .read1 → k < maxLoop)
    (ho : act maxLoop t g mem ⟨k, .execute turn n pc⟩ = some o) :
    Lowers maxLoop t v g ⟨k, .execute turn n pc⟩ o := by
  cases pc with
  | read1 =>
    simp only [act] at ho
    split at ho
    · cases ho
      refine .goto rfl ?_
      simp only [Thread.rank, MixPc.step]
      omega
    · split at ho
      · cases ho
        refine .goto rfl ?_
        simp only [Thread.rank]
        omega
      · cases ho
        refine .goto (scheduleNext_closing turn) ((scheduleNext_rank_lt k turn).trans ?_)
        simp only [Thread.rank]
        omega
  | read2 num =>
    cases ho
    refine .goto rfl ?_
    simp only [Thread.rank, MixPc.step]
    omega
  | write index2 num =>
    cases ho
    have hlt : k < maxLoop := hk (by simp)
    refine .goto rfl ?_
    simp only [Thread.rank]
    omega

theorem lowers_of_spinOwner {k : ℕ} {turn : Turn} (hspins : ¬ (Pc.spinOwner turn).Spins g)
    (ho : act maxLoop t g mem ⟨k, .spinOwner turn⟩ = some o) : Lowers maxLoop t v g ⟨k, .spinOwner turn⟩ o := by
  simp only [act] at ho
  split at ho
  · -- The barrier is not full, so `round` has moved on.
    rename_i howner
    cases ho
    have hround : turn.oldRound ≠ g.round := fun heq => hspins ⟨howner, heq⟩
    refine .goto rfl ?_
    simp only [Thread.rank, if_neg hround]
    omega
  · rename_i howner
    cases ho
    refine .goto (afterBarrier_closing turn) ((afterBarrier_rank_le k turn).trans_lt ?_)
    simp only [Thread.rank, if_pos (not_not.mp howner)]
    split <;> omega

theorem lowers_of_spinRound {k : ℕ} {turn : Turn} (hspins : ¬ (Pc.spinRound turn).Spins g)
    (ho : act maxLoop t g mem ⟨k, .spinRound turn⟩ = some o) : Lowers maxLoop t v g ⟨k, .spinRound turn⟩ o := by
  simp only [act] at ho
  split at ho
  · -- `round` has not moved on, so the barrier is full.
    rename_i hround
    cases ho
    have howner : g.owner = 0 := by
      by_contra hne
      exact hspins ⟨hne, hround.symm⟩
    refine .goto rfl ?_
    simp only [Thread.rank, if_pos hround.symm, if_pos howner]
    omega
  · rename_i hround
    cases ho
    refine .goto (afterBarrier_closing turn) ((afterBarrier_rank_le k turn).trans_lt ?_)
    simp only [Thread.rank, if_neg (Ne.symm hround)]
    omega

theorem lowers_of_pickScan {k : ℕ} {turn : Turn} (ho : act maxLoop t g mem ⟨k, .pickScan turn n⟩ = some o) :
    Lowers maxLoop t v g ⟨k, .pickScan turn n⟩ o := by
  simp only [act] at ho
  split at ho
  · split at ho
    · cases ho
      refine .goto rfl ?_
      have hahead := ahead_lt (g := g) (mem.sig t % (g.stop - g.begin + 1) + g.begin)
      simp only [Thread.rank, slots] at hahead ⊢
      omega
    · cases ho
      refine .goto rfl ?_
      simp only [Thread.rank]
      omega
  · cases ho
    refine .goto rfl ?_
    simp only [Thread.rank]
    omega

/-- The scan for the next owner wraps around, so that every pass brings it closer to the first member. -/
theorem lowers_of_pickFind {k : ℕ} {turn : Turn} (hsome : ∃ u < slots, g.threads u = true) (hn : n < slots ∨ n = g.stop)
    (ho : act maxLoop t g mem ⟨k, .pickFind turn n⟩ = some o) : Lowers maxLoop t v g ⟨k, .pickFind turn n⟩ o := by
  simp only [act] at ho
  split at ho
  · cases ho
    refine .goto rfl ?_
    simp only [Thread.rank, slots]
    omega
  · rename_i hne
    split at ho
    · cases ho
      refine .goto rfl ?_
      simp only [Thread.rank]
      omega
    · rename_i hoff
      cases ho
      have hahead := ahead_pass hsome (hn.resolve_right hne) (Bool.eq_false_iff.mpr hoff)
      refine .goto rfl ?_
      simp only [Thread.rank]
      exact Nat.add_lt_add_left hahead 37

/-- Whatever a member does that neither comes after a store to `owner`, nor is one, nor is a pass of the spin loop, brings
    the round closer to its end. -/
theorem lowers_of_act (hg : Good c i s logs) (hsl : Sleep (view c i s logs)) (ht : Member c i t)
    (hlt : t < slots) (ho : act c.maxLoop t (s.group i) s.mem (s.thread t) = some o) (hclosing : (s.thread t).pc.closing = 0)
    (hset : ∀ turn v, (s.thread t).pc ≠ .setOwner turn v) (hspins : ¬ (s.thread t).pc.Spins (s.group i)) :
    Lowers c.maxLoop t (logs i).cur.value (s.group i) (s.thread t) o := by
  obtain ⟨hle, hok⟩ := hg.thread t ht
  have hrole : (view c i s logs).role t = (s.thread t).pc.role := view_role ht
  have hinv := hg.inv.role t
  have hsleep := hsl.ok t
  rw [hrole] at hinv hsleep
  generalize s.thread t = th at *
  obtain ⟨k, pc⟩ := th
  cases pc <;> simp only [act, Option.some.injEq, reduceCtorEq] at ho hok hle hclosing hset hspins
  case loop =>
    split at ho
    · rename_i hk
      split at ho
      · cases ho
        refine .goto rfl ?_
        simp only [Thread.rank]
        omega
      · rename_i hne
        split at ho
        · cases ho
          refine .goto rfl ?_
          simp only [Thread.rank, slots]
          omega
        · rename_i hneg
          cases ho
          -- The number in `owner` is that of the current round.
          have hlive : t ∈ (view c i s logs).live := mem_live.mpr ⟨hlt, hok.mpr hk⟩
          have hpos : 0 < (s.group i).owner := hsl.owner_pos hg.inv hrole hlive (Int.not_lt.mp hneg)
          have hv : (s.group i).owner = (logs i).cur.value := (owner_eq_iff hg.inv hpos).mp rfl
          refine .goto rfl ?_
          simp only [Thread.rank, if_pos hv]
          omega
    · cases ho
      refine .goto rfl ?_
      simp only [Thread.rank]
      omega
  case groupLeader owner n =>
    split at ho
    · split at ho
      · cases ho
        refine .goto rfl ?_
        simp only [Thread.rank]
        omega
      · cases ho
        refine .goto rfl ?_
        simp only [Thread.rank]
        omega
    · cases ho
      refine .goto rfl ?_
      simp only [Thread.rank]
      omega
  case readRound owner isLeader =>
    cases ho
    refine .goto rfl ?_
    simp only [Thread.rank]
    omega
  case execute turn n pc => exact lowers_of_execute (fun hpc => hok.2 (by simpa using hpc)) ho
  case removeMe turn =>
    cases ho
    exact ⟨scheduleNext_closing turn, trivial, scheduleNext_rank_lt k turn⟩
  case addOwner turn =>
    cases ho
    have hround : turn.oldRound = (s.group i).round := hinv.2.2.2.1
    refine ⟨rfl, trivial, ?_⟩
    show (if turn.oldRound = (s.group i).round then (if (s.group i).owner + 1 = 0 then 104 else 105)
      else 150 + 3 * (c.maxLoop - k)) < 106
    rw [if_pos hround]
    split <;> omega
  case spinOwner turn => exact lowers_of_spinOwner hspins ho
  case spinRound turn => exact lowers_of_spinRound hspins ho
  case pickScan turn n => exact lowers_of_pickScan ho
  case pickFind turn n => exact lowers_of_pickFind hok.2.1 hok.2.2 ho
  case pickSize turn m n =>
    split at ho
    · cases ho
      refine .goto rfl ?_
      simp only [Thread.rank]
      omega
    · cases ho
      refine .goto rfl ?_
      simp only [Thread.rank]
      omega
  case setOwner turn v => exact absurd rfl (hset turn v)
  case getRound => cases hclosing
  case setRound => cases hclosing
  case wake => cases hclosing
  case waitRound r =>
    split at ho
    · rename_i hround
      cases ho
      refine .goto rfl ?_
      simp only [Thread.rank, if_pos hround.symm]
      omega
    · rename_i hround
      cases ho
      refine .goto rfl ?_
      simp only [Thread.rank, if_neg (Ne.symm hround)]
      omega
  case waitOwner e =>
    have hiff : (s.group i).owner = e ↔ e = (logs i).cur.value := owner_eq_iff hg.inv hsleep.1
    split at ho
    · rename_i howner
      cases ho
      refine .goto rfl ?_
      simp only [Thread.rank, if_pos (hiff.mp howner)]
      omega
    · rename_i howner
      cases ho
      refine .goto rfl ?_
      simp only [Thread.rank, if_neg (hiff.not.mp howner)]
      omega
  case muck =>
    cases ho
    refine .goto rfl ?_
    simp only [Thread.rank]
    omega

/-! ### What is left to do for a group -/

def members (c : Config) (i : ℕ) : Finset ℕ := (Finset.range (c.numProcs + 1)).filter (Member c i)

theorem mem_members : u ∈ members c i ↔ Member c i u := by
  rw [members, Finset.mem_filter, Finset.mem_range, and_iff_right_iff_imp]
  exact fun h => Nat.lt_succ_of_le h.2.1

/-- What is left to do in a round that was opened with `v`: the wake-ups come first, since each of them, and each store to
    `round`, may bring others back to where they started. -/
def State.todo (c : Config) (i : ℕ) (v : ℤ) (s : State) : ℕ ×ₗ ℕ :=
  toLex (∑ u ∈ members c i, (s.thread u).pc.closing, ∑ u ∈ members c i, (s.thread u).rank c.maxLoop v (s.group i))

theorem closing_onPc (e : Effect) (pc : Pc) : (e.onPc pc).closing = pc.closing := by
  cases e <;> cases pc <;> rfl

theorem after_thread_self : (s.after c t i o).thread t = o.thread := if_pos rfl

theorem after_closing (hu : u ≠ t) : ((s.after c t i o).thread u).pc.closing = (s.thread u).pc.closing := by
  simp only [State.after, if_neg hu]
  split
  · exact closing_onPc _ _
  · rfl

theorem after_group : (s.after c t i o).group i = o.effect.onGroup t (s.group i) := Function.update_self _ _ _

theorem after_thread_early (he : o.effect.Early) (hu : u ≠ t) : (s.after c t i o).thread u = s.thread u := by
  have honPc : o.effect.onPc (s.thread u).pc = (s.thread u).pc := by
    cases heff : o.effect <;> rw [heff] at he <;> first | rfl | exact absurd he not_false
  simp only [State.after, if_neg hu, honPc, ite_self]

/-- A step of a member that comes before the store to `owner` brings nobody else further away from it. -/
theorem rank_others (hg : Good c i s logs) (ht : Member c i t) (hu : Member c i u) (hut : u ≠ t)
    (ho : act c.maxLoop t (s.group i) s.mem (s.thread t) = some o) (he : o.effect.Early) :
    ((s.after c t i o).thread u).rank c.maxLoop v ((s.after c t i o).group i) ≤
      (s.thread u).rank c.maxLoop v (s.group i) := by
  rw [after_thread_early he hut, after_group]
  cases heff : o.effect <;> rw [heff] at he
  case none => exact le_rfl
  case removeMe =>
    obtain ⟨turn, hpc⟩ := (pc_of_effect ho).1 heff
    refine rank_le rfl id fun hpick => ?_
    rw [hg.not_picks ht hu hut hpc] at hpick
    cases hpick
  case addOwner =>
    obtain ⟨turn, hpc⟩ := (pc_of_effect ho).2 heff
    refine rank_le rfl (fun hzero => ?_) fun _ => rfl
    -- The barrier is not full before `t` has added itself.
    have hrole := hg.inv.role t
    rw [view_role ht, hpc] at hrole
    obtain ⟨hj, hadds, -⟩ := hrole
    have hfull := (hg.inv.owner_eq_zero_iff hj.value).mp hzero t hj.member
    omega
  all_goals exact absurd he not_false

/-- A pass of the spin loop changes nothing for the others, and nothing of what is left to do. -/
theorem todo_of_spins (ho : act c.maxLoop t (s.group i) s.mem (s.thread t) = some o) (h : (s.thread t).pc.Spins (s.group i)) :
    (s.after c t i o).todo c i v = s.todo c i v ∧ (s.after c t i o).group i = s.group i ∧
      ∀ u ≠ t, (s.after c t i o).thread u = s.thread u := by
  obtain ⟨-, hstill, heff⟩ := spins_of_act ho h
  have hgroup : (s.after c t i o).group i = s.group i := by rw [after_group, heff]; rfl
  have hthread : ∀ u ≠ t, (s.after c t i o).thread u = s.thread u :=
    fun u hu => after_thread_early (by rw [heff]; trivial) hu
  have heach : ∀ u, ((s.after c t i o).thread u).pc.closing = (s.thread u).pc.closing ∧
      ((s.after c t i o).thread u).rank c.maxLoop v ((s.after c t i o).group i) =
        (s.thread u).rank c.maxLoop v (s.group i) := by
    intro u
    rw [hgroup]
    rcases eq_or_ne u t with rfl | hu
    · rw [after_thread_self, closing_of_spins hstill, closing_of_spins h, rank_of_spins hstill, rank_of_spins h]
      exact ⟨rfl, rfl⟩
    · rw [hthread u hu]
      exact ⟨rfl, rfl⟩
  refine ⟨?_, hgroup, hthread⟩
  simp only [State.todo, heach]

/-- A step on the way to the wake-up, whatever it does to the others. -/
theorem todo_of_closing (ht : Member c i t) (ho : act c.maxLoop t (s.group i) s.mem (s.thread t) = some o)
    (h : (s.thread t).pc.closing ≠ 0) : (s.after c t i o).todo c i v < s.todo c i v := by
  have hlt : ((s.after c t i o).thread t).pc.closing < (s.thread t).pc.closing := by
    rw [after_thread_self]
    exact closing_lt_of_act ho h
  refine Prod.Lex.toLex_lt_toLex.mpr (Or.inl (Finset.sum_lt_sum (fun u _ => ?_) ⟨t, mem_members.mpr ht, hlt⟩))
  rcases eq_or_ne u t with rfl | hu
  · exact hlt.le
  · exact (after_closing hu).le

/-- A step that brings its thread closer to the end of the round, and nobody further away. -/
theorem todo_of_lowers (hg : Good c i s logs) (ht : Member c i t)
    (ho : act c.maxLoop t (s.group i) s.mem (s.thread t) = some o) (hclosing : (s.thread t).pc.closing = 0)
    (h : Lowers c.maxLoop t v (s.group i) (s.thread t) o) : (s.after c t i o).todo c i v < s.todo c i v := by
  have hlt : ((s.after c t i o).thread t).rank c.maxLoop v ((s.after c t i o).group i) <
      (s.thread t).rank c.maxLoop v (s.group i) := by
    rw [after_thread_self, after_group]
    exact h.rank
  refine Prod.Lex.toLex_lt_toLex.mpr (Or.inr ⟨?_, Finset.sum_lt_sum (fun u hu => ?_) ⟨t, mem_members.mpr ht, hlt⟩⟩)
  · refine Finset.sum_congr rfl fun u (_ : u ∈ members c i) => ?_
    rcases eq_or_ne u t with rfl | hu
    · rw [after_thread_self, h.closing, hclosing]
    · exact after_closing hu
  · rcases eq_or_ne u t with rfl | hne
    · exact hlt.le
    · exact rank_others hg ht (mem_members.mp hu) hne ho h.early

/-- Within a round a step of a member brings its group closer to the end of the round, or is a pass of the spin loop and
    changes nothing for the others. -/
theorem todo_step (hg : Good c i s logs) (hsl : Sleep (view c i s logs)) (ht : Member c i t) (hlt : t < slots)
    (ho : act c.maxLoop t (s.group i) s.mem (s.thread t) = some o) (hset : ∀ turn v, (s.thread t).pc ≠ .setOwner turn v) :
    (s.after c t i o).todo c i (logs i).cur.value < s.todo c i (logs i).cur.value ∨
      (s.thread t).pc.Spins (s.group i) ∧
        (s.after c t i o).todo c i (logs i).cur.value = s.todo c i (logs i).cur.value ∧
        (s.after c t i o).group i = s.group i ∧ ∀ u ≠ t, (s.after c t i o).thread u = s.thread u := by
  by_cases hclosing : (s.thread t).pc.closing = 0
  · by_cases hspins : (s.thread t).pc.Spins (s.group i)
    · exact Or.inr ⟨hspins, todo_of_spins ho hspins⟩
    · exact Or.inl (todo_of_lowers hg ht ho hclosing (lowers_of_act hg hsl ht hlt ho hclosing hset hspins))
  · exact Or.inl (todo_of_closing ht ho hclosing)

/-! ### Who can go on -/

/-- Member `t` of group `i` can take a step that is not a pass of the spin loop. -/
def Goes (c : Config) (i : ℕ) (s : State) (t : ℕ) : Prop :=
  Member c i t ∧ (s.thread t).pc ≠ .done ∧ (s.thread t).pc.asleep = false ∧ ¬ (s.thread t).pc.Spins (s.group i)

theorem Goes.congr {s' : State} (h : Goes c i s t) (hthread : s'.thread t = s.thread t) (hgroup : s'.group i = s.group i) :
    Goes c i s' t := by
  unfold Goes
  rw [hthread, hgroup]
  exact h

/-- Whoever cannot go on is blocked. -/
theorem Good.blocked (hg : Good c i s logs) (h : ¬ Goes c i s t) : (view c i s logs).Blocked t := by
  by_cases ht : Member c i t
  · have hok := (hg.thread t ht).2
    unfold View.Blocked
    rw [view_role ht]
    by_cases hdone : (s.thread t).pc = .done
    · rw [hdone] at hok ⊢
      refine Or.inl ⟨rfl, fun hl => ?_⟩
      have hin := (mem_live.mp hl).2
      rw [hok.2] at hin
      cases hin
    cases hasleep : (s.thread t).pc.asleep with
    | true => exact Or.inr (Or.inl ((role_asleep _).trans hasleep))
    | false =>
      have hspins : (s.thread t).pc.Spins (s.group i) := by
        by_contra hspins
        exact h ⟨ht, hdone, hasleep, hspins⟩
      refine Or.inr (Or.inr ?_)
      cases hpc : (s.thread t).pc <;> rw [hpc] at hspins
      case spinOwner turn => exact ⟨hspins.1, turn.isLeader, congrArg (Role.spin turn.isLeader) hspins.2⟩
      case spinRound turn => exact ⟨hspins.1, turn.isLeader, congrArg (Role.spin turn.isLeader) hspins.2⟩
      all_goals exact absurd hspins not_false
  · exact Or.inl ⟨if_neg ht, fun hl => ht (hg.members t (mem_live.mp hl).2)⟩

/-- As long as a round is not the last, with nobody left, some member can go on: nobody waits in vain. -/
theorem exists_goes (hg : Good c i s logs) (hsl : Sleep (view c i s logs)) (hv : (logs i).cur.value ≠ 0) :
    ∃ t, Goes c i s t := by
  by_contra hnone
  exact hv (value_eq_zero_of_blocked hg.inv hsl fun t => hg.blocked fun h => hnone ⟨t, h⟩)

/-! ### Rounds in fair runs -/

theorem record_later {log : Log} : log.Later (record maxLoop t g th log) := by
  unfold record
  split
  case h_1 =>
    split
    · exact ⟨le_rfl, fun _ _ => rfl, fun _ _ => rfl, fun _ _ _ => le_rfl⟩
    · exact .refl log
  case h_2 => exact Log.later_note (fun _ => rfl) (fun _ => rfl) fun _ _ => le_rfl
  case h_3 => exact Log.later_note (fun _ => rfl) (fun _ => rfl) fun _ _ => le_rfl
  case h_4 =>
    split
    · exact .refl log
    · exact Log.later_note (fun _ => rfl) (fun _ => rfl) fun _ _ => le_rfl
  case h_5 =>
    split
    · exact .refl log
    · exact Log.later_note (fun _ => rfl) (fun _ => rfl) fun _ _ => le_rfl
  case h_6 => exact later_next
  case h_7 => exact Log.later_note (fun _ => rfl) (fun _ => rfl) fun _ _ => le_rfl
  case h_8 => exact .refl log

/-- The number of rounds is that of the stores to `owner`. -/
theorem record_gen {log : Log} (h : ∀ turn v, th.pc ≠ .setOwner turn v) : (record maxLoop t g th log).gen = log.gen := by
  unfold record
  cases hpc : th.pc <;> simp only
  case setOwner turn v => exact absurd hpc (h turn v)
  all_goals first | rfl | (split <;> rfl)

variable {p q : State × (ℕ → Log)} {j : ℕ}

theorem exists_of_watch (hs : ((machine c).watch (observer c)).step t p = some q) :
    ∃ k o, Member c k t ∧ act c.maxLoop t (p.1.group k) p.1.mem (p.1.thread t) = some o ∧ q.1 = p.1.after c t k o ∧
      q.2 = Function.update p.2 k (record c.maxLoop t (p.1.group k) (p.1.thread t) (p.2 k)) := by
  obtain ⟨hs, hlogs⟩ := Machine.watch_step_eq_some.mp hs
  obtain ⟨⟨h1, hn⟩, o, ho, hq⟩ := step_eq_some.mp hs
  exact ⟨_, o, ⟨h1, hn, rfl⟩, ho, hq, hlogs⟩

/-- Whoever has not returned, and is awake, can take a step. -/
theorem watch_step_ne_none (ht : Member c i t) (hdone : (p.1.thread t).pc ≠ .done) (hawake : (p.1.thread t).pc.asleep = false) :
    ((machine c).watch (observer c)).step t p ≠ none := by
  obtain ⟨h1, hn, rfl⟩ := ht
  have hact : act c.maxLoop t (p.1.group (findGroup c.numProcs nfutex t)) p.1.mem (p.1.thread t) ≠ none := by
    rw [Ne, act_eq_none_iff, hawake]
    exact not_or.mpr ⟨hdone, Bool.false_ne_true⟩
  obtain ⟨o, ho⟩ := Option.ne_none_iff_exists'.mp hact
  have hs : (machine c).step t p.1 = some (p.1.after c t (findGroup c.numProcs nfutex t) o) :=
    step_eq_some.mpr ⟨⟨h1, hn⟩, o, ho, rfl⟩
  exact Option.ne_none_iff_exists'.mpr ⟨(_, _), Machine.watch_step_eq_some.mpr ⟨hs, rfl⟩⟩

theorem watch_later (hs : ((machine c).watch (observer c)).step t p = some q) (i : ℕ) : (p.2 i).Later (q.2 i) := by
  obtain ⟨k, o, -, -, -, hlogs⟩ := exists_of_watch hs
  rw [hlogs]
  rcases eq_or_ne i k with rfl | hk
  · rw [Function.update_self]
    exact record_later
  · rw [Function.update_of_ne hk]
    exact .refl _

theorem after_other {k : ℕ} (ht : Member c k t) (hk : i ≠ k) : (s.after c t k o).group i = s.group i ∧
    ∀ u, Member c i u → (s.after c t k o).thread u = s.thread u := by
  refine ⟨Function.update_of_ne hk _ _, fun u hu => ?_⟩
  have hne : u ≠ t := by
    rintro rfl
    exact hk (hu.2.2.symm.trans ht.2.2)
  have hnot : ¬ Member c k u := fun h => hk (hu.2.2.symm.trans h.2.2)
  simp only [State.after, if_neg hne, if_neg hnot]

theorem todo_congr {s' : State} (hgroup : s'.group i = s.group i) (hthread : ∀ u, Member c i u → s'.thread u = s.thread u) :
    s'.todo c i v = s.todo c i v := by
  unfold State.todo
  rw [hgroup]
  congr 2
  · exact Finset.sum_congr rfl fun u hu => by rw [hthread u (mem_members.mp hu)]
  · exact Finset.sum_congr rfl fun u hu => by rw [hthread u (mem_members.mp hu)]

/-- A step of any thread opens the next round of group `i`, or brings the group closer to the end of the round, or it is none
    that helps, and whoever could go on still can. -/
theorem round_step (hc : c.Accepted) (hg : Good c i p.1 p.2) (hsl : Sleep (view c i p.1 p.2))
    (hs : ((machine c).watch (observer c)).step t p = some q) : (p.2 i).gen < (q.2 i).gen ∨
      ((q.2 i).gen = (p.2 i).gen ∧ (q.2 i).cur.value = (p.2 i).cur.value) ∧
        (q.1.todo c i (p.2 i).cur.value < p.1.todo c i (p.2 i).cur.value ∨ ¬ Goes c i p.1 t ∧
          q.1.todo c i (p.2 i).cur.value = p.1.todo c i (p.2 i).cur.value ∧ ∀ u, Goes c i p.1 u → Goes c i q.1 u) := by
  obtain ⟨k, o, ht, ho, hq, hlogs⟩ := exists_of_watch hs
  rcases eq_or_ne i k with rfl | hk
  · by_cases hset : ∃ turn v, (p.1.thread t).pc = .setOwner turn v
    · obtain ⟨turn, v, hpc⟩ := hset
      left
      rw [hlogs, Function.update_self, record, hpc]
      exact Nat.lt_succ_self _
    · have hset : ∀ turn v, (p.1.thread t).pc ≠ .setOwner turn v := fun turn v hpc => hset ⟨turn, v, hpc⟩
      have hgen : (q.2 i).gen = (p.2 i).gen := by rw [hlogs, Function.update_self, record_gen hset]
      refine Or.inr ⟨⟨hgen, ?_⟩, ?_⟩
      · rw [Log.cur, hgen]
        exact (watch_later hs i).value _ le_rfl
      rw [hq]
      rcases todo_step hg hsl ht (lt_slots hc ht.2.1) ho hset with hlow | ⟨hspins, htodo, hgroup, hthread⟩
      · exact Or.inl hlow
      · refine Or.inr ⟨fun hgoes => hgoes.2.2.2 hspins, htodo, fun u hu => hu.congr (hthread u ?_) hgroup⟩
        rintro rfl
        exact hu.2.2.2 hspins
  · obtain ⟨hgroup, hthread⟩ := after_other (s := p.1) (o := o) ht hk
    have hlog : q.2 i = p.2 i := by rw [hlogs, Function.update_of_ne hk]
    rw [hlog, hq]
    exact Or.inr ⟨⟨rfl, rfl⟩, Or.inr ⟨fun hgoes => hk (hgoes.1.2.2.symm.trans ht.2.2), todo_congr hgroup hthread,
      fun u hu => hu.congr (hthread u hu.1) hgroup⟩⟩

/-- In a run under the conditions every round that has members comes closer to its end until it is over. -/
theorem round_progress (hc : c.Accepted) (hplaced : Placed c) (hi : i < nfutex) (hv : v ≠ 0) :
    ((machine c).watch (observer c)).Progress (fun t p => Settled c t p.1 ∧ WakesPast c t p.1)
      (fun p => ((machine c).watch (observer c)).Reach (fun t p => Settled c t p.1 ∧ WakesPast c t p.1) p ∧
        (p.2 i).gen = j ∧ (p.2 i).cur.value = v)
      (fun p => j < (p.2 i).gen) (fun p => p.1.todo c i v) (fun t p => Goes c i p.1 t) := by
  have hgood : ∀ p, ((machine c).watch (observer c)).Reach (fun t p => Settled c t p.1 ∧ WakesPast c t p.1) p →
      Good c i p.1 p.2 ∧ Sleep (view c i p.1 p.2) :=
    fun p h => ⟨good_of_reach hc hplaced (h.mono fun _ _ h => h.1) i hi, sleep_of_reach hc hplaced h i hi⟩
  refine ⟨?_, ?_, fun t p _ hgoes => ?_, ?_⟩
  · rintro t p q ⟨h, rfl, rfl⟩ - hok hs
    obtain ⟨hg, hsl⟩ := hgood p h
    rcases round_step hc hg hsl hs with hover | ⟨⟨hgen, hvalue⟩, hlow⟩
    · exact Or.inl hover
    · exact Or.inr ⟨⟨h.step t hok hs, hgen, hvalue⟩, hlow.imp_right fun hsame => hsame.2⟩
  · rintro p ⟨h, -, rfl⟩ -
    obtain ⟨hg, hsl⟩ := hgood p h
    exact exists_goes hg hsl hv
  · exact watch_step_ne_none hgoes.1 hgoes.2.1 hgoes.2.2.1
  · rintro t p q ⟨h, rfl, rfl⟩ hgoes - hs
    obtain ⟨hg, hsl⟩ := hgood p h
    rcases round_step hc hg hsl hs with hover | ⟨-, hlow⟩
    · exact Or.inl hover
    · exact Or.inr (hlow.resolve_right fun hsame => hsame.1 hgoes)

theorem window_eq (pc : Pc) : pc.window = decide (2 ≤ pc.closing) := by cases pc <;> rfl

/-- A thread that has stored to `owner` goes on to store to `round`. -/
theorem window_progress (hu : Member c i u) : ((machine c).watch (observer c)).Progress (fun _ _ => True) (fun _ => True)
    (fun p => (p.1.thread u).pc.window = false) (fun p => (p.1.thread u).pc.closing)
    (fun t p => t = u ∧ (p.1.thread u).pc.closing ≠ 0) := by
  refine ⟨fun t p q _ hwindow _ hs => Or.inr ⟨trivial, ?_⟩, fun p _ hwindow => ⟨u, rfl, ?_⟩, ?_, ?_⟩
  · obtain ⟨k, o, -, ho, hq, -⟩ := exists_of_watch hs
    rw [hq]
    rcases eq_or_ne u t with rfl | hne
    · rw [after_thread_self]
      rw [window_eq, decide_eq_false_iff_not, not_not] at hwindow
      exact Or.inl (closing_lt_of_act ho (by omega))
    · rw [after_closing hne]
      exact Or.inr ⟨rfl, fun _ h => h⟩
  · rw [window_eq, decide_eq_false_iff_not, not_not] at hwindow
    omega
  · rintro _ p - ⟨rfl, hclosing⟩
    refine watch_step_ne_none hu (fun hdone => hclosing (by rw [hdone]; rfl)) ?_
    cases hpc : (p.1.thread _).pc <;> rw [hpc] at hclosing <;> first | rfl | exact absurd rfl hclosing
  · rintro _ p q - ⟨rfl, hclosing⟩ - hs
    obtain ⟨k, o, -, ho, hq, -⟩ := exists_of_watch hs
    rw [hq, after_thread_self]
    exact Or.inr (closing_lt_of_act ho hclosing)

variable {r : ((machine c).watch (observer c)).Trace} {m : ℕ}

theorem trace_later (hnm : n ≤ m) : ((r.state n).2 i).Later ((r.state m).2 i) := by
  have hany : r.Meets fun _ _ => True := fun _ _ _ => trivial
  exact hany.keeps (I := fun p => ((r.state n).2 i).Later (p.2 i)) (fun t p q h _ hs => h.trans (watch_later hs i))
    (.refl _) hnm

/-- In a fair run under the conditions every round that has members is over some time. -/
theorem exists_gen_lt (hc : c.Accepted) (hplaced : Placed c)
    (h : ((machine c).watch (observer c)).Reach (fun t p => Settled c t p.1 ∧ WakesPast c t p.1) (r.state 0))
    (hmeets : r.Meets fun t p => Settled c t p.1 ∧ WakesPast c t p.1) (hfair : r.Fair) (hi : i < nfutex)
    (hj : j ≤ ((r.state n).2 i).gen) (hv : (((r.state n).2 i).round j).value ≠ 0) :
    ∃ m, n ≤ m ∧ j < ((r.state m).2 i).gen := by
  rcases Nat.lt_or_eq_of_le hj with hlt | rfl
  · exact ⟨n, le_rfl, hlt⟩
  · exact (round_progress hc hplaced hi hv).eventually hmeets hfair ⟨hmeets.reach h n, rfl, rfl⟩

end Racey.Futex
