import Mathlib.Data.Finset.Max
import Mathlib.Logic.Relation
import Racey.Theorems.Futex

/-! `groupPickNext` scans `threads[]` from an entry that `sig` chooses, up to the end of the group's range. Where
    that end is 33, one past the array, the scan wraps at 33 and never meets it: it goes on from the first entry
    and finds the lowest member, where a scan of the range finds none. -/

namespace Racey.Futex

variable {g : FutexGroup} {n m sig fuel maxLoop t : ℕ} {mem : Memory}

/-- The range of a group: `1 <= begin <= end <= 33`, and the members lie in it. -/
structure FutexGroup.Ranged (g : FutexGroup) : Prop where
  begin_pos : 1 ≤ g.begin
  begin_le : g.begin ≤ g.stop
  stop_le : g.stop ≤ 33
  members : ∀ n ∈ g.live, g.begin ≤ n ∧ n < g.stop

/-- What `groupPickNext` is for: 0 for the empty group, else the first member from `start` to the end of the range,
    else the whole group. -/
def FutexGroup.choice (g : FutexGroup) (start : ℕ) : ℤ :=
  if g.live = ∅ then 0
  else if h : (g.live.filter fun n => start ≤ n ∧ n < g.stop).Nonempty then
    ((g.live.filter fun n => start ≤ n ∧ n < g.stop).min' h : ℕ)
  else -(g.live.card : ℤ)

/-- The groups that `main` builds for an accepted number of threads. -/
theorem groups_ranged {f i : ℕ} (hn : n ≤ 32) : (groups n f i).Ranged where
  begin_pos := by
    rw [groups_begin]
    exact groupStart_pos
  begin_le := by
    rw [groups_begin, groups_stop]
    exact groupStart_mono (Nat.le_succ i)
  stop_le := by
    rw [groups_stop]
    exact groupStart_le.trans (by omega)
  members u hu := by
    rw [groups_live hn, Finset.mem_Ico] at hu
    rwa [groups_begin, groups_stop]

/-- Members only leave, which keeps the range. -/
theorem FutexGroup.Ranged.remove (h : g.Ranged) (t : ℕ) :
    FutexGroup.Ranged { g with threads := Function.update g.threads t false } where
  begin_pos := h.begin_pos
  begin_le := h.begin_le
  stop_le := h.stop_le
  members u hu := h.members u (Finset.mem_of_mem_erase (live_remove ▸ hu))

/-! ### The parts of `groupPickNext` -/

theorem groupSize_eq : groupSize g = g.live.card := by
  have upto : ∀ k, (List.range k).foldl (fun n i => if g.threads i then n + 1 else n) 0 =
      ((Finset.range k).filter fun u => g.threads u = true).card := by
    intro k
    induction k with
    | zero => rfl
    | succ k ih => rw [List.range_succ, List.foldl_append, ih, card_live_succ]; rfl
  exact upto slots

theorem any_threads : (List.range slots).any g.threads = true ↔ g.live.Nonempty := by
  simp only [List.any_eq_true, List.mem_range, Finset.Nonempty, mem_live]

theorem startAt_le (h : g.Ranged) : g.begin ≤ g.startAt sig ∧ g.startAt sig ≤ g.stop := by
  have hmod : sig % (g.stop - g.begin + 1) < g.stop - g.begin + 1 := Nat.mod_lt _ (Nat.succ_pos _)
  have hle := h.begin_le
  unfold FutexGroup.startAt
  omega

theorem findNext_of_found (h : n = g.stop ∨ g.threads n = true) : findNext g fuel n = some n := by
  have hstop : ¬(n ≠ g.stop ∧ g.threads n = false) := by
    rintro ⟨hne, hoff⟩
    rcases h with heq | hon
    · exact hne heq
    · exact absurd hon (by rw [hoff]; exact Bool.false_ne_true)
  cases fuel <;> exact if_neg hstop

theorem findNext_pass (hne : n ≠ g.stop) (hoff : g.threads n = false) :
    findNext g (fuel + 1) n = findNext g fuel ((n + 1) % slots) := if_pos ⟨hne, hoff⟩

/-- The scan goes up to the first entry that stops it, one pass an entry. -/
theorem findNext_up (hnm : n ≤ m) (hm : m < slots) (hpass : ∀ k, n ≤ k → k < m → k ≠ g.stop ∧ g.threads k = false)
    (hfound : m = g.stop ∨ g.threads m = true) : findNext g (fuel + (m - n)) n = some m := by
  induction hd : m - n generalizing n with
  | zero =>
    obtain rfl : n = m := by omega
    exact findNext_of_found hfound
  | succ d ih =>
    obtain ⟨hne, hoff⟩ := hpass n le_rfl (by omega)
    have hmod : (n + 1) % slots = n + 1 := Nat.mod_eq_of_lt (by omega)
    rw [← Nat.add_assoc, findNext_pass hne hoff, hmod]
    exact ih (by omega) (fun k hk => hpass k (by omega)) (by omega)

/-- Where nothing stops it up to entry 32, the scan goes on from entry 0. -/
theorem findNext_wrap (hn : n < slots) (hpass : ∀ k, n ≤ k → k < slots → k ≠ g.stop ∧ g.threads k = false) :
    findNext g (fuel + (slots - n)) n = findNext g fuel 0 := by
  induction hd : slots - n generalizing n with
  | zero => omega
  | succ d ih =>
    obtain ⟨hne, hoff⟩ := hpass n le_rfl hn
    rw [← Nat.add_assoc, findNext_pass hne hoff]
    rcases Nat.lt_or_ge (n + 1) slots with hlt | hge
    · rw [Nat.mod_eq_of_lt hlt]
      exact ih hlt (fun k hk => hpass k (by omega)) (by omega)
    · obtain rfl : d = 0 := by omega
      have hlast : n + 1 = slots := by omega
      rw [hlast, Nat.mod_self, Nat.add_zero]

/-! ### The steps of a thread -/

section Steps
variable {turn : Turn} {i : ℕ}

/-- A step of thread `t` that touches neither the memory nor the group. -/
def Advance (maxLoop t : ℕ) (g : FutexGroup) (mem : Memory) (th th' : Thread) : Prop :=
  act maxLoop t g mem th = some ⟨th', mem, .none⟩

theorem scan_steps (hoff : ∀ k < n, g.threads k = false) (hn : n ≤ slots) :
    Relation.ReflTransGen (Advance maxLoop t g mem) ⟨i, .pickScan turn 0⟩ ⟨i, .pickScan turn n⟩ := by
  induction n with
  | zero => exact .refl
  | succ n ih =>
    refine (ih (fun k hk => hoff k (hk.trans n.lt_succ_self)) (Nat.le_of_succ_le hn)).tail ?_
    simp only [Advance, act, hoff n n.lt_succ_self, if_pos (Nat.lt_of_succ_le hn), Bool.false_eq_true, if_false]

theorem size_steps {k : ℕ} (hk : k ≤ slots) : Relation.ReflTransGen (Advance maxLoop t g mem) ⟨i, .pickSize turn 0 0⟩
    ⟨i, .pickSize turn k ((Finset.range k).filter fun u => g.threads u = true).card⟩ := by
  induction k with
  | zero => exact .refl
  | succ k ih =>
    refine (ih (Nat.le_of_succ_le hk)).tail ?_
    simp only [Advance, act, if_pos (Nat.lt_of_succ_le hk), card_live_succ]

theorem find_steps (h : findNext g fuel n = some m) : (m = g.stop ∨ g.threads m = true) ∧
    Relation.ReflTransGen (Advance maxLoop t g mem) ⟨i, .pickFind turn n⟩ ⟨i, .pickFind turn m⟩ := by
  have stopped {k : ℕ} (hgo : ¬(k ≠ g.stop ∧ g.threads k = false)) : k = g.stop ∨ g.threads k = true := by
    rwa [not_and_or, not_not, Bool.not_eq_false] at hgo
  induction fuel generalizing n with
  | zero =>
    rw [findNext] at h
    split at h
    · cases h
    · rename_i hgo
      obtain rfl := Option.some.inj h
      exact ⟨stopped hgo, .refl⟩
  | succ fuel ih =>
    rw [findNext] at h
    split at h
    · rename_i hgo
      obtain ⟨hm, hrest⟩ := ih h
      refine ⟨hm, .head ?_ hrest⟩
      simp only [Advance, act, if_neg hgo.1, hgo.2, Bool.false_eq_true, if_false]
    · rename_i hgo
      obtain rfl := Option.some.inj h
      exact ⟨stopped hgo, .refl⟩

/-- What is left once the scan has stopped: the size of the group, if it has stopped at the end of the range. -/
theorem found_steps (h : m = g.stop ∨ g.threads m = true) :
    Relation.ReflTransGen (Advance maxLoop t g mem) ⟨i, .pickFind turn m⟩
      ⟨i, .setOwner turn (if m = g.stop then -(groupSize g : ℤ) else m)⟩ := by
  by_cases hstop : m = g.stop
  · have henter : Advance maxLoop t g mem ⟨i, .pickFind turn m⟩ ⟨i, .pickSize turn 0 0⟩ := by
      simp only [Advance, act, if_pos hstop]
    have hleave : Advance maxLoop t g mem ⟨i, .pickSize turn slots g.live.card⟩
        ⟨i, .setOwner turn (-(g.live.card : ℤ))⟩ := by
      simp only [Advance, act, lt_irrefl, if_false]
    rw [if_pos hstop, groupSize_eq]
    exact ((size_steps le_rfl).head henter).tail hleave
  · refine .single ?_
    simp only [Advance, act, if_neg hstop, h.resolve_left hstop, if_true]

/-- A thread that comes to `groupPickNext`, in a group that does not change meanwhile, goes on with its result. -/
theorem groupPickNext_steps {v : ℤ} (h : groupPickNext g (mem.sig t) fuel = some v) :
    Relation.ReflTransGen (Advance maxLoop t g mem) ⟨i, .pickScan turn 0⟩ ⟨i, .setOwner turn v⟩ := by
  rw [groupPickNext] at h
  split at h
  · rename_i hany
    have hlive := any_threads.mp hany
    obtain ⟨m, hm, rfl⟩ := Option.map_eq_some_iff.mp h
    obtain ⟨hstop, hfind⟩ : (m = g.stop ∨ g.threads m = true) ∧
        Relation.ReflTransGen (Advance maxLoop t g mem) ⟨i, .pickFind turn (g.startAt (mem.sig t))⟩
          ⟨i, .pickFind turn m⟩ := find_steps hm
    obtain ⟨hfirst, hon⟩ := mem_live.mp (g.live.min'_mem hlive)
    have hoff : ∀ k < g.live.min' hlive, g.threads k = false := fun k hk =>
      Bool.eq_false_iff.mpr fun hon' => absurd (g.live.min'_le k (mem_live.mpr ⟨hk.trans hfirst, hon'⟩)) hk.not_ge
    have henter : Advance maxLoop t g mem ⟨i, .pickScan turn (g.live.min' hlive)⟩
        ⟨i, .pickFind turn (g.startAt (mem.sig t))⟩ := by
      simp only [Advance, act, if_pos hfirst, hon, if_true]
      rfl
    exact (((scan_steps hoff hfirst.le).tail henter).trans hfind).trans (found_steps hstop)
  · rename_i hempty
    obtain rfl := Option.some.inj h
    have hoff : ∀ k < slots, g.threads k = false := fun k hk =>
      Bool.eq_false_iff.mpr fun hon => hempty (any_threads.mpr ⟨k, mem_live.mpr ⟨hk, hon⟩⟩)
    refine (scan_steps hoff le_rfl).tail ?_
    simp only [Advance, act, lt_irrefl, if_false]

end Steps

/-! ### What it returns -/

theorem groupPickNext_empty (h : g.live = ∅) : groupPickNext g sig fuel = some 0 := by
  have hnone : ¬(List.range slots).any g.threads = true := by
    rw [any_threads, Finset.not_nonempty_iff_eq_empty]
    exact h
  exact if_neg hnone

/-- In a group with members the scan decides: at the end of the range it gives the whole group, elsewhere the entry
    that it has come to. -/
theorem groupPickNext_of_find (h : g.live.Nonempty) (hfind : findNext g fuel (g.startAt sig) = some m) :
    groupPickNext g sig fuel = some (if m = g.stop then -(g.live.card : ℤ) else m) := by
  rw [groupPickNext, if_pos (any_threads.mpr h), hfind, groupSize_eq]
  rfl

theorem threads_eq_false (hn : n < slots) (hlive : n ∉ g.live) : g.threads n = false := by
  rw [mem_live, not_and, Bool.not_eq_true] at hlive
  exact hlive hn

/-- A member from `start` on is found before the end of the range. -/
theorem groupPickNext_member (hfuel : slots ≤ fuel)
    (hne : (g.live.filter fun n => g.startAt sig ≤ n ∧ n < g.stop).Nonempty) :
    groupPickNext g sig fuel =
      some (((g.live.filter fun n => g.startAt sig ≤ n ∧ n < g.stop).min' hne : ℕ) : ℤ) := by
  obtain ⟨hlive, hlo, hhi⟩ := Finset.mem_filter.mp (Finset.min'_mem _ hne)
  have hfirst : ∀ k ∈ g.live.filter fun n => g.startAt sig ≤ n ∧ n < g.stop, Finset.min' _ hne ≤ k :=
    fun k hk => Finset.min'_le _ k hk
  generalize Finset.min' _ hne = m at hlive hlo hhi hfirst ⊢
  obtain ⟨hm, hon⟩ := mem_live.mp hlive
  have hpass : ∀ k, g.startAt sig ≤ k → k < m → k ≠ g.stop ∧ g.threads k = false := by
    intro k hk hkm
    refine ⟨(hkm.trans hhi).ne, threads_eq_false (hkm.trans hm) fun hk' => ?_⟩
    exact absurd (hfirst k (Finset.mem_filter.mpr ⟨hk', hk, hkm.trans hhi⟩)) hkm.not_ge
  obtain ⟨left, rfl⟩ : ∃ left, fuel = left + (m - g.startAt sig) := ⟨fuel - (m - g.startAt sig), by omega⟩
  rw [groupPickNext_of_find ⟨m, hlive⟩ (findNext_up hlo hm hpass (.inr hon)), if_neg hhi.ne]

section NoneFrom
variable (h : g.Ranged) (hlive : g.live.Nonempty) (hfuel : slots ≤ fuel) (hnone : ∀ n ∈ g.live, n < g.startAt sig)
include h hlive hfuel hnone

/-- No member from `start` on, and the end of the range is an entry of `threads[]` or `start` itself: the scan
    comes to the end. -/
theorem groupPickNext_whole (hstop : g.stop < slots ∨ g.startAt sig = g.stop) :
    groupPickNext g sig fuel = some (-(g.live.card : ℤ)) := by
  rcases hstop with hstop | hstop
  · have hle : g.startAt sig ≤ g.stop := (startAt_le h).2
    have hpass : ∀ k, g.startAt sig ≤ k → k < g.stop → k ≠ g.stop ∧ g.threads k = false := fun k hk hks =>
      ⟨hks.ne, threads_eq_false (hks.trans hstop) fun hk' => absurd (hnone k hk') hk.not_gt⟩
    obtain ⟨left, rfl⟩ : ∃ left, fuel = left + (g.stop - g.startAt sig) :=
      ⟨fuel - (g.stop - g.startAt sig), by omega⟩
    rw [groupPickNext_of_find hlive (findNext_up hle hstop hpass (.inl rfl)), if_pos rfl]
  · rw [groupPickNext_of_find hlive (findNext_of_found (.inl hstop)), if_pos hstop]

/-- No member from `start` on, in a range that ends at 33: the scan wraps, and comes to the lowest member. -/
theorem groupPickNext_wraps (hstop : g.stop = 33) (hstart : g.startAt sig ≠ g.stop) :
    groupPickNext g sig fuel = some ((g.live.min' hlive : ℕ) : ℤ) := by
  have hle : g.startAt sig ≤ g.stop := (startAt_le h).2
  have hmem := g.live.min'_mem hlive
  have hfirst : ∀ k ∈ g.live, g.live.min' hlive ≤ k := fun k hk => g.live.min'_le k hk
  generalize g.live.min' hlive = m at hmem hfirst ⊢
  obtain ⟨hm, hon⟩ := mem_live.mp hmem
  have hslots : slots = 33 := rfl
  have hlt := hnone m hmem
  have hup : ∀ k, g.startAt sig ≤ k → k < slots → k ≠ g.stop ∧ g.threads k = false := fun k hk hks =>
    ⟨by omega, threads_eq_false hks fun hk' => absurd (hnone k hk') hk.not_gt⟩
  have hagain : ∀ k, 0 ≤ k → k < m → k ≠ g.stop ∧ g.threads k = false := fun k _ hkm =>
    ⟨by omega, threads_eq_false (hkm.trans hm) fun hk' => absurd (hfirst k hk') hkm.not_ge⟩
  obtain ⟨left, rfl⟩ : ∃ left, fuel = left + (m - 0) + (slots - g.startAt sig) :=
    ⟨fuel - (m - 0) - (slots - g.startAt sig), by omega⟩
  have hfind : findNext g (left + (m - 0) + (slots - g.startAt sig)) (g.startAt sig) = some m := by
    rw [findNext_wrap (by omega) hup]
    exact findNext_up (Nat.zero_le m) hm hagain (.inr hon)
  rw [groupPickNext_of_find hlive hfind, if_neg (by omega)]

end NoneFrom

/-- Whatever `sig` is, the scan comes to an end within 33 passes: at a member, or at the end of the range. -/
theorem exists_groupPickNext (h : g.Ranged) (hlive : g.live.Nonempty) (sig : ℕ) :
    ∃ v, (∀ fuel, slots ≤ fuel → groupPickNext g sig fuel = some v) ∧
      ((∃ n ∈ g.live, v = (n : ℤ)) ∨ v = -(g.live.card : ℤ)) := by
  by_cases hsome : (g.live.filter fun n => g.startAt sig ≤ n ∧ n < g.stop).Nonempty
  · obtain ⟨hmem, -⟩ := Finset.mem_filter.mp (Finset.min'_mem _ hsome)
    exact ⟨_, fun fuel hfuel => groupPickNext_member hfuel hsome, .inl ⟨_, hmem, rfl⟩⟩
  have hnone : ∀ n ∈ g.live, n < g.startAt sig := by
    intro n hn
    by_contra hge
    exact hsome ⟨n, Finset.mem_filter.mpr ⟨hn, not_lt.mp hge, (h.members n hn).2⟩⟩
  by_cases hstop : g.stop < slots ∨ g.startAt sig = g.stop
  · exact ⟨_, fun fuel hfuel => groupPickNext_whole h hlive hfuel hnone hstop, .inr rfl⟩
  · obtain ⟨hlast, hstart⟩ := not_or.mp hstop
    have hend : g.stop = 33 := h.stop_le.antisymm (not_lt.mp hlast)
    exact ⟨_, fun fuel hfuel => groupPickNext_wraps h hlive hfuel hnone hend hstart, .inl ⟨_, g.live.min'_mem hlive, rfl⟩⟩

/-- A thread in `groupPickNext`, with an index into `threads[]`, or in its inner loop at the end of the range. -/
def Pc.Picks (g : FutexGroup) : Pc → Prop
  | .pickScan _ _ | .pickSize _ _ _ | .setOwner _ _ => True
  | .pickFind _ n => n = g.stop ∨ n < slots
  | _ => False

theorem Pc.Picks.entry_lt {pc : Pc} {k : ℕ} (h : pc.Picks g) (hk : pc.entry g = some k) : k < slots := by
  cases pc with
  | pickScan turn n | pickSize turn n _ =>
    obtain ⟨hlt, ⟨⟩⟩ := Option.ite_none_right_eq_some.mp hk
    exact hlt
  | pickFind turn n =>
    obtain ⟨hne, ⟨⟩⟩ := Option.ite_none_left_eq_some.mp hk
    exact h.resolve_left hne
  | _ => cases hk

theorem Pc.Picks.advance {th th' : Thread} (h : g.Ranged) (hp : th.pc.Picks g) (ha : Advance maxLoop t g mem th th') :
    th'.pc.Picks g := by
  obtain ⟨i, pc⟩ := th
  cases pc <;> simp only [Advance, act] at ha
  case pickScan turn n =>
    split at ha
    · split at ha
      · cases ha
        have hle : g.startAt (mem.sig t) ≤ g.stop := (startAt_le h).2
        have hstop := h.stop_le
        show g.startAt (mem.sig t) = g.stop ∨ g.startAt (mem.sig t) < slots
        exact hle.eq_or_lt.imp_right fun hlt => Nat.lt_of_lt_of_le hlt hstop
      · cases ha
        trivial
    · cases ha
      trivial
  case pickFind turn n =>
    split at ha
    · cases ha
      trivial
    · split at ha
      · cases ha
        trivial
      · cases ha
        exact .inr (Nat.mod_lt _ (by decide))
  case pickSize turn k n => split at ha <;> cases ha <;> trivial
  case setOwner turn next => cases ha
  all_goals exact absurd hp not_false

theorem Pc.Picks.steps {th th' : Thread} (h : g.Ranged) (hp : th.pc.Picks g)
    (hsteps : Relation.ReflTransGen (Advance maxLoop t g mem) th th') : th'.pc.Picks g := by
  induction hsteps with
  | refl => exact hp
  | tail _ ha ih => exact ih.advance h ha

/-- In a group whose range is as `main` builds it `groupPickNext` ends, after at most 33 passes of its inner loop, with 0
    for the empty group, and else with a member or with minus the number of members; and a thread in it reads no entry
    but those of `threads[33]`. -/
theorem groupPickNext_valid (h : g.Ranged) (sig : ℕ) :
    (g.live.Nonempty → ∃ m, findNext g slots (g.startAt sig) = some m) ∧
      ∃ v, (∀ fuel, slots ≤ fuel → groupPickNext g sig fuel = some v) ∧ (v = 0 ↔ g.live = ∅) ∧
        (g.live.Nonempty → (∃ n ∈ g.live, v = (n : ℤ)) ∨ v = -(g.live.card : ℤ)) ∧
        ∀ maxLoop t mem i turn, mem.sig t = sig →
          Relation.ReflTransGen (Advance maxLoop t g mem) ⟨i, .pickScan turn 0⟩ ⟨i, .setOwner turn v⟩ ∧
            ∀ th, Relation.ReflTransGen (Advance maxLoop t g mem) ⟨i, .pickScan turn 0⟩ th →
              ∀ k, th.pc.entry g = some k → k < slots := by
  have reads : ∀ maxLoop t mem i turn th, Relation.ReflTransGen (Advance maxLoop t g mem) ⟨i, .pickScan turn 0⟩ th →
      ∀ k, th.pc.entry g = some k → k < slots := by
    intro maxLoop t mem i turn th hth k hk
    have hpicks : (Pc.pickScan turn 0).Picks g := trivial
    exact (hpicks.steps h hth).entry_lt hk
  rcases g.live.eq_empty_or_nonempty with hempty | hlive
  · refine ⟨fun hne => absurd hempty hne.ne_empty, 0, fun fuel _ => groupPickNext_empty hempty, iff_of_true rfl hempty,
      fun hne => absurd hempty hne.ne_empty, ?_⟩
    intro maxLoop t mem i turn _
    have hpick : groupPickNext g (mem.sig t) slots = some 0 := groupPickNext_empty hempty
    exact ⟨groupPickNext_steps hpick, reads maxLoop t mem i turn⟩
  · obtain ⟨v, hv, hvalid⟩ := exists_groupPickNext h hlive sig
    refine ⟨fun _ => ?_, v, hv, ?_, fun _ => hvalid, ?_⟩
    · have hslots := hv slots le_rfl
      rw [groupPickNext, if_pos (any_threads.mpr hlive)] at hslots
      obtain ⟨m, hm, -⟩ := Option.map_eq_some_iff.mp hslots
      exact ⟨m, hm⟩
    · refine iff_of_false (fun hzero => ?_) hlive.ne_empty
      rcases hvalid with ⟨n, hn, rfl⟩ | rfl
      · have hpos := h.begin_pos.trans (h.members n hn).1
        omega
      · have hcard := hlive.card_pos
        omega
    · rintro maxLoop t mem i turn rfl
      exact ⟨groupPickNext_steps (hv slots le_rfl), reads maxLoop t mem i turn⟩

/-- `groupPickNext` chooses by a plain forward scan exactly when the range ends within `threads[]`, or the group is
    empty, or the scan starts at the end, or there is a member from the start on. -/
theorem groupPickNext_eq_choice_iff (h : g.Ranged) (hfuel : slots ≤ fuel) :
    groupPickNext g sig fuel = some (g.choice (g.startAt sig)) ↔
      g.stop ≤ 32 ∨ g.live = ∅ ∨ g.startAt sig = g.stop ∨ ∃ n ∈ g.live, g.startAt sig ≤ n := by
  rcases g.live.eq_empty_or_nonempty with hempty | hlive
  · rw [groupPickNext_empty hempty, FutexGroup.choice, if_pos hempty]
    exact iff_of_true rfl (.inr (.inl hempty))
  have hne := hlive.ne_empty
  by_cases hsome : (g.live.filter fun n => g.startAt sig ≤ n ∧ n < g.stop).Nonempty
  · rw [groupPickNext_member hfuel hsome, FutexGroup.choice, if_neg hne, dif_pos hsome]
    obtain ⟨n, hn⟩ := hsome
    obtain ⟨hmem, hlo, -⟩ := Finset.mem_filter.mp hn
    exact iff_of_true rfl (.inr (.inr (.inr ⟨n, hmem, hlo⟩)))
  have hnone : ∀ n ∈ g.live, n < g.startAt sig := by
    intro n hn
    by_contra hge
    exact hsome ⟨n, Finset.mem_filter.mpr ⟨hn, not_lt.mp hge, (h.members n hn).2⟩⟩
  have hchoice : g.choice (g.startAt sig) = -(g.live.card : ℤ) := by
    rw [FutexGroup.choice, if_neg hne, dif_neg hsome]
  rw [hchoice]
  by_cases hstop : g.stop < slots ∨ g.startAt sig = g.stop
  · rw [groupPickNext_whole h hlive hfuel hnone hstop]
    refine iff_of_true rfl ?_
    rcases hstop with hstop | hstop
    · exact .inl (Nat.le_of_lt_succ hstop)
    · exact .inr (.inr (.inl hstop))
  · obtain ⟨hlast, hstart⟩ := not_or.mp hstop
    have hend : g.stop = 33 := h.stop_le.antisymm (not_lt.mp hlast)
    rw [groupPickNext_wraps h hlive hfuel hnone hend hstart]
    have hcard : 0 < g.live.card := hlive.card_pos
    refine iff_of_false (fun heq => ?_) ?_
    · have hpos : ((g.live.min' hlive : ℕ) : ℤ) = -(g.live.card : ℤ) := Option.some.inj heq
      omega
    · rintro (h32 | hempty | heq | ⟨n, hn, hge⟩)
      · omega
      · exact hne hempty
      · exact hstart heq
      · exact absurd (hnone n hn) hge.not_gt

/-- The last of the four groups of 32 threads, when only thread 25 is left in it. -/
def lastLeft : FutexGroup := { groups 32 4 3 with threads := fun n => n = 25 }

theorem lastLeft_ranged : lastLeft.Ranged where
  begin_pos := by decide
  begin_le := by decide
  stop_le := by decide
  members := by decide

theorem groupPickNext_valid_lastLeft : ∃ v, groupPickNext lastLeft 1 33 = some v ∧ (v = 0 ↔ lastLeft.live = ∅) := by
  obtain ⟨-, v, hv, hzero, -⟩ := groupPickNext_valid lastLeft_ranged 1
  exact ⟨v, hv 33 le_rfl, hzero⟩

theorem groupPickNext_eq_choice_iff_lastLeft : groupPickNext lastLeft 8 33 = some (lastLeft.choice (lastLeft.startAt 8)) ↔
    lastLeft.stop ≤ 32 ∨ lastLeft.live = ∅ ∨ lastLeft.startAt 8 = lastLeft.stop ∨
      ∃ n ∈ lastLeft.live, lastLeft.startAt 8 ≤ n :=
  groupPickNext_eq_choice_iff lastLeft_ranged (by decide)

/-- From entry 26 on there is no member, and thread 25 is scheduled by its id in place of the whole group. -/
theorem groupPickNext_lastLeft : lastLeft.Ranged ∧ lastLeft.startAt 1 = 26 ∧
    lastLeft.choice (lastLeft.startAt 1) = -1 ∧ groupPickNext lastLeft 1 33 = some 25 :=
  ⟨lastLeft_ranged, by decide +kernel⟩

end Racey.Futex
