import Racey.Theorems.Signal

/-! `main` of racey-signal reads `sig[33]`, behind the array, when it initialises `sig2`, and so `sig2` is not the reverse
    of `sig`. From there on all entries that the threads, their handlers and `main` use exist, whatever `sig` holds. -/

namespace Racey.Signal
open Machine

variable {c : Config} {s s' : State} {t : ℕ} {a : Move} {sig : ℕ → ℕ}

/-! ### The initialisation -/

theorem initSig2_upto (sig : ℕ → ℕ) (n : ℕ) :
    (List.range n).foldl (fun p i => (p.1 ++ [33 - i], Function.update p.2 i (sig (33 - i)))) ([], fun _ => 0) =
      ((List.range n).map (33 - ·), fun i => if i < n then sig (33 - i) else 0) := by
  induction n with
  | zero => rfl
  | succ n ih =>
    rw [List.range_succ, List.foldl_append, ih, List.map_append]
    refine Prod.ext rfl (funext fun i => ?_)
    rcases eq_or_ne i n with rfl | hne
    · simp
    · have hlt : i < n + 1 ↔ i < n := by omega
      simp [hne, hlt]

theorem initSig2_eq (sig : ℕ → ℕ) :
    initSig2 sig = ((List.range slots).map (33 - ·), fun i => if i < slots then sig (33 - i) else 0) :=
  initSig2_upto sig slots

/-- The contents of `sig` with which the program starts. -/
theorem initSig2_of_init (h : ∀ i < slots, sig i = sigInit i) : (initSig2 sig).2 = sig2Init (sig 33) := by
  rw [initSig2_eq]
  funext i
  simp only [slots, sig2Init] at h ⊢
  rcases Nat.eq_zero_or_pos i with rfl | hpos
  · rfl
  · rw [if_neg hpos.ne']
    rcases Nat.lt_or_ge i 33 with hlt | hge
    · exact (if_pos hlt).trans (h _ (by omega))
    · have hzero : 33 - i = 0 := by omega
      refine (if_neg hge.not_gt).trans ?_
      rw [hzero]
      rfl

/-! ### The run -/

/-- A store to a cell is to one that exists. -/
def indexed : Loop.Pc → Prop
  | .write index2 _ => index2 < maxElem
  | _ => True

theorem indexed_step (th : Loop.Thread) (t : ℕ) (mem : Memory) : indexed (th.step t mem).1.pc := by
  unfold Loop.Thread.step
  split
  · trivial
  · trivial
  · exact Nat.mod_lt _ (by decide)
  · trivial
  · trivial

theorem mixEntry_exists {own : Entry} {pc : Loop.Pc} (hown : own.Exists) (hpc : indexed pc) : (mixEntry own pc).Exists := by
  cases pc with
  | head | setSig => exact hown
  | read1 num | read2 num => exact Nat.mod_lt num (by decide)
  | write index2 num => exact hpc

/-- The loops and the handlers store to cells that exist, and a handler runs in a thread that does. -/
structure Bounded (s : State) : Prop where
  loop : ∀ t, indexed (s.thread t).loop.pc
  frame : ∀ t frame, (s.thread t).frame = some frame → indexed frame.pc ∧ (s.thread t).phase ≠ .unborn

theorem Bounded.update (B : Bounded s) {th : Thread} (hthread : s'.thread = Function.update s.thread t th)
    (hloop : indexed th.loop.pc) (hframe : ∀ frame, th.frame = some frame → indexed frame.pc ∧ th.phase ≠ .unborn) :
    Bounded s' where
  loop u := by
    rw [hthread]
    rcases eq_or_ne u t with rfl | hne
    · simpa using hloop
    · simpa [hne] using B.loop u
  frame u := by
    rw [hthread]
    rcases eq_or_ne u t with rfl | hne
    · simpa using hframe
    · simpa [hne] using B.frame u

theorem Bounded.goto (B : Bounded s) {p : Phase}
    (hthread : s'.thread = Function.update s.thread t { s.thread t with phase := p }) (hp : p ≠ .unborn) : Bounded s' :=
  B.update hthread (B.loop t) fun frame hframe => ⟨(B.frame t frame hframe).1, hp⟩

theorem Bounded.same (B : Bounded s) (hthread : s'.thread = s.thread) : Bounded s' :=
  ⟨by rw [hthread]; exact B.loop, by rw [hthread]; exact B.frame⟩

theorem Bounded.kill (B : Bounded s) (y : ℕ) : Bounded (kill y s) := by
  unfold Signal.kill
  split
  · exact B
  · exact B.update rfl (B.loop y) (B.frame y)

theorem Bounded.step (B : Bounded s) (h : step c a s = some s') : Bounded s' := by
  cases step_cases h with
  | create | setSelf | sigaction | arrive | pass | leave | exit | arriveLast | passLast => exact B.goto rfl nofun
  | main => exact B.same rfl
  | enter t hnone => exact B.update rfl (B.loop t) fun frame hframe => absurd (hnone.symm.trans hframe) nofun
  | access t r hnone _ _ hr =>
    subst hr
    exact B.update rfl (indexed_step _ t _) fun frame hframe => absurd (hnone.symm.trans hframe) nofun
  | kill t y =>
    refine Bounded.kill ?_ y
    exact B.goto rfl nofun
  | handlerReturns t => exact B.update rfl (B.loop t) fun _ h => (by cases h)
  | handlerAccess t frame r hframe _ hr =>
    subst hr
    refine B.update rfl (B.loop t) fun frame' h => ?_
    cases h
    exact ⟨indexed_step frame t _, (B.frame t frame hframe).2⟩
  | deliver t _ _ hborn =>
    refine B.update rfl (B.loop t) fun frame hframe => ?_
    cases hframe
    exact ⟨trivial, hborn⟩

theorem invs_of_reachable (h : (machineWith c sig).Reachable s) : Inv c s ∧ Bounded s := by
  have start : Inv c (startWith sig) ∧ Bounded (startWith sig) :=
    ⟨Inv.same (inv_start : Inv c (Signal.start (sig 33))) rfl rfl rfl (.inl rfl), fun _ => trivial,
      fun _ _ h => (by cases h)⟩
  exact h.invariant (I := fun s => Inv c s ∧ Bounded s) start fun _ _ _ I _ hs => ⟨I.1.step hs, I.2.step hs⟩

/-! ### The entries that are used -/

theorem lt_slots (hc : c.Accepted) {i : ℕ} (h : i ≤ c.numProcs) : i < slots :=
  Nat.lt_succ_of_le (h.trans hc.numProcs_le)

theorem Inv.lt_slots (I : Inv c s) (hc : c.Accepted) (ht : (s.thread t).phase ≠ .unborn) : t < slots :=
  Signal.lt_slots hc (Finset.mem_Icc.mp (I.born t ht)).2

theorem main_entries (hc : c.Accepted) {x : Entry} (hx : x ∈ entries c .main s) : x.Exists := by
  simp only [entries] at hx
  split at hx
  · rw [List.mem_singleton.mp hx]
    exact Nat.succ_pos 32
  · rename_i i _ _
    split at hx
    · rename_i hi
      rw [List.mem_singleton.mp hx]
      exact lt_slots hc hi.le
    · cases hx
  · rename_i i _ _
    split at hx
    · rename_i hi
      rw [List.mem_singleton.mp hx]
      exact lt_slots hc hi.le
    · cases hx
  · cases hx

theorem body_entries (hc : c.Accepted) (I : Inv c s) (B : Bounded s) {x : Entry} (hx : x ∈ bodyEntries c t s) :
    x.Exists := by
  unfold bodyEntries at hx
  cases hp : (s.thread t).phase <;> simp only [hp] at hx
  case setSelf =>
    rw [List.mem_singleton.mp hx]
    exact I.lt_slots hc (by rw [hp]; exact fun h => by cases h)
  case inner =>
    split at hx
    · cases hx
    · rw [List.mem_singleton.mp hx]
      refine mixEntry_exists ?_ (B.loop t)
      exact I.lt_slots hc (by rw [hp]; exact fun h => by cases h)
  case kill =>
    rcases List.mem_cons.mp hx with rfl | hx
    · exact I.lt_slots hc (by rw [hp]; exact fun h => by cases h)
    · rw [List.mem_singleton.mp hx]
      exact lt_slots hc (Nat.mod_lt _ hc.numProcs_pos)
  all_goals cases hx

theorem runs_inside (hc : c.Accepted) (sig : ℕ → ℕ) : RunsInside c sig := by
  intro s h a x hx
  obtain ⟨I, B⟩ := invs_of_reachable h
  cases a with
  | main => exact main_entries hc hx
  | deliver t => cases hx
  | thread t =>
    simp only [entries] at hx
    split at hx
    · rename_i frame hframe
      obtain ⟨hpc, hborn⟩ := B.frame t frame hframe
      split at hx
      · cases hx
      · rw [List.mem_singleton.mp hx]
        exact mixEntry_exists (I.lt_slots hc hborn) hpc
    · exact body_entries hc I B hx

/-- Whatever `sig` holds, the initialisation reads behind it, so that the program does not stay inside its arrays; but
    from the start of the threads on, it does. -/
theorem not_staysInside (hc : c.Accepted) (sig : ℕ → ℕ) :
    slots ∈ (initSig2 sig).1 ∧ ¬StaysInside c sig ∧ RunsInside c sig := by
  have hread : slots ∈ (initSig2 sig).1 := by
    rw [initSig2_eq]
    exact List.mem_map.mpr ⟨0, List.mem_range.mpr (by decide), rfl⟩
  exact ⟨hread, fun h => absurd (h.1 slots hread) (lt_irrefl _), runs_inside hc sig⟩

theorem not_staysInside_two : slots ∈ (initSig2 sigInit).1 ∧ ¬StaysInside ⟨2, 1⟩ sigInit ∧ RunsInside ⟨2, 1⟩ sigInit :=
  not_staysInside ⟨by decide, by decide, by decide⟩ sigInit

/-- With the contents that `sig` starts with, and 7 behind it: `sig2[0]` is what lies behind `sig`, and `sig2[1]` is
    `sig[32]`, where the reverse of `sig` has `sig[32]` and `sig[31]`. -/
theorem initSig2_not_reverse :
    33 ∈ (initSig2 fun i => if i = 33 then 7 else i).1 ∧ (initSig2 fun i => if i = 33 then 7 else i).2 0 = 7 ∧
      (initSig2 fun i => if i = 33 then 7 else i).2 1 = 32 ∧ ¬StaysInside ⟨2, 1⟩ fun i => if i = 33 then 7 else i := by
  have hread : 33 ∈ (initSig2 fun i => if i = 33 then 7 else i).1 := by decide +kernel
  exact ⟨hread, by decide +kernel, by decide +kernel, fun h => absurd (h.1 33 hread) (by decide)⟩

end Racey.Signal
