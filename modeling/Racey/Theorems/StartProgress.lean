import Mathlib.Algebra.Order.BigOperators.Group.Finset
import Racey.Theorems.Loop
import Racey.Theorems.Start

/-! racey-nobarrier and racey-forkmmap always print a signature: a thread or a child is in its loop as soon as it exists, so
    that nobody waits but `main`, and every loop ends. -/

namespace Racey.Start
open Machine

section Threads
variable {μ : Type} {c : Config} {s s' : State μ} {t k : ℕ} {p : Phase}

/-! ### Who exists -/

/-- In its loop, or past it. -/
def Phase.Begun : Phase → Prop
  | .loop | .returned | .reaped => True
  | _ => False

theorem Phase.Begun.cases (h : p.Begun) : p = .loop ∨ p = .returned ∨ p = .reaped := by
  cases p <;> simp_all [Phase.Begun]

/-- `main` has created the threads or children up to `k`. -/
structure Begun (c : Config) (k : ℕ) (s : State μ) : Prop where
  le : k ≤ c.numProcs
  begun : ∀ t, 1 ≤ t → t ≤ k → (s.phase t).Begun
  unborn : ∀ t, k < t → s.phase t = .unborn
  nobody : s.phase 0 = .unborn

theorem begun_start (main : μ) : Begun c 0 (start c main) :=
  ⟨Nat.zero_le _, fun _ h1 h0 => absurd (h1.trans h0) (by decide), fun _ _ => rfl, rfl⟩

theorem Begun.mem (h : Begun c k s) (ht : s.phase t ≠ .unborn) : t ∈ Finset.Icc 1 c.numProcs := by
  refine Finset.mem_Icc.mpr ⟨Nat.pos_of_ne_zero fun h0 => ht (h0 ▸ h.nobody), ?_⟩
  by_contra hn
  exact ht (h.unborn t (lt_of_le_of_lt h.le (not_le.mp hn)))

theorem Begun.setPhase (h : Begun c k s) (ht : s.phase t ≠ .unborn) (hp : p.Begun) (main : μ) :
    Begun c k { s.setPhase t p with main := main } where
  le := h.le
  begun u h1 hu := by
    rcases eq_or_ne u t with rfl | hne
    · simpa [State.setPhase] using hp
    · simpa [State.setPhase, hne] using h.begun u h1 hu
  unborn u hu := by
    have hunborn := h.unborn u hu
    have hne : u ≠ t := fun heq => ht (heq ▸ hunborn)
    simpa [State.setPhase, hne] using hunborn
  nobody := by
    have hne : 0 ≠ t := fun heq => ht (heq ▸ h.nobody)
    simpa [State.setPhase, hne] using h.nobody

theorem Begun.next (h : Begun c k s) (hk : k < c.numProcs) (main : μ) :
    Begun c (k + 1) { s.setPhase (k + 1) .loop with main := main } where
  le := hk
  begun u h1 hu := by
    rcases eq_or_ne u (k + 1) with rfl | hne
    · simp [State.setPhase, Phase.Begun]
    · simpa [State.setPhase, hne] using h.begun u h1 (by omega)
  unborn u hu := by simpa [State.setPhase, hu.ne'] using h.unborn u (Nat.lt_of_succ_lt hu)
  nobody := by simpa [State.setPhase] using h.nobody

theorem Begun.goto (h : Begun c k s) (main : μ) : Begun c k { s with main := main } := ⟨h.le, h.begun, h.unborn, h.nobody⟩

/-- A thread that exists and has not ended is in its loop. -/
theorem Begun.loop (h : Begun c k s) (ht : s.phase t ≠ .unborn) (hreturned : s.phase t ≠ .returned)
    (hreaped : s.phase t ≠ .reaped) : s.phase t = .loop := by
  obtain ⟨h1, -⟩ := Finset.mem_Icc.mp (h.mem ht)
  have hle : t ≤ k := not_lt.mp fun hlt => ht (h.unborn t hlt)
  exact (h.begun t h1 hle).cases.resolve_right fun hend => hend.elim hreturned hreaped

/-! ### How much is left to do -/

def alive : Phase → ℕ
  | .returned | .reaped => 0
  | _ => 1

def State.left (c : Config) (s : State μ) : ℕ :=
  ∑ t ∈ Finset.Icc 1 c.numProcs, (Loop.accessesLeft c.maxLoop (s.thread t) + alive (s.phase t))

theorem left_start (main : μ) : (start c main).left c = c.numProcs * (5 * c.maxLoop + 1) := by
  have hthread : ∀ t ∈ Finset.Icc 1 c.numProcs,
      Loop.accessesLeft c.maxLoop ((start c main).thread t) + alive ((start c main).phase t) = 5 * c.maxLoop + 1 := fun _ _ => rfl
  rw [State.left, Finset.sum_const_nat hthread, Nat.card_Icc, Nat.add_sub_cancel]

theorem left_congr (hthread : s'.thread = s.thread) (hphase : ∀ t, alive (s'.phase t) = alive (s.phase t)) :
    s'.left c = s.left c :=
  Finset.sum_congr rfl fun t _ => by rw [hthread, hphase]

/-- `main` creates a thread or a child, or waits for one. -/
theorem left_setPhase (hp : alive p = alive (s.phase t)) (main : μ) : State.left c { s.setPhase t p with main := main } = s.left c := by
  refine left_congr rfl fun u => ?_
  rcases eq_or_ne u t with rfl | hne
  · simpa [State.setPhase] using hp
  · simp [State.setPhase, hne]

theorem left_lt (ht : t ∈ Finset.Icc 1 c.numProcs) (hother : ∀ u, u ≠ t → s'.thread u = s.thread u ∧ s'.phase u = s.phase u)
    (hlt : Loop.accessesLeft c.maxLoop (s'.thread t) + alive (s'.phase t) <
      Loop.accessesLeft c.maxLoop (s.thread t) + alive (s.phase t)) : s'.left c < s.left c := by
  refine Finset.sum_lt_sum (fun u _ => ?_) ⟨t, ht, hlt⟩
  rcases eq_or_ne u t with rfl | hne
  · exact hlt.le
  · obtain ⟨hthread, hphase⟩ := hother u hne
    rw [hthread, hphase]

/-- A thread in its loop can always go on, and there is less left afterwards. -/
theorem stepThread_cases (h : Begun c k s) (hs : stepThread c t s = some s') : Begun c k s' ∧ s'.left c < s.left c := by
  have hstep := threadStep_of_step hs
  have hloop := h.loop hstep.alive.1 hstep.alive.2.1 hstep.alive.2.2
  have hmem := h.mem hstep.alive.1
  simp only [stepThread, hloop] at hs
  split at hs
  · rename_i hover
    cases hs
    refine ⟨h.setPhase (p := .returned) hstep.alive.1 trivial s.main, left_lt hmem (fun u hu => ⟨rfl, by simp [State.setPhase, hu]⟩) ?_⟩
    simp [State.setPhase, hloop, alive]
  · rename_i hover
    cases hs
    refine ⟨⟨h.le, h.begun, h.unborn, h.nobody⟩, left_lt hmem (fun u hu => ⟨by simp [hu], rfl⟩) ?_⟩
    have hlt := Loop.accessesLeft_lt hover t s.mem
    simpa using hlt

theorem exists_stepThread (hloop : s.phase t = .loop) : ∃ s', stepThread c t s = some s' := by
  rw [stepThread, hloop]
  dsimp only
  split
  · exact ⟨_, rfl⟩
  · exact ⟨_, rfl⟩

end Threads

/-! ### racey-nobarrier -/

section NoBarrier
variable {c : Config} {s s' : State MainPc} {t : ℕ} {a : Move}

/-- How many threads `main` has created. -/
def created (c : Config) : MainPc → ℕ
  | .create i => i
  | _ => c.numProcs

/-- The steps that `main` has before it. -/
def mainLeft (c : Config) : MainPc → ℕ
  | .create i => (c.numProcs - i) + (2 * c.numProcs + 4)
  | .join i => (c.numProcs - i) + (c.numProcs + 3)
  | .first => c.numProcs + 2
  | .result i _ => c.numProcs - i + 1
  | .printed _ => 0

theorem main_left (h : Begun c (created c s.main) s) (hs : stepMain .nobarrier c s = some s') :
    Begun c (created c s'.main) s' ∧ s'.left c + mainLeft c s'.main < s.left c + mainLeft c s.main := by
  have hle := h.le
  unfold stepMain at hs
  split at hs
  case h_1 i hmain =>
    rw [hmain] at h hle ⊢
    split at hs
    · rename_i hi
      cases hs
      refine ⟨h.next hi _, ?_⟩
      have hunborn := h.unborn (i + 1) (Nat.lt_succ_self i)
      refine lt_of_eq_of_lt (congrArg (· + _) (left_setPhase (by rw [hunborn]; rfl) _)) (Nat.add_lt_add_left ?_ _)
      simp only [mainLeft]
      omega
    · rename_i hi
      cases hs
      have heq : i = c.numProcs := le_antisymm hle (not_lt.mp hi)
      subst heq
      refine ⟨h.goto _, Nat.add_lt_add_left ?_ (s.left c)⟩
      simp only [mainLeft]
      omega
  case h_2 i hmain =>
    rw [hmain] at h ⊢
    split at hs
    · obtain ⟨-, ⟨⟩⟩ := Option.ite_none_right_eq_some.mp hs
      refine ⟨h.goto _, Nat.add_lt_add_left ?_ (s.left c)⟩
      simp only [mainLeft]
      omega
    · cases hs
      refine ⟨h.goto _, Nat.add_lt_add_left ?_ (s.left c)⟩
      simp only [mainLeft]
      omega
  case h_3 hmain =>
    rw [hmain] at h ⊢
    cases hs
    refine ⟨h.goto _, Nat.add_lt_add_left ?_ (s.left c)⟩
    simp only [mainLeft]
    omega
  case h_4 i mix_sig hmain =>
    rw [hmain] at h ⊢
    split at hs
    all_goals
      cases hs
      refine ⟨h.goto _, Nat.add_lt_add_left ?_ (s.left c)⟩
      simp only [mainLeft]
      omega
  case h_5 => cases hs

theorem step_left (h : Begun c (created c s.main) s) (hs : step .nobarrier c a s = some s') :
    Begun c (created c s'.main) s' ∧ s'.left c + mainLeft c s'.main < s.left c + mainLeft c s.main := by
  cases a with
  | main => exact main_left h hs
  | thread t =>
    obtain ⟨h', hlt⟩ := stepThread_cases h hs
    rw [(threadStep_of_step hs).main]
    exact ⟨h', Nat.add_lt_add_right hlt _⟩

theorem goes_on (h : Begun c (created c s.main) s) (hreaped : ∀ t, s.phase t ≠ .reaped) :
    (∃ v, s.main = .printed v) ∨ ∃ a s', step .nobarrier c a s = some s' := by
  cases hmain : s.main with
  | printed v => exact .inl ⟨v, rfl⟩
  | create i | result i mix_sig =>
    refine .inr ⟨.main, ?_⟩
    simp only [step, stepMain, hmain]
    split <;> exact ⟨_, rfl⟩
  | first =>
    refine .inr ⟨.main, ?_⟩
    simp only [step, stepMain, hmain]
    exact ⟨_, rfl⟩
  | join i =>
    rw [hmain] at h
    by_cases hi : i < c.numProcs
    · by_cases hreturned : s.phase (i + 1) = .returned
      · refine .inr ⟨.main, ?_⟩
        simp only [step, stepMain, hmain, if_pos hi, if_pos hreturned]
        exact ⟨_, rfl⟩
      · have hbegun := (h.begun (i + 1) (Nat.le_add_left 1 i) hi).cases
        obtain ⟨s', hs⟩ := exists_stepThread (c := c)
          (hbegun.resolve_right fun hend => hend.elim hreturned (hreaped (i + 1)))
        exact .inr ⟨.thread (i + 1), s', hs⟩
    · refine .inr ⟨.main, ?_⟩
      simp only [step, stepMain, hmain, if_neg hi]
      exact ⟨_, rfl⟩

theorem begun_of_reachable (h : (machine .nobarrier c).Reachable s) :
    Begun c (created c s.main) s ∧ ∀ t, s.phase t ≠ .reaped := by
  refine h.invariant (I := fun s => Begun c (created c s.main) s ∧ ∀ t, s.phase t ≠ .reaped)
    ⟨begun_start _, fun _ => by simp [machine, start]⟩ fun a s s' ⟨hB, hreaped⟩ _ hs => ⟨(step_left hB hs).1, fun u => ?_⟩
  cases a with
  | thread t =>
    have hstep := threadStep_of_step hs
    rcases eq_or_ne u t with rfl | hu
    · exact hstep.born.2
    · rw [(hstep.other u hu).1]
      exact hreaped u
  | main =>
    have hs : stepMain .nobarrier c s = some s' := hs
    unfold stepMain at hs
    split at hs
    case h_1 i hmain =>
      split at hs
      · cases hs
        rcases eq_or_ne u (i + 1) with rfl | hu
        · simp [State.setPhase, Program.entry]
        · simpa [State.setPhase, hu] using hreaped u
      · cases hs
        exact hreaped u
    case h_2 i hmain =>
      split at hs
      · obtain ⟨-, ⟨⟩⟩ := Option.ite_none_right_eq_some.mp hs
        exact hreaped u
      · cases hs
        exact hreaped u
    case h_3 hmain =>
      cases hs
      exact hreaped u
    case h_4 i mix_sig hmain =>
      split at hs
      all_goals
        cases hs
        exact hreaped u
    case h_5 => cases hs

theorem length_le {as : List Move} (hr : (machine .nobarrier c).run as (start c (.create 0)) = some s) :
    as.length ≤ 5 * c.numProcs * c.maxLoop + 4 * c.numProcs + 4 := by
  have hlen : as.length + (s.left c + mainLeft c s.main) ≤ (start c (MainPc.create 0)).left c + mainLeft c (.create 0) :=
    length_le_of_measure (M := machine .nobarrier c) (I := fun s => Begun c (created c s.main) s)
      (μ := fun s => s.left c + mainLeft c s.main) (fun a s s' h hs => (step_left h hs).1)
      (fun a s s' h hs => (step_left h hs).2) (begun_start _) hr
  have hbound : c.numProcs * (5 * c.maxLoop + 1) = 5 * c.numProcs * c.maxLoop + c.numProcs := by ring
  rw [left_start, hbound] at hlen
  simp only [mainLeft] at hlen
  omega

end NoBarrier

end Racey.Start

namespace Racey.Forkmmap
open Machine Start

variable {c : Config} {s s' : State MainPc} {t : ℕ} {a : Move}

/-! ### racey-forkmmap -/

/-- How many children `main` has forked. -/
def created (c : Config) : MainPc → ℕ
  | .fork i => i - 1
  | _ => c.numProcs

/-- The steps that `main` has before it. -/
def mainLeft (c : Config) : MainPc → ℕ
  | .fork i => (c.numProcs + 1 - i) + (2 * c.numProcs + 4)
  | .first => 2 * c.numProcs + 3
  | .wait i _ => (c.numProcs - i) + (c.numProcs + 2)
  | .result i _ => c.numProcs - i + 1
  | .printed _ => 0

theorem main_left (W : Waited c s) (h : Begun c (created c s.main) s) (hs : stepMain c s = some s') :
    Begun c (created c s'.main) s' ∧ s'.left c + mainLeft c s'.main < s.left c + mainLeft c s.main := by
  have hle := h.le
  unfold Waited at W
  unfold stepMain at hs
  split at hs
  case h_1 i hmain =>
    rw [hmain] at h hle W ⊢
    obtain ⟨k, rfl⟩ := Nat.exists_eq_add_of_le' W.1
    split at hs
    · rename_i hi
      cases hs
      refine ⟨h.next hi _, ?_⟩
      have hunborn := h.unborn (k + 1) (Nat.lt_succ_self k)
      refine lt_of_eq_of_lt (congrArg (· + _) (left_setPhase (by rw [hunborn]; rfl) _)) (Nat.add_lt_add_left ?_ _)
      simp only [mainLeft]
      omega
    · rename_i hi
      cases hs
      have heq : k = c.numProcs := le_antisymm hle (Nat.lt_succ_iff.mp (not_le.mp hi))
      subst heq
      refine ⟨h.goto _, Nat.add_lt_add_left ?_ (s.left c)⟩
      simp only [mainLeft]
      omega
  case h_2 hmain =>
    rw [hmain] at h ⊢
    cases hs
    refine ⟨h.goto _, Nat.add_lt_add_left ?_ (s.left c)⟩
    simp only [mainLeft]
    omega
  case h_3 i mix_sig hmain =>
    rw [hmain] at h ⊢
    obtain ⟨hi, ⟨⟩⟩ := Option.ite_none_left_eq_some.mp hs
    refine ⟨h.goto _, Nat.add_lt_add_left ?_ (s.left c)⟩
    simp only [mainLeft]
    omega
  case h_4 i mix_sig hmain =>
    rw [hmain] at h ⊢
    split at hs
    all_goals
      cases hs
      refine ⟨h.goto _, Nat.add_lt_add_left ?_ (s.left c)⟩
      simp only [mainLeft]
      omega
  case h_5 => cases hs

theorem wait_left (h : Begun c (created c s.main) s) (hs : stepWait c t s = some s') :
    Begun c (created c s'.main) s' ∧ s'.left c + mainLeft c s'.main < s.left c + mainLeft c s.main := by
  unfold stepWait at hs
  split at hs
  · rename_i i mix_sig hmain
    rw [hmain] at h ⊢
    obtain ⟨⟨hi, hreturned⟩, ⟨⟩⟩ := Option.ite_none_right_eq_some.mp hs
    refine ⟨h.setPhase (p := .reaped) (by simp [hreturned]) trivial _, ?_⟩
    refine lt_of_eq_of_lt (congrArg (· + _) (left_setPhase (by rw [hreturned]; rfl) _)) (Nat.add_lt_add_left ?_ _)
    simp only [mainLeft]
    omega
  · cases hs

theorem step_left (W : Waited c s) (h : Begun c (created c s.main) s) (hs : step c a s = some s') :
    Begun c (created c s'.main) s' ∧ s'.left c + mainLeft c s'.main < s.left c + mainLeft c s.main := by
  cases a with
  | main => exact main_left W h hs
  | wait t => exact wait_left h hs
  | child t =>
    obtain ⟨h', hlt⟩ := stepThread_cases h hs
    rw [(threadStep_of_step hs).main]
    exact ⟨h', Nat.add_lt_add_right hlt _⟩

theorem begun_of_reachable (h : (machine c).Reachable s) : Begun c (created c s.main) s := by
  refine (h.invariant (I := fun s => (machine c).Reachable s ∧ Begun c (created c s.main) s) ⟨.init, begun_start _⟩
    fun a s s' ⟨hs, hB⟩ _ hstep => ?_).2
  exact ⟨hs.step a trivial hstep, (step_left (waited_of_reach hs).1 hB hstep).1⟩

theorem goes_on (h : (machine c).Reachable s) : (∃ v, s.main = .printed v) ∨ ∃ a s', step c a s = some s' := by
  have hB := begun_of_reachable h
  have hW := (waited_of_reach h).1
  unfold Waited at hW
  cases hmain : s.main with
  | printed v => exact .inl ⟨v, rfl⟩
  | fork i | result i mix_sig =>
    refine .inr ⟨.main, ?_⟩
    simp only [step, stepMain, hmain]
    split <;> exact ⟨_, rfl⟩
  | first =>
    refine .inr ⟨.main, ?_⟩
    simp only [step, stepMain, hmain]
    exact ⟨_, rfl⟩
  | wait i mix_sig =>
    rw [hmain] at hB hW
    by_cases hi : i < c.numProcs
    · -- Not all children have been waited for, and one that has not goes on or can be waited for.
      obtain ⟨t, ht, hnot⟩ : ∃ t ∈ Finset.Icc 1 c.numProcs, t ∉ reaped c s := by
        refine Finset.exists_mem_notMem_of_card_lt_card ?_
        rwa [hW.2.1, Nat.card_Icc, Nat.add_sub_cancel]
      obtain ⟨h1, hn⟩ := Finset.mem_Icc.mp ht
      rcases (hB.begun t h1 hn).cases with hloop | hreturned | hreaped
      · obtain ⟨s', hs⟩ := exists_stepThread (c := c) hloop
        exact .inr ⟨.child t, s', hs⟩
      · refine .inr ⟨.wait t, ?_⟩
        simp only [step, stepWait, hmain, if_pos (And.intro hi hreturned)]
        exact ⟨_, rfl⟩
      · exact absurd (mem_reaped.mpr ⟨⟨h1, hn⟩, hreaped⟩) hnot
    · refine .inr ⟨.main, ?_⟩
      simp only [step, stepMain, hmain, if_neg hi]
      exact ⟨_, rfl⟩

theorem length_le {as : List Move} (hr : (machine c).run as (start c (.fork 1)) = some s) :
    as.length ≤ 5 * c.numProcs * c.maxLoop + 4 * c.numProcs + 4 := by
  have hlen : as.length + (s.left c + mainLeft c s.main) ≤ (start c (MainPc.fork 1)).left c + mainLeft c (.fork 1) :=
    length_le_of_measure (M := machine c) (I := (machine c).Reachable) (μ := fun s => s.left c + mainLeft c s.main)
      (fun a s s' h hs => h.step a trivial hs)
      (fun a s s' h hs => (step_left (waited_of_reach h).1 (begun_of_reachable h) hs).2) .init hr
  have hbound : c.numProcs * (5 * c.maxLoop + 1) = 5 * c.numProcs * c.maxLoop + c.numProcs := by ring
  rw [left_start, hbound] at hlen
  simp only [mainLeft] at hlen
  omega

/-- Without a start barrier the whole programs always print in the end, threads or processes: they never get stuck before,
    in whatever order the children end, and every run is bounded. -/
theorem prints_without_barrier (c : Config) :
    ((∀ s, (Start.machine .nobarrier c).Reachable s → (∃ v, s.main = .printed v) ∨
        ∃ a s', Start.step .nobarrier c a s = some s') ∧
      ∀ as s, (Start.machine .nobarrier c).run as (start c (.create 0)) = some s →
        as.length ≤ 5 * c.numProcs * c.maxLoop + 4 * c.numProcs + 4) ∧
    (∀ s, (machine c).Reachable s → (∃ v, s.main = .printed v) ∨ ∃ a s', step c a s = some s') ∧
      ∀ as s, (machine c).run as (start c (.fork 1)) = some s →
        as.length ≤ 5 * c.numProcs * c.maxLoop + 4 * c.numProcs + 4 := by
  refine ⟨⟨fun s hs => ?_, fun as s hr => Start.length_le hr⟩, fun s => goes_on, fun as s hr => length_le hr⟩
  obtain ⟨hB, hreaped⟩ := Start.begun_of_reachable hs
  exact Start.goes_on hB hreaped

end Racey.Forkmmap
