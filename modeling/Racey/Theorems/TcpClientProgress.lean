import Mathlib.Data.Fintype.EquivFin
import Mathlib.Tactic.Ring
import Racey.Theorems.TcpClient

/-! racey-tcp-client comes to an end. Each thread has so many steps to make, and a call that fails saves it the rest; while
    `main` has not returned, somebody can make a step that does not fail. -/

namespace Racey.TcpClient
open Machine Holders

variable {s s' : State} {d : List (ℕ × ℕ)} {a : Move} {w n : ℕ}

/-! ### The steps that are left -/

/-- How many steps a thread has still to make if no call fails. -/
def Pc.left : Pc → ℕ
  | .unborn => 4 * quotes.length + 1
  | .socket n => 4 * (quotes.length - n) + 1
  | .connect n _ => 4 * (quotes.length - n)
  | .write n _ => 4 * (quotes.length - n) - 1
  | .close n _ => 4 * (quotes.length - n) + 2
  | .returned _ _ => 0

def MainPc.left : MainPc → ℕ
  | .creating i => workerNum - i + workerNum + 2
  | .joining i => workerNum - i + 1
  | .returned => 0

def left (s : State) : ℕ := s.main.left + ∑ w ∈ Finset.range workerNum, (s.worker w).left

/-- What is left changes by what changes for the thread that makes a step. -/
theorem left_setWorker (hw : w < workerNum) (hmain : s'.main = s.main) (pc : Pc)
    (hworker : s'.worker = Function.update s.worker w pc) : left s' + (s.worker w).left = left s + pc.left := by
  have hsum := sum_change (S := Finset.range workerNum) (f := fun v => (s.worker v).left) (g := fun v => (s'.worker v).left)
    (i := w) (Finset.mem_range.mpr hw) fun v hv => by
      show (s'.worker v).left = (s.worker v).left
      rw [hworker, Function.update_of_ne hv]
  have hself : s'.worker w = pc := by rw [hworker, Function.update_self]
  simp only [hself] at hsum
  simp only [left, hmain]
  omega

/-- A step lowers what is left by one, or by more where it is a call that fails. -/
def Down (a : Move) (before after : ℕ) : Prop := after + 1 ≤ before ∧ (¬ a.Fails → after + 1 = before)

theorem Down.of_eq {before after : ℕ} (h : after + 1 = before) : Down a before after := ⟨h.le, fun _ => h⟩

/-- It is enough to look at the thread that makes the step. -/
theorem left_thread (I : Inv s d) {pc : Pc} (hborn : s.worker w ≠ .unborn) (hmain : s'.main = s.main)
    (hworker : s'.worker = Function.update s.worker w pc) (hdown : Down a (s.worker w).left pc.left) :
    Down a (left s) (left s') := by
  have hleft := left_setWorker ((I.party w).born hborn) hmain pc hworker
  obtain ⟨hle, heq⟩ := hdown
  refine ⟨by omega, fun ha => ?_⟩
  have := heq ha
  omega

theorem left_main {pc : MainPc} (hpc : pc.left + 1 = s.main.left) : Down a (left s) (left { s with main := pc }) := by
  refine .of_eq ?_
  simp only [left]
  omega

theorem left_create {i : ℕ} (hmain : s.main = .creating i) (hi : i < workerNum) (hpc : s.worker i = .unborn) :
    Down a (left s) (left { s.setWorker i (.socket 0) with main := .creating (i + 1) }) := by
  have hset := @left_setWorker s (s.setWorker i (.socket 0)) i hi rfl (.socket 0) rfl
  rw [hpc] at hset
  have hsame : left (s.setWorker i (.socket 0)) = left s := Nat.add_right_cancel hset
  rw [← hsame]
  refine left_main ?_
  show _ = s.main.left
  rw [hmain]
  simp only [MainPc.left]
  omega

theorem left_step (I : Inv s d) (H : Phase s) (h : Step s a s') : Down a (left s) (left s') := by
  cases h with
  | create i hmain hi => exact left_create hmain hi ((H.unborn_iff i).mpr (by rw [hmain]; exact le_refl i))
  | created i hmain hi =>
    have hle := H.created_le
    rw [hmain] at hle
    have hi : i = workerNum := le_antisymm hle hi
    exact left_main (by simp only [hmain, MainPc.left]; omega)
  | join i n lost hmain hi hw => exact left_main (by simp only [hmain, MainPc.left]; omega)
  | joined i hmain hi => exact left_main (by simp only [hmain, MainPc.left]; omega)
  | socket w n fd hpc hquote hfd =>
    refine left_thread I (w := w) (by simp [hpc]) rfl rfl ?_
    rw [hpc]
    exact .of_eq rfl
  | socketFails w n hpc =>
    refine left_thread I (w := w) (by simp [hpc]) rfl rfl ⟨?_, absurd trivial⟩
    rw [hpc]
    simp only [Pc.left]
    omega
  | connect w n fd hpc =>
    have hn := (I.party w).bounded
    refine left_thread I (w := w) (by simp [hpc]) rfl rfl (.of_eq ?_)
    rw [hpc] at hn ⊢
    simp only [Pc.left, Pc.Bounded] at hn ⊢
    omega
  | connectFails w n fd hpc =>
    have hn := (I.party w).bounded
    refine left_thread I (w := w) (by simp [hpc]) rfl rfl ⟨?_, absurd trivial⟩
    rw [hpc] at hn ⊢
    simp only [Pc.left, Pc.Bounded] at hn ⊢
    omega
  | write w n k fd hpc hfd =>
    have hn := (I.party w).bounded
    refine left_thread I (w := w) (by simp [hpc]) rfl rfl (.of_eq ?_)
    rw [hpc] at hn ⊢
    simp only [Pc.left, Pc.Bounded, Pc.made] at hn ⊢
    omega
  | close w n k fd hpc hfd =>
    refine left_thread I (w := w) (by simp [hpc]) rfl rfl ?_
    rw [hpc]
    exact .of_eq rfl
  | leave w n hpc hquote =>
    refine left_thread I (w := w) (by simp [hpc]) rfl rfl (.of_eq ?_)
    rw [hpc]
    simp only [Pc.left, Nat.sub_eq_zero_of_le (length_le_of_quote hquote)]

/-! ### Somebody can go on -/

/-- There is a descriptor that is not open. -/
theorem Inv.exists_free (I : Inv s d) : ∃ fd : ℤ, 0 ≤ fd ∧ s.conn fd = none := by
  obtain ⟨m, hm⟩ := Infinite.exists_notMem_finset
    ((Finset.range workerNum).image fun w => (((s.worker w).fd).getD 0).toNat)
  refine ⟨m, Int.natCast_nonneg m, ?_⟩
  by_contra hopen
  obtain ⟨w, hw⟩ := (I.owned.live_iff (m : ℤ)).mp hopen
  have hlt := (I.party w).born fun hpc => by
    rw [hpc] at hw
    cases hw
  refine hm (Finset.mem_image.mpr ⟨w, Finset.mem_range.mpr hlt, ?_⟩)
  rw [show (s.worker w).fd = some (m : ℤ) from hw]
  rfl

/-- Some step that does not fail can be made. -/
def Goes (s : State) : Prop := ∃ a, ¬ a.Fails ∧ (step a s).isSome

/-- A thread that has not returned can go on. -/
theorem goes_of_thread (I : Inv s d) (hpc : ¬ (s.worker w).Still) : Goes s := by
  cases hw : s.worker w with
  | unborn => exact absurd (.inl hw) hpc
  | returned n lost => exact absurd (.inr ⟨n, lost, hw⟩) hpc
  | socket n =>
    by_cases hquote : quote n = []
    · exact ⟨.leave w, id, by simp [step, hw, hquote]⟩
    · obtain ⟨fd, hpos, hfd⟩ := I.exists_free
      exact ⟨.socket w fd, id, by simp [step, hw, hquote, hpos, hfd]⟩
  | connect n fd => exact ⟨.connect w, id, by simp [step, hw]⟩
  | write n fd =>
    obtain ⟨k, -, hfd, -⟩ := (I.party w).carries n fd [] (by rw [hw]; rfl)
    exact ⟨.write w, id, by simp [step, hw, hfd]⟩
  | close n fd =>
    obtain ⟨k, -, hfd, -⟩ := (I.party w).carries (n - 1) fd (message (n - 1)) (by rw [hw]; rfl)
    exact ⟨.close w, id, by simp [step, hw, hfd]⟩

theorem goes_of_main (I : Inv s d) (H : Phase s) (hmain : s.main ≠ .returned) : Goes s := by
  cases hpc : s.main with
  | returned => exact absurd hpc hmain
  | creating i =>
    refine ⟨.main, id, ?_⟩
    simp only [step, stepMain, hpc]
    split <;> rfl
  | joining i =>
    by_cases hi : i < workerNum
    · by_cases hstill : (s.worker i).Still
      · rcases hstill with hw | ⟨n, lost, hw⟩
        · have hlt := (H.unborn_iff i).mp hw
          rw [hpc] at hlt
          exact absurd hi (not_lt.mpr hlt)
        · exact ⟨.main, id, by simp [step, stepMain, hpc, hi, hw]⟩
      · exact goes_of_thread I hstill
    · exact ⟨.main, id, by simp [step, stepMain, hpc, hi]⟩

/-! ### The end -/

/-- Nobody has given up. -/
def Unfailed (s : State) : Prop := ∀ w n lost, s.worker w = .returned n lost → n = quotes.length ∧ lost = none

theorem Unfailed.step (U : Unfailed s) (I : Inv s d) (ha : ¬ a.Fails) (h : Step s a s') : Unfailed s' := by
  have hset : ∀ {w pc}, (∀ n lost, pc = .returned n lost → n = quotes.length ∧ lost = none) →
      ∀ v n lost, Function.update s.worker w pc v = .returned n lost → n = quotes.length ∧ lost = none := by
    intro w pc hpc v n lost hv
    by_cases heq : v = w
    · rw [heq, Function.update_self] at hv
      exact hpc n lost hv
    · rw [Function.update_of_ne heq] at hv
      exact U v n lost hv
  cases h with
  | created | join | joined => exact U
  | create | socket | connect | write | close => exact hset (by simp)
  | socketFails | connectFails => exact absurd trivial ha
  | leave w n hpc hquote =>
    refine hset fun m lost heq => ?_
    cases heq
    have hn := (I.party w).bounded
    rw [hpc] at hn
    exact ⟨le_antisymm hn (length_le_of_quote hquote), rfl⟩

/-- What every step keeps, and what the steps that do not fail keep. -/
def Going (s : State) : Prop := ∃ d, Inv s d ∧ Phase s

theorem going_start : Going start := ⟨[], inv_start, phase_start⟩

theorem Going.step (G : Going s) (hs : step a s = some s') : Going s' := by
  obtain ⟨d, I, H⟩ := G
  exact ⟨_, I.step H (step_cases hs), H.step (step_cases hs)⟩

theorem unfailed_start : Unfailed start := by simp [Unfailed, start]

theorem Going.unfailed (G : Going s) (U : Unfailed s) (ha : ¬ a.Fails) (hs : TcpClient.step a s = some s') :
    Going s' ∧ Unfailed s' := by
  obtain ⟨d, I, H⟩ := G
  exact ⟨⟨_, I.step H (step_cases hs), H.step (step_cases hs)⟩, U.step I ha (step_cases hs)⟩

theorem Going.left (G : Going s) (hs : TcpClient.step a s = some s') : Down a (left s) (TcpClient.left s') := by
  obtain ⟨d, I, H⟩ := G
  exact left_step I H (step_cases hs)

theorem Going.returned (G : Going s) (hmain : s.main = .returned) (hw : w < workerNum) :
    ∃ n lost, s.worker w = .returned n lost := by
  obtain ⟨d, I, H⟩ := G
  exact H.joined w (by rwa [hmain])

theorem Going.allSent (G : Going s) (U : Unfailed s) (hmain : s.main = .returned) : AllSent s := by
  intro w hw
  obtain ⟨n, lost, hpc⟩ := G.returned hmain hw
  obtain ⟨rfl, rfl⟩ := U w n lost hpc
  exact hpc

/-- Whoever goes on is `main`, or a thread that has not returned. -/
theorem Step.mover (h : Step s a s') : a = .main ∧ s.main ≠ .returned ∨ ∃ w, ¬ (s.worker w).Still := by
  cases h with
  | create i hmain | created i hmain | join i n lost hmain | joined i hmain => exact .inl ⟨rfl, by simp [hmain]⟩
  | socket w n fd hpc | connect w n fd hpc | connectFails w n fd hpc | write w n k fd hpc | close w n k fd hpc
  | socketFails w n hpc | leave w n hpc => exact .inr ⟨w, by simp [hpc, Pc.Still]⟩

/-- Once `main` has returned, nobody can go on. -/
theorem Going.stuck (G : Going s) (hmain : s.main = .returned) (a : Move) : TcpClient.step a s = none := by
  have hstill : ∀ w, (s.worker w).Still := fun w => by
    rcases lt_or_ge w workerNum with hw | hw
    · exact .inr (G.returned hmain hw)
    · obtain ⟨d, I, H⟩ := G
      exact .inl ((H.unborn_iff w).mpr (by rwa [hmain]))
  refine Option.eq_none_iff_forall_ne_some.mpr fun t hs => ?_
  rcases (step_cases hs).mover with ⟨-, hne⟩ | ⟨w, hw⟩
  · exact hne hmain
  · exact hw (hstill w)

theorem left_start : left start = workerNum * (4 * quotes.length + 3) + 2 := by
  simp only [left, start, MainPc.left, Pc.left, Finset.sum_const, Finset.card_range, nsmul_eq_mul, Nat.cast_id, Nat.sub_zero]
  ring

/-- Every run of the client is bounded. One that cannot be continued has come to the return of `main`; and if no call has
    failed on the way, each thread has sent all quotes, in a number of steps that does not depend on the order of these. -/
theorem run_ends {as : List Move} (hr : machine.run as start = some s) :
    as.length ≤ workerNum * (4 * quotes.length + 3) + 2 ∧ ((∀ a, step a s = none) → s.main = .returned ∧
      ((∀ a ∈ as, ¬ a.Fails) → AllSent s ∧ as.length = workerNum * (4 * quotes.length + 3) + 2)) := by
  have G : Going s := invariant_of_run (I := Going) (fun a s t G (_ : True) hs => G.step hs) (fun _ _ => trivial) going_start hr
  refine ⟨?_, fun hstuck => ?_⟩
  · have hlength := length_le_of_measure (I := Going) (fun a s t G hs => G.step hs) (fun a s t G hs => (G.left hs).1)
      going_start hr
    rw [left_start] at hlength
    exact (Nat.le_add_right _ _).trans hlength
  have hmain : s.main = .returned := by
    by_contra hne
    obtain ⟨d, I, H⟩ := G
    obtain ⟨a, -, ha⟩ := goes_of_main I H hne
    rw [hstuck a] at ha
    cases ha
  refine ⟨hmain, fun hok => ⟨?_, ?_⟩⟩
  · obtain ⟨-, U⟩ := invariant_of_run (fun a s t (hI : Going s ∧ Unfailed s) (ha : ¬ a.Fails) hs => hI.1.unfailed hI.2 ha hs)
      hok ⟨going_start, unfailed_start⟩ hr
    exact G.allSent U hmain
  · have hlength := length_eq_of_measure (I := Going) (fun a s t G _ hs => G.step hs)
      (fun a s t G (ha : ¬ a.Fails) hs => (G.left hs).2 ha) hok going_start hr
    have hleft : left s = 0 := by
      refine (congrArg₂ _ (by rw [hmain]; rfl) (Finset.sum_eq_zero fun w hw => ?_)).trans (Nat.zero_add 0)
      obtain ⟨n, lost, hpc⟩ := G.returned hmain (Finset.mem_range.mp hw)
      rw [hpc]
      rfl
    rw [hleft, Nat.add_zero] at hlength
    exact hlength.trans left_start

/-- There is a run on which no call fails and `main` returns. -/
theorem exists_unfailed_run : ∃ as s, machine.run as start = some s ∧ (∀ a ∈ as, ¬ a.Fails) ∧ (Going s ∧ Unfailed s) ∧
    s.main = .returned := by
  obtain ⟨as, s, hok, hr, hI, hmain⟩ := exists_run_of_kind (M := machine) (I := fun s => Going s ∧ Unfailed s)
    (Q := fun s => s.main = .returned) (μ := left) (fun s ⟨G, U⟩ hne => by
      obtain ⟨d, I, H⟩ := id G
      obtain ⟨a, ha, hs⟩ := goes_of_main I H hne
      obtain ⟨t, hs⟩ := Option.isSome_iff_exists.mp hs
      exact ⟨a, t, ha, hs, G.unfailed U ha hs, (G.left hs).1⟩) ⟨going_start, unfailed_start⟩
  exact ⟨as, s, hr, hok, hI, hmain⟩

/-- On a run on which no call fails. -/
theorem run_ends_unfailed : ∃ as s, machine.run as start = some s ∧ AllSent s ∧
    as.length = workerNum * (4 * quotes.length + 3) + 2 := by
  obtain ⟨as, s, hr, hok, ⟨G, -⟩, hmain⟩ := exists_unfailed_run
  exact ⟨as, s, hr, ((run_ends hr).2 (G.stuck hmain)).2 hok⟩

end Racey.TcpClient
