import Racey.Freqsyscall
import Racey.Theorems.Basic

/-! racey-freqsyscall mixes as racey-basic, provided that the divisor `MaxLoop/200` of its probe is not zero.
    The view of a state as one of racey-basic counts an iteration as soon as its mixing is done; the steps
    between two iterations do not change it. -/

namespace Racey.Freqsyscall
open Machine

variable {c : Config} {mem : Memory} {s s' : State} {t : ℕ}

/-! ### Steps -/

/-- The thread as one of racey-basic. -/
def Thread.basic (th : Thread) : Basic.Thread :=
  match th.pc with
  | .mix pc => ⟨th.i, pc⟩
  | _ => ⟨th.i + 1, .read1⟩

def State.basic (s : State) : Basic.State := ⟨fun t => (s.thread t).basic, s.mem⟩

/-- What a step is: an access to `m`, after which the thread mixes on or has finished an iteration; or a step
    between iterations. -/
inductive Step (c : Config) (t : ℕ) (s : State) : State → Prop
  | mix (pc : MixPc) (th : Thread) : (s.thread t).pc = .mix pc → (th.pc = .getuid ∨ ∃ pc', th.pc = .mix pc') →
      th.basic = ⟨pc.count (s.thread t).i, (pc.step t s.mem).1⟩ → th.i = (s.thread t).i →
      Step c t s ⟨Function.update s.thread t th, (pc.step t s.mem).2⟩
  | call : (∀ pc, (s.thread t).pc ≠ .mix pc) → (s.thread t).pc ≠ .undefined →
      Step c t s { s with thread := Function.update s.thread t ((s.thread t).call c) }

theorem step_cases (h : step c t s = some s') : Running c t s ∧ Step c t s s' := by
  simp only [step] at h
  split at h
  · rename_i hrun
    refine ⟨hrun, ?_⟩
    split at h
    · cases h
    · rename_i pc hpc
      cases h
      cases pc with
      | read1 => exact .mix _ _ hpc (.inr ⟨_, rfl⟩) rfl rfl
      | read2 num => exact .mix _ _ hpc (.inr ⟨_, rfl⟩) rfl rfl
      | write index2 num => exact .mix _ _ hpc (.inl rfl) rfl rfl
    · rename_i hdef hmix
      cases h
      exact .call hmix hdef
  · cases h

/-! ### What holds between iterations -/

/-- A thread in the middle of its system calls is in its loop, has done nothing undefined, and uses the page as
    its protection allows. -/
def Pc.Sound : Pc → Prop
  | .undefined => False
  | .setX x => x.prot = .readWrite
  | .getX x => x.prot = .read
  | _ => True

/-- Each thread is mixing, or is a running thread between two iterations. -/
def Sound (c : Config) (s : State) : Prop :=
  ∀ t, (∃ pc, (s.thread t).pc = .mix pc) ∨ (Running c t s ∧ (s.thread t).pc.Sound)

theorem Pc.Sound.call {th : Thread} (hc : c.maxLoop / 200 ≠ 0) (h : th.pc.Sound) :
    (∃ pc, (th.call c).pc = .mix pc) ∨ ((th.call c).pc.Sound ∧ (th.call c).i = th.i) := by
  cases hpc : th.pc with
  | mix pc => exact .inl ⟨pc, by simp [Thread.call, hpc]⟩
  | probe =>
    have hr : remainder th.i (c.maxLoop / 200) = some (th.i % (c.maxLoop / 200)) := if_neg hc
    simp only [Thread.call, hpc, hr]
    cases th.i % (c.maxLoop / 200) with
    | zero => exact .inr ⟨trivial, rfl⟩
    | succ k => exact .inl ⟨.read1, rfl⟩
  | setX x =>
    have hx : x.prot = .readWrite := by simpa [Pc.Sound, hpc] using h
    exact .inr (by simp [Thread.call, hpc, hx, Thread.goto, Pc.Sound])
  | getX x =>
    have hx : x.prot = .read := by simpa [Pc.Sound, hpc] using h
    exact .inr (by simp [Thread.call, hpc, hx, Thread.goto, Pc.Sound])
  | protectNone x => exact .inl ⟨.read1, by simp [Thread.call, hpc, Thread.again]⟩
  | undefined =>
    rw [hpc] at h
    exact h.elim
  | getuid => exact .inr (by simp [Thread.call, hpc, Thread.goto, Pc.Sound])
  | mmap => exact .inr (by simp [Thread.call, hpc, Thread.goto, Pc.Sound])
  | protectRead x => exact .inr (by simp [Thread.call, hpc, Thread.goto, Pc.Sound])

theorem Sound.step (hc : c.maxLoop / 200 ≠ 0) (h : Sound c s) (hs : step c t s = some s') : Sound c s' := by
  obtain ⟨hrun, hstep⟩ := step_cases hs
  intro u
  by_cases hu : u = t
  · subst hu
    cases hstep with
    | mix pc th hpc hth _ hi =>
      obtain hth | ⟨pc', hth⟩ := hth
      · exact .inr (by simpa [Running, hi, hth, Pc.Sound] using hrun)
      · exact .inl ⟨pc', by simpa using hth⟩
    | call hmix hdef =>
      have hsound : (s.thread u).pc.Sound := by
        obtain ⟨pc, hpc⟩ | ⟨-, hsound⟩ := h u
        · exact (hmix pc hpc).elim
        · exact hsound
      obtain ⟨pc, hpc⟩ | ⟨hsound, hi⟩ := hsound.call hc
      · exact .inl ⟨pc, by simpa using hpc⟩
      · exact .inr ⟨by simpa [Running, hi] using hrun, by simpa using hsound⟩
  · have hth : s'.thread u = s.thread u := by cases hstep <;> simp [hu]
    simpa only [Running, hth] using h u

theorem sound_of_run (hc : c.maxLoop / 200 ≠ 0) {bs : List ℕ}
    (hr : (machine c mem).run bs (start mem) = some s) : Sound c s :=
  (reachable_of_run hr).invariant (I := Sound c) (fun _ => .inl ⟨.read1, rfl⟩) fun _ _ _ h _ hs => h.step hc hs

theorem Sound.defined (h : Sound c s) : ¬ s.Undefined := by
  rintro ⟨t, ht⟩
  obtain ⟨pc, hpc⟩ | ⟨-, hsound⟩ := h t
  · rw [ht] at hpc
    cases hpc
  · rw [ht] at hsound
    exact hsound

/-! ### The view as a state of racey-basic -/

theorem basic_update {th : Thread} {mem' : Memory} :
    (⟨Function.update s.thread t th, mem'⟩ : State).basic =
      ⟨Function.update s.basic.thread t th.basic, mem'⟩ := by
  simp only [State.basic, Basic.State.mk.injEq, and_true]
  funext u
  by_cases hu : u = t
  · subst hu
    simp
  · simp [hu]

theorem Thread.basic_call {th : Thread} (hmix : ∀ pc, th.pc ≠ .mix pc) (hdef : th.pc ≠ .undefined) :
    (th.call c).basic = th.basic := by
  cases hpc : th.pc with
  | mix pc => exact (hmix pc hpc).elim
  | undefined => exact (hdef hpc).elim
  | probe =>
    simp only [Thread.call, hpc]
    cases remainder th.i (c.maxLoop / 200) with
    | none => simp [Thread.goto, Thread.basic, hpc]
    | some k => cases k <;> simp [Thread.goto, Thread.again, Thread.basic, hpc]
  | setX x => simp only [Thread.call, hpc]; split <;> simp [Thread.goto, Thread.basic, hpc]
  | getX x => simp only [Thread.call, hpc]; split <;> simp [Thread.goto, Thread.basic, hpc]
  | getuid | mmap | protectRead x | protectNone x =>
    simp [Thread.call, hpc, Thread.goto, Thread.again, Thread.basic]

/-- An access to `m` is the same step of racey-basic, and the other steps are none. -/
theorem basic_step (mem : Memory) (h : step c t s = some s') :
    (Basic.machine c mem).run (access t s).toList s.basic = some s'.basic := by
  obtain ⟨⟨h1, hn, hi⟩, hstep⟩ := step_cases h
  cases hstep with
  | mix pc th hpc _ hbasic _ =>
    have hb : s.basic.thread t = ⟨(s.thread t).i, pc⟩ := by simp [State.basic, Thread.basic, hpc]
    have hrun : Basic.Running c t s.basic := ⟨h1, hn, by rw [hb]; exact hi⟩
    have hs : Basic.step c t s.basic = some (⟨Function.update s.thread t th, (pc.step t s.mem).2⟩ : State).basic := by
      rw [Basic.step_eq_some, basic_update, hb, hbasic]
      exact ⟨hrun, rfl⟩
    simp only [access, hpc, Option.toList_some]
    exact run_cons_eq_some.mpr ⟨_, hs, rfl⟩
  | call hmix hdef =>
    have ha : access t s = none := by
      unfold access
      split
      · rename_i pc hpc
        exact (hmix pc hpc).elim
      · rfl
    rw [ha, basic_update, Thread.basic_call hmix hdef]
    have hthread : Function.update s.basic.thread t (s.thread t).basic = s.basic.thread :=
      Function.update_eq_self t s.basic.thread
    rw [hthread]
    rfl

theorem accesses_cons {bs : List ℕ} (hs : step c t s = some s') :
    accesses c mem (t :: bs) s = (access t s).toList ++ accesses c mem bs s' :=
  labels_cons (M := machine c mem) hs

theorem accesses_append {bs bs' : List ℕ} (hr : (machine c mem).run bs s = some s') :
    accesses c mem (bs ++ bs') s = accesses c mem bs s ++ accesses c mem bs' s' :=
  labels_append hr

theorem basic_of_run {bs : List ℕ} {s₀ : State} (hr : (machine c mem).run bs s₀ = some s) :
    (Basic.machine c mem).run (accesses c mem bs s₀) s₀.basic = some s.basic := by
  obtain ⟨_, hy, rfl⟩ := run_simulates (N := Basic.machine c mem) (l := access)
    (R := fun s x => x = s.basic) (fun a s t x hR hs => ⟨t.basic, by rw [hR]; exact basic_step mem hs, rfl⟩) rfl hr
  exact hy

/-! ### Following racey-basic -/

/-- How many steps a thread is away from its next access, at most. -/
def Pc.distance : Pc → ℕ
  | .mix _ => 0
  | .getuid => 7
  | .probe => 6
  | .mmap => 5
  | .setX _ => 4
  | .protectRead _ => 3
  | .getX _ => 2
  | .protectNone _ | .undefined => 1

theorem Pc.distance_call {th : Thread} (hmix : ∀ pc, th.pc ≠ .mix pc) (hsound : th.pc.Sound)
    (hc : c.maxLoop / 200 ≠ 0) : (th.call c).pc.distance < th.pc.distance := by
  cases hpc : th.pc with
  | mix pc => exact (hmix pc hpc).elim
  | undefined =>
    rw [hpc] at hsound
    exact hsound.elim
  | probe =>
    have hr : remainder th.i (c.maxLoop / 200) = some (th.i % (c.maxLoop / 200)) := if_neg hc
    simp only [Thread.call, hpc, hr]
    cases th.i % (c.maxLoop / 200) <;> simp [Thread.goto, Thread.again, Pc.distance]
  | setX x =>
    have hx : x.prot = .readWrite := by simpa [Pc.Sound, hpc] using hsound
    simp [Thread.call, hpc, hx, Thread.goto, Pc.distance]
  | getX x =>
    have hx : x.prot = .read := by simpa [Pc.Sound, hpc] using hsound
    simp [Thread.call, hpc, hx, Thread.goto, Pc.distance]
  | getuid | mmap | protectRead x | protectNone x =>
    simp [Thread.call, hpc, Thread.goto, Thread.again, Pc.distance]

theorem step_of_call (hrun : Running c t s) (hmix : ∀ pc, (s.thread t).pc ≠ .mix pc)
    (hdef : (s.thread t).pc ≠ .undefined) :
    step c t s = some { s with thread := Function.update s.thread t ((s.thread t).call c) } ∧ access t s = none := by
  cases hpc : (s.thread t).pc with
  | mix pc => exact (hmix pc hpc).elim
  | undefined => exact (hdef hpc).elim
  | _ => simp [step, access, hrun, hpc]

/-- A thread between two iterations reaches its next one by itself, without an access to `m`. -/
theorem exists_run_to_mix (mem : Memory) (hc : c.maxLoop / 200 ≠ 0) (t : ℕ) : ∀ k s, Sound c s → (s.thread t).pc.distance = k →
    ∃ bs s', (machine c mem).run bs s = some s' ∧ accesses c mem bs s = [] ∧ s'.basic = s.basic ∧ Sound c s' ∧
      (∃ pc, (s'.thread t).pc = .mix pc) ∧ ∀ u ≠ t, s'.thread u = s.thread u := by
  intro k
  induction k using Nat.strongRecOn with
  | ind k ih =>
    intro s hsound hk
    obtain hmix | ⟨hrun, hpc⟩ := hsound t
    · exact ⟨[], s, rfl, rfl, rfl, hsound, hmix, fun _ _ => rfl⟩
    · by_cases hmix : ∃ pc, (s.thread t).pc = .mix pc
      · exact ⟨[], s, rfl, rfl, rfl, hsound, hmix, fun _ _ => rfl⟩
      · have hmix' : ∀ pc, (s.thread t).pc ≠ .mix pc := fun pc hpc => hmix ⟨pc, hpc⟩
        have hdef : (s.thread t).pc ≠ .undefined := fun heq => by
          rw [heq] at hpc
          exact hpc
        obtain ⟨hs, ha⟩ := step_of_call hrun hmix' hdef
        have hlt := Pc.distance_call (c := c) hmix' hpc hc
        obtain ⟨bs, s', hr, hl, hb, hsound', hend, hother⟩ := ih _ (hk ▸ hlt) _ (hsound.step hc hs) (by simp)
        refine ⟨t :: bs, s', run_cons_eq_some.mpr ⟨_, hs, hr⟩, ?_, ?_, hsound', hend, fun u hu => ?_⟩
        · rw [accesses_cons hs, ha, hl]
          rfl
        · have hb' := basic_step mem hs
          rw [ha] at hb'
          exact hb.trans (Option.some.inj hb').symm
        · rw [hother u hu]
          exact Function.update_of_ne hu _ _

/-- The threads below `n` all reach their next iterations. -/
theorem exists_run_to_mix_below (mem : Memory) (hc : c.maxLoop / 200 ≠ 0) (hsound : Sound c s) (n : ℕ) :
    ∃ bs s', (machine c mem).run bs s = some s' ∧ accesses c mem bs s = [] ∧ s'.basic = s.basic ∧ Sound c s' ∧
      ∀ t < n, ∃ pc, (s'.thread t).pc = .mix pc := by
  induction n with
  | zero => exact ⟨[], s, rfl, rfl, rfl, hsound, by simp⟩
  | succ n ih =>
    obtain ⟨bs₁, s₁, hr₁, hl₁, hb₁, hsound₁, hbelow⟩ := ih
    obtain ⟨bs₂, s₂, hr₂, hl₂, hb₂, hsound₂, hend, hother⟩ :=
      exists_run_to_mix mem hc n _ s₁ hsound₁ rfl
    refine ⟨bs₁ ++ bs₂, s₂, run_append_eq_some.mpr ⟨s₁, hr₁, hr₂⟩, ?_, hb₂.trans hb₁, hsound₂, fun t ht => ?_⟩
    · rw [accesses_append hr₁, hl₁, hl₂]
      rfl
    · obtain rfl | hlt := (Nat.lt_succ_iff_lt_or_eq.mp ht).symm
      · exact hend
      · rw [hother t hlt.ne]
        exact hbelow t hlt

/-- Each access of racey-basic can be made here, after the thread's system calls. -/
theorem follow_step (mem : Memory) (hc : c.maxLoop / 200 ≠ 0) {b : ℕ} {y : Basic.State} (hsound : Sound c s)
    (hs : Basic.step c b s.basic = some y) :
    ∃ bs s', (machine c mem).run bs s = some s' ∧ accesses c mem bs s = [b] ∧ Sound c s' ∧ s'.basic = y := by
  obtain ⟨bs, s₁, hr, hl, hb, hsound₁, ⟨pc, hpc⟩, -⟩ := exists_run_to_mix mem hc b _ s hsound rfl
  rw [← hb] at hs
  have hrun : Running c b s₁ := by
    have := (Basic.step_eq_some.mp hs).1
    simpa [Basic.Running, Running, State.basic, Thread.basic, hpc] using this
  obtain ⟨s₂, hs₂⟩ : ∃ s₂, step c b s₁ = some s₂ := by simp [step, hrun, hpc]
  have ha : access b s₁ = some b := by simp [access, hpc]
  refine ⟨bs ++ [b], s₂, run_append_eq_some.mpr ⟨s₁, hr, run_cons_eq_some.mpr ⟨s₂, hs₂, rfl⟩⟩, ?_,
    hsound₁.step hc hs₂, ?_⟩
  · rw [accesses_append hr, hl, accesses_cons hs₂, ha]
    rfl
  · have hb₂ := basic_step mem hs₂
    rw [ha] at hb₂
    obtain ⟨z, hz, hz'⟩ := run_cons_eq_some.mp hb₂
    have hzy : some z = some y := (show Basic.step c b s₁.basic = some z from hz).symm.trans hs
    cases hzy
    exact (Option.some.inj hz').symm

/-! ### The divisor -/

/-- With the divisor 0 nobody gets past the first probe. -/
theorem stuck_of_run (hc : c.maxLoop / 200 = 0) {bs : List ℕ}
    (hr : (machine c mem).run bs (start mem) = some s) (t : ℕ) :
    (s.thread t).i = 0 ∧ ((∃ pc, (s.thread t).pc = .mix pc) ∨ (s.thread t).pc = .getuid ∨ (s.thread t).pc = .probe ∨
      (s.thread t).pc = .undefined) := by
  refine (reachable_of_run hr).invariant (I := fun s => ∀ t, (s.thread t).i = 0 ∧ ((∃ pc, (s.thread t).pc = .mix pc) ∨
    (s.thread t).pc = .getuid ∨ (s.thread t).pc = .probe ∨ (s.thread t).pc = .undefined))
    (fun _ => ⟨rfl, .inl ⟨.read1, rfl⟩⟩) (fun a s s' h _ hs u => ?_) t
  by_cases hu : u = a
  · subst hu
    obtain ⟨hi, hpc⟩ := h u
    obtain ⟨-, hstep⟩ := step_cases hs
    cases hstep with
    | mix pc th _ hth _ hi' =>
      refine ⟨by simpa [hi'] using hi, ?_⟩
      obtain hth | ⟨pc', hth⟩ := hth
      · exact .inr (.inl (by simpa using hth))
      · exact .inl ⟨pc', by simpa using hth⟩
    | call hmix hdef =>
      have hr : remainder 0 (c.maxLoop / 200) = none := if_pos hc
      obtain ⟨pc, hpc⟩ | hpc | hpc | hpc := hpc
      · exact (hmix pc hpc).elim
      · simp [Thread.call, hpc, Thread.goto, hi]
      · simp [Thread.call, hpc, hi, hr, Thread.goto]
      · exact (hdef hpc).elim
  · have hth : s'.thread u = s.thread u := by
      obtain ⟨-, hstep⟩ := step_cases hs
      cases hstep <;> simp [hu]
    rw [hth]
    exact h u

/-! ### The comparison with racey-basic -/

theorem mixesAs_of_le (hc : 200 ≤ c.maxLoop) {as : List ℕ} {u : Basic.State}
    (hu : (Basic.machine c mem).run as (Basic.start mem) = some u) (hdone : Basic.Complete c u) :
    MixesAs c mem as u := by
  have hc' : c.maxLoop / 200 ≠ 0 := by omega
  refine ⟨fun bs s hr _ => (sound_of_run hc' hr).defined, fun bs s hr hpre => ?_, fun bs s hr hl _ => ?_⟩
  · obtain ⟨cs, rfl⟩ := hpre
    have hb := basic_of_run hr
    obtain ⟨y, hy, hrest⟩ := run_append_eq_some.mp hu
    have hsy : some s.basic = some y := (show _ = some s.basic from hb).symm.trans hy
    cases hsy
    -- The rest of the interleaving, and then the system calls that are left.
    obtain ⟨bs₁, s₁, hr₁, hl₁, hsound₁, hb₁⟩ := exists_run_of_answer (M := machine c mem) (l := access)
      (R := fun s x => Sound c s ∧ s.basic = x)
      (fun b x y s hR hs => follow_step mem hc' hR.1 (by rw [hR.2]; exact hs))
      ⟨sound_of_run hc' hr, rfl⟩ hrest
    obtain ⟨bs₂, s₂, hr₂, hl₂, hb₂, -, hmix⟩ := exists_run_to_mix_below mem hc' hsound₁ (c.numProcs + 1)
    refine ⟨bs₁ ++ bs₂, s₂, run_append_eq_some.mpr ⟨s₁, hr₁, hr₂⟩, ?_, fun t h1 hn => ?_⟩
    · rw [accesses_append hr, accesses_append hr₁, hl₂, List.append_nil]
      exact congrArg _ hl₁
    · obtain ⟨pc, hpc⟩ := hmix t (by omega)
      have := hdone t h1 hn
      rw [← hb₁, ← hb₂] at this
      simpa [State.basic, Thread.basic, hpc] using this
  · have hb := basic_of_run hr
    rw [hl] at hb
    have hsu : some s.basic = some u := hb.symm.trans hu
    cases hsu
    exact ⟨rfl, rfl⟩

/-- racey-freqsyscall mixes exactly as racey-basic under the same interleaving if and only if the loop count is
    at least 200, so that the probe does not divide by zero. -/
theorem mixes_as_basic_iff (hc : c.Accepted) {as : List ℕ} {u : Basic.State}
    (hu : (Basic.machine c mem).run as (Basic.start mem) = some u) (hdone : Basic.Complete c u) :
    MixesAs c mem as u ↔ 200 ≤ c.maxLoop := by
  refine ⟨fun h => ?_, fun h => mixesAs_of_le h hu hdone⟩
  by_contra hlt
  obtain ⟨bs, s, hr, -, hend⟩ := h.completes [] (start mem) rfl (List.nil_prefix)
  have hi := (stuck_of_run (by omega) hr 1).1
  have := hend 1 (by omega) hc.numProcs_pos
  have := hc.maxLoop_pos
  omega

/-- Two threads that take turns access by access, 200 iterations each. -/
theorem mixes_as_basic_two : ∃ as u, (Basic.machine ⟨2, 200⟩ .init).run as (Basic.start .init) = some u ∧
    MixesAs ⟨2, 200⟩ .init as u := by
  obtain ⟨u, hu, hp⟩ := (Option.any_eq_true (fun u : Basic.State => decide ((u.thread 1).i = 200 ∧ (u.thread 2).i = 200)) _).mp
    (by decide +kernel : ((Basic.machine ⟨2, 200⟩ .init).run (List.replicate 600 [1, 2]).flatten (Basic.start .init)).any _ = true)
  obtain ⟨h1, h2⟩ := of_decide_eq_true hp
  refine ⟨_, u, hu, (mixes_as_basic_iff ⟨by decide, by decide, by decide⟩ hu fun t ht hn => ?_).mpr le_rfl⟩
  obtain rfl | rfl : t = 1 ∨ t = 2 := by simp only at hn; omega
  · exact h1
  · exact h2

/-- One thread and one iteration: after its three accesses the thread divides by zero. -/
theorem divides_by_zero : ∃ u, (Basic.machine ⟨1, 1⟩ .init).run [1, 1, 1] (Basic.start .init) = some u ∧
    Basic.Complete ⟨1, 1⟩ u ∧ ¬ MixesAs ⟨1, 1⟩ .init [1, 1, 1] u := by
  obtain ⟨u, hu, hp⟩ := (Option.any_eq_true (fun u : Basic.State => decide ((u.thread 1).i = 1)) _).mp
    (by decide +kernel : ((Basic.machine ⟨1, 1⟩ .init).run [1, 1, 1] (Basic.start .init)).any _ = true)
  obtain ⟨s, hs, hundef⟩ := (Option.any_eq_true (fun s : State => decide ((s.thread 1).pc = .undefined)) _).mp
    (by decide +kernel : ((machine ⟨1, 1⟩ .init).run [1, 1, 1, 1, 1] (start .init)).any _ = true)
  have haccesses : accesses ⟨1, 1⟩ .init [1, 1, 1, 1, 1] (start .init) = [1, 1, 1] := by decide +kernel
  refine ⟨u, hu, fun t h1 hn => ?_, fun h => ?_⟩
  · obtain rfl : t = 1 := Nat.le_antisymm hn h1
    exact of_decide_eq_true hp
  · exact h.defined _ s hs (haccesses ▸ List.prefix_rfl) ⟨1, of_decide_eq_true hundef⟩

end Racey.Freqsyscall
