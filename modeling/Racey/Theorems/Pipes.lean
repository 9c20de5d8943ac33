import Racey.Pipes

/-! What a program can print that does what the pipes do. -/

namespace Racey.Pipes
open Forkpipe (digest fill message mixInt target)
open Machine

variable {c : Config} {cap : ℕ → ℕ} {s : State} {t : ℕ}

/-! ### Steps that can be taken -/

theorem stepRead_eq_some {num : ℤ} (ht : 1 ≤ t ∧ t ≤ c.numProcs) (hr : s.reader t = ⟨num, false⟩) (hb : s.buf t ≠ []) :
    stepRead c t s = some { s with
      reader := Function.update s.reader t ⟨digest num ((s.buf t).take 128), false⟩
      buf := Function.update s.buf t ((s.buf t).drop 128) } := by
  rw [stepRead, if_pos ⟨ht, by rw [hr], hb⟩, hr]

theorem stepEof_eq_some {num : ℤ} (ht : 1 ≤ t ∧ t ≤ c.numProcs) (hr : s.reader t = ⟨num, false⟩) (hb : s.buf t = [])
    (hsent : s.Sent c) :
    stepEof c t s = some { s with reader := Function.update s.reader t ⟨digest num [], true⟩ } := by
  rw [stepEof, if_pos ⟨ht, by rw [hr], hb, hsent⟩, hr]

theorem stepWrite_eq_some {num : ℤ} {i k : ℕ} (ht : 1 ≤ t ∧ t ≤ c.numProcs) (hw : s.writer t = ⟨num, i⟩)
    (hi : i < c.maxLoop) (hk : k = target c (fill num).2)
    (hroom : (s.buf k).length + (message num).bytes.length ≤ cap k) :
    stepWrite c cap t s = some { s with
      writer := Function.update s.writer t ⟨mixInt (fill num).2 (message num).bytes.length, i + 1⟩
      buf := Function.update s.buf k (s.buf k ++ (message num).bytes) } := by
  simp only [stepWrite, hw, ← hk]
  exact if_pos ⟨ht, hi, hroom⟩

/-! ### Programs that do what the pipes do -/

/-- Nothing happens once all messages have been sent and read. -/
theorem Complete.step_eq_none (h : Complete c s) (a : Move) : step c cap a s = none := by
  obtain ⟨hdone, hsent⟩ := h
  cases a with
  | write t =>
    refine if_neg ?_
    rintro ⟨⟨h1, hn⟩, hi, -⟩
    exact absurd (hsent t h1 hn) hi.ne
  | read t | eof t =>
    refine if_neg ?_
    rintro ⟨⟨h1, hn⟩, hnot, -⟩
    rw [hdone t h1 hn] at hnot
    cases hnot

section Implements
variable {σ α : Type} {M : Machine σ α} {view : σ → State} {μ : σ → ℕ} {printed : σ → ℤ → Prop}

/-- A program that does what the pipes do, never gets stuck before it prints, and prints what the digests of the readers
    amount to, can print just these values. -/
theorem outcomes_of_implements (H : Implements M (machine c cap) view μ)
    (goes : ∀ s, M.Reachable s → (¬ ∃ v, printed s v) → ∃ a t, M.step a s = some t)
    (prints : ∀ s v, M.Reachable s → printed s v →
      Complete c (view s) ∧ Forkpipe.mixSig c.numProcs (fun t => ((view s).reader t).num) = some v) :
    {v | ∃ s, M.Reachable s ∧ printed s v} = outcomes c cap := by
  ext v
  constructor
  · rintro ⟨s, hs, hv⟩
    obtain ⟨hcomplete, hmix⟩ := prints s v hs hv
    exact ⟨view s, H.reachable hs, hcomplete, hmix⟩
  · rintro ⟨x, hx, hcomplete, hmix⟩
    obtain ⟨s, hs, rfl, v', hv'⟩ := H.exists_stopped goes hx hcomplete.step_eq_none
    obtain rfl : v' = v := Option.some.inj ((prints s v' hs hv').2.symm.trans hmix)
    exact ⟨s, hs, hv'⟩

end Implements

/-! ### The result loop -/

theorem mixSig_one (num : ℕ → ℤ) : Forkpipe.mixSig 1 num = some (signed (sigInit 0)) := rfl

/-- One more pass of the result loop. -/
theorem mixSig_succ {i : ℕ} (hi : 1 ≤ i) (num : ℕ → ℤ) :
    Forkpipe.mixSig (i + 1) num = (Forkpipe.mixSig i num).bind fun mix_sig => Forkpipe.collectOne mix_sig ⟨4, num i⟩ := by
  obtain ⟨n, rfl⟩ := Nat.exists_eq_add_of_le hi
  rw [Forkpipe.mixSig, Forkpipe.collect, show 1 + n + 1 - 1 = n + 1 by omega, List.range'_1_concat, List.foldlM_append,
    Forkpipe.mixSig, Forkpipe.collect, Nat.add_sub_cancel_left]
  simp only [List.foldlM_cons, List.foldlM_nil]
  rfl

/-- `mix_sig` in the result loop, at its test for `i`. -/
def Folded (c : Config) (num : ℕ → ℤ) (i : ℕ) (mix_sig : ℤ) : Prop :=
  1 ≤ i ∧ (i = 1 ∨ i ≤ c.numProcs) ∧ Forkpipe.mixSig i num = some mix_sig

theorem Folded.next {num : ℕ → ℤ} {i : ℕ} {mix_sig mix_sig' : ℤ} (h : Folded c num i mix_sig) (hi : i < c.numProcs)
    (hcollect : Forkpipe.collectOne mix_sig ⟨4, num i⟩ = some mix_sig') : Folded c num (i + 1) mix_sig' := by
  obtain ⟨h1, -, hmix⟩ := h
  refine ⟨Nat.le_add_left 1 i, .inr hi, ?_⟩
  rw [mixSig_succ h1, hmix]
  exact hcollect

theorem Folded.done {num : ℕ → ℤ} {i : ℕ} {mix_sig : ℤ} (h : Folded c num i mix_sig) (hi : ¬ i < c.numProcs) :
    Forkpipe.mixSig c.numProcs num = some mix_sig := by
  obtain ⟨h1, rfl | hle, hmix⟩ := h
  · rw [← hmix, Forkpipe.mixSig, Forkpipe.mixSig, Forkpipe.collect, Forkpipe.collect, show c.numProcs - 1 = 1 - 1 by omega]
  · rwa [show i = c.numProcs by omega] at hmix

end Racey.Pipes
