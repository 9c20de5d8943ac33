import Racey.Lib.Crew
import Racey.Theorems.Start

/-! `main` of the programs with threads: it creates them, joins them, and then folds the entries of `sig` by itself. -/

namespace Racey.Start

variable {n : ℕ} {sig : ℕ → ℕ} {p q : MainPc} {v : ℤ}

/-- Where `main` is, as the main party of a fork–join program. -/
def MainPc.forkJoin : MainPc → ForkJoin.Main MainPc
  | create i => .create i
  | join i => .join i
  | first => .rest .first
  | result i mix_sig => .rest (.result i mix_sig)
  | printed mix_sig => .rest (.printed mix_sig)

theorem rest_of_forkJoin (h : p.forkJoin = .rest q) : p = q := by
  cases p <;> cases h <;> rfl

theorem printed_of_forkJoin (h : p.forkJoin = .rest (.printed v)) : p = .printed v := rest_of_forkJoin h

/-- What `main` does after the joins, where `n` is `NumProcs`. -/
def rest (n : ℕ) (sig : ℕ → ℕ) : MainPc → Option MainPc
  | .first => some (.result 1 (signed (sig 0)))
  | .result i mix_sig =>
    some (if i < n then .result (i + 1) (signed (mix (sig i) (unsigned mix_sig))) else .printed mix_sig)
  | _ => none

theorem rest_eq_none (h : rest n sig p = none) (hp : ForkJoin.Main.rest q = p.forkJoin) : ∃ v, p = .printed v := by
  cases p with
  | create i | join i => cases hp
  | first | result i mix_sig => cases h
  | printed mix_sig => exact ⟨mix_sig, rfl⟩

/-- The steps that `main` has left after the joins, or one more. -/
def restLeft (n : ℕ) : MainPc → ℕ
  | .first => n + 2
  | .result i _ => n - i + 1
  | _ => 0

theorem restLeft_lt (h : rest n sig p = some q) : restLeft n q < restLeft n p := by
  cases p with
  | first =>
    cases h
    simp only [restLeft]
    omega
  | result i mix_sig =>
    cases h
    split <;> simp only [restLeft] <;> omega
  | create i | join i | printed mix_sig => cases h

/-- How far the result loop has come. -/
def Folding (n : ℕ) (sig : ℕ → ℕ) : MainPc → Prop
  | .first => True
  | .result i mix_sig => 1 ≤ i ∧ (i = 1 ∨ i ≤ n) ∧ mix_sig = mixSig i sig
  | .printed mix_sig => mix_sig = mixSig n sig
  | _ => False

theorem Folding.step (h : Folding n sig p) (hs : rest n sig p = some q) : Folding n sig q := by
  cases p with
  | first =>
    cases hs
    exact ⟨le_rfl, .inl rfl, rfl⟩
  | result i mix_sig =>
    obtain ⟨h1, hle, rfl⟩ := h
    cases hs
    split
    · rename_i hi
      exact ⟨Nat.le_add_left 1 i, .inr hi, (mixSig_succ h1 sig).symm⟩
    · rename_i hi
      show mixSig i sig = mixSig n sig
      rcases hle with rfl | hle
      · simp only [mixSig, Nat.sub_self, show n - 1 = 0 by omega]
      · rw [show i = n by omega]
  | create i | join i | printed mix_sig => cases hs

/-- `main` gets to the signature of the entries that it folds, and to no other. -/
theorem rest_printed_iff :
    Relation.ReflTransGen (fun p q => rest n sig p = some q) .first (.printed v) ↔ v = mixSig n sig := by
  constructor
  · intro h
    have hfold : ∀ q, Relation.ReflTransGen (fun p q => rest n sig p = some q) .first q → Folding n sig q := by
      intro q hq
      induction hq with
      | refl => trivial
      | tail _ hs ih => exact ih.step hs
    exact hfold _ h
  · rintro rfl
    have hloop : ∀ k ≤ n - 1, Relation.ReflTransGen (fun p q => rest n sig p = some q) .first
        (.result (k + 1) (mixSig (k + 1) sig)) := by
      intro k hk
      induction k with
      | zero => exact .single rfl
      | succ k ih =>
        refine (ih (by omega)).tail ?_
        rw [rest, if_pos (by omega), ← mixSig_succ (Nat.le_add_left 1 k)]
    refine (hloop (n - 1) le_rfl).tail ?_
    rw [rest, if_neg (by omega)]
    rfl

end Racey.Start
