import Mathlib.Order.WellFounded
import Racey.Lib.Machine

/-! Runs without end, in which the parties may pause, but in which none is passed over for good that can move. What some
    move helps to lower in every state, and no move raises, is lowered in such a run until the goal is reached. -/

namespace Machine
variable {σ α ν : Type*}

/-- A run without end: at each instant a move is taken, or nobody moves. -/
structure Trace (M : Machine σ α) where
  state : ℕ → σ
  move : ℕ → Option α
  pause : ∀ n, move n = none → state (n + 1) = state n
  moves : ∀ n a, move n = some a → M.step a (state n) = some (state (n + 1))

variable {M : Machine σ α} {ok : α → σ → Prop} {s t : σ} {a : α} {n m : ℕ}

namespace Trace

/-- Every move is taken in a state that allows it. -/
def Meets (r : M.Trace) (ok : α → σ → Prop) : Prop := ∀ n a, r.move n = some a → ok a (r.state n)

/-- Nobody is passed over: each move is taken again and again, or again and again it is not possible. -/
def Fair (r : M.Trace) : Prop := ∀ a n, ∃ m, n ≤ m ∧ (M.step a (r.state m) = none ∨ r.move m = some a)

variable {r : M.Trace}

/-- What the allowed moves keep holds from then on. -/
theorem Meets.keeps {I : σ → Prop} (hok : r.Meets ok) (keep : ∀ a s t, I s → ok a s → M.step a s = some t → I t)
    (h : I (r.state n)) (hnm : n ≤ m) : I (r.state m) := by
  induction hnm with
  | refl => exact h
  | @step m _ ih =>
    cases hmove : r.move m with
    | none => rwa [r.pause m hmove]
    | some a => exact keep a _ _ ih (hok m a hmove) (r.moves m a hmove)

theorem Meets.reach (hok : r.Meets ok) (h : M.Reach ok (r.state 0)) (n : ℕ) : M.Reach ok (r.state n) :=
  hok.keeps (fun a _ _ hs ha hstep => hs.step a ha hstep) h (Nat.zero_le n)

/-! ### Runs that come to an end -/

/-- Nobody moves any more. -/
def rest (M : Machine σ α) (s : σ) : M.Trace where
  state _ := s
  move _ := none
  pause _ _ := rfl
  moves _ _ h := by cases h

/-- One move, and then a run. -/
def cons (a : α) (s : σ) (r : M.Trace) (h : M.step a s = some (r.state 0)) : M.Trace where
  state
    | 0 => s
    | n + 1 => r.state n
  move
    | 0 => some a
    | n + 1 => r.move n
  pause
    | 0, hmove => by cases hmove
    | n + 1, hmove => r.pause n hmove
  moves
    | 0, _, hmove => by
      cases hmove
      exact h
    | n + 1, b, hmove => r.moves n b hmove

/-- A finite run to a state in which nobody can move is a fair one. -/
theorem exists_of_run [∀ a s, Decidable (ok a s)] {as : List α} (hr : M.runIf (fun a s => decide (ok a s)) as s = some t)
    (hstop : ∀ a, M.step a t = none) : ∃ r : M.Trace, r.state 0 = s ∧ r.Meets ok ∧ r.Fair := by
  induction as generalizing s with
  | nil =>
    cases hr
    refine ⟨rest M _, rfl, fun n b hmove => ?_, fun a n => ⟨n, le_rfl, .inl (hstop a)⟩⟩
    cases hmove
  | cons a as ih =>
    simp only [runIf] at hr
    split at hr
    · rename_i hok
      obtain ⟨u, hs, hr⟩ := Option.bind_eq_some_iff.mp hr
      obtain ⟨r, rfl, hmeets, hfair⟩ := ih hr
      refine ⟨cons a s r hs, rfl, fun n b hmove => ?_, fun b n => ?_⟩
      · cases n with
        | zero =>
          cases hmove
          exact of_decide_eq_true hok
        | succ n => exact hmeets n b hmove
      · obtain ⟨m, hm, h⟩ := hfair b n
        exact ⟨m + 1, hm.trans m.le_succ, h⟩
    · cases hr

end Trace

/-! ### Progress -/

/-- Within `I`, and until `Q` is reached, the allowed moves never raise `μ`; and some party is helpful: it can move, its move
    lowers `μ`, and the moves of the others lower `μ` or leave it helpful. -/
structure Progress [Preorder ν] (M : Machine σ α) (ok : α → σ → Prop) (I Q : σ → Prop) (μ : σ → ν)
    (Helpful : α → σ → Prop) : Prop where
  keep : ∀ a s t, I s → ¬ Q s → ok a s → M.step a s = some t →
    Q t ∨ I t ∧ (μ t < μ s ∨ μ t = μ s ∧ ∀ b, Helpful b s → Helpful b t)
  exists_helpful : ∀ s, I s → ¬ Q s → ∃ a, Helpful a s
  enabled : ∀ a s, I s → Helpful a s → M.step a s ≠ none
  down : ∀ a s t, I s → Helpful a s → ok a s → M.step a s = some t → Q t ∨ μ t < μ s

namespace Progress
variable [Preorder ν] {I Q : σ → Prop} {μ : σ → ν} {Helpful : α → σ → Prop} {r : M.Trace}

/-- Up to any later instant the goal has been reached, or the measure is lower, or whoever was helpful still is. -/
theorem until_lower (H : Progress M ok I Q μ Helpful) (hok : r.Meets ok) (hI : I (r.state n)) (ha : Helpful a (r.state n))
    (hnm : n ≤ m) : (∃ k, n ≤ k ∧ Q (r.state k)) ∨ (∃ k, n ≤ k ∧ I (r.state k) ∧ μ (r.state k) < μ (r.state n)) ∨
      I (r.state m) ∧ μ (r.state m) = μ (r.state n) ∧ Helpful a (r.state m) := by
  induction hnm with
  | refl => exact .inr (.inr ⟨hI, rfl, ha⟩)
  | @step m hnm ih =>
    rcases ih with hQ | hlt | ⟨hIm, heq, ham⟩
    · exact .inl hQ
    · exact .inr (.inl hlt)
    cases hmove : r.move m with
    | none =>
      rw [r.pause m hmove]
      exact .inr (.inr ⟨hIm, heq, ham⟩)
    | some b =>
      by_cases hQ : Q (r.state m)
      · exact .inl ⟨m, hnm, hQ⟩
      have hle : n ≤ m + 1 := Nat.le_succ_of_le hnm
      rcases H.keep b _ _ hIm hQ (hok m b hmove) (r.moves m b hmove) with hQ | ⟨hI', hlt | ⟨heq', hstays⟩⟩
      · exact .inl ⟨m + 1, hle, hQ⟩
      · exact .inr (.inl ⟨m + 1, hle, hI', heq ▸ hlt⟩)
      · exact .inr (.inr ⟨hI', heq'.trans heq, hstays a ham⟩)

/-- In a fair run whose moves are all allowed the goal is reached. -/
theorem eventually [WellFoundedLT ν] (H : Progress M ok I Q μ Helpful) (hok : r.Meets ok) (hfair : r.Fair)
    (hI : I (r.state n)) : ∃ m, n ≤ m ∧ Q (r.state m) := by
  induction hμ : μ (r.state n) using WellFoundedLT.induction generalizing n with
  | ind x ih =>
    have lower : ∀ k, n ≤ k → I (r.state k) → μ (r.state k) < μ (r.state n) → ∃ m, n ≤ m ∧ Q (r.state m) := by
      intro k hk hIk hlt
      obtain ⟨m, hm, hQ⟩ := ih _ (hμ ▸ hlt) hIk rfl
      exact ⟨m, hk.trans hm, hQ⟩
    by_cases hQ : Q (r.state n)
    · exact ⟨n, le_rfl, hQ⟩
    obtain ⟨a, ha⟩ := H.exists_helpful _ hI hQ
    -- Whoever is helpful now has its turn, if it is still helpful then.
    obtain ⟨m, hm, hturn⟩ := hfair a n
    rcases H.until_lower hok hI ha hm with hQ | ⟨k, hk, hIk, hlt⟩ | ⟨hIm, heq, ham⟩
    · exact hQ
    · exact lower k hk hIk hlt
    rcases hturn with hnone | hmove
    · exact absurd hnone (H.enabled a _ hIm ham)
    have hle : n ≤ m + 1 := Nat.le_succ_of_le hm
    by_cases hQ : Q (r.state m)
    · exact ⟨m, hm, hQ⟩
    have hstep := r.moves m a hmove
    rcases H.down a _ _ hIm ham (hok m a hmove) hstep with hQ | hlt
    · exact ⟨m + 1, hle, hQ⟩
    rcases H.keep a _ _ hIm hQ (hok m a hmove) hstep with hQ | ⟨hI', -⟩
    · exact ⟨m + 1, hle, hQ⟩
    · exact lower (m + 1) hle hI' (heq ▸ hlt)

end Progress

end Machine
