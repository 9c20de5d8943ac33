import Mathlib.Data.Finset.Image
import Mathlib.Data.Finset.Max
import Mathlib.Data.Int.ModEq
import Mathlib.Tactic.Ring

/-! Words that wrap at `M` and are then reduced modulo `P`. Two words with one residue differ by a multiple
    of `P` that is at most `M / P` times `P`; so where the words are `a + x * c` with `c` invertible modulo
    `M`, two `x` below `P` with one residue differ by one of `2 * (M / P) + 1` numbers. -/

namespace Residues

variable {M P : ℕ}

theorem natAbs_div_sub_div_le {a b : ℕ} (ha : a < M) (hb : b < M) :
    ((b / P : ℕ) - (a / P : ℕ) : ℤ).natAbs ≤ M / P := by
  have h1 : a / P ≤ M / P := Nat.div_le_div_right ha.le
  have h2 : b / P ≤ M / P := Nat.div_le_div_right hb.le
  generalize a / P = p, b / P = q, M / P = r at *
  omega

/-- The quotients account for the difference of two words with one residue. -/
theorem exists_multiple {a b : ℕ} (hM : 0 < M) (h : a % M % P = b % M % P) :
    ∃ k : ℤ, k.natAbs ≤ M / P ∧ (b : ℤ) - a ≡ k * P [ZMOD M] := by
  refine ⟨(b % M / P : ℕ) - (a % M / P : ℕ), natAbs_div_sub_div_le (Nat.mod_lt a hM) (Nat.mod_lt b hM), ?_⟩
  have word (n : ℕ) : (n : ℤ) ≡ P * (n % M / P : ℕ) + (n % M % P : ℕ) [ZMOD M] := by
    have hn : (P * (n % M / P : ℕ) + (n % M % P : ℕ) : ℤ) = (n % M : ℕ) := by
      exact_mod_cast Nat.div_add_mod (n % M) P
    rw [hn, Int.natCast_mod]
    exact (Int.mod_modEq _ _).symm
  calc (b : ℤ) - a ≡ P * (b % M / P : ℕ) + (b % M % P : ℕ) - (P * (a % M / P : ℕ) + (a % M % P : ℕ)) [ZMOD M] :=
        (word b).sub (word a)
    _ = ((b % M / P : ℕ) - (a % M / P : ℕ)) * P := by
        rw [h]
        ring

/-- `c'` is the inverse of `c` modulo `M`: two `x` below `M` with one residue differ by `k * P * c'` modulo
    `M`, for a small `k`. -/
theorem exists_difference {a c x y : ℕ} {c' : ℤ} (hc : c * c' ≡ 1 [ZMOD M]) (hxy : x ≤ y) (hy : y < M)
    (h : (a + x * c) % M % P = (a + y * c) % M % P) :
    ∃ k : ℤ, k.natAbs ≤ M / P ∧ ((y - x : ℕ) : ℤ) = k * P * c' % M := by
  obtain ⟨k, hk, hmod⟩ := exists_multiple (by omega) h
  refine ⟨k, hk, ?_⟩
  have hlt : ((y - x : ℕ) : ℤ) % M = (y - x : ℕ) := Int.emod_eq_of_lt (by omega) (by omega)
  have hcast : ((y - x : ℕ) : ℤ) = (y : ℤ) - x := by omega
  have hdiff : ((a + y * c : ℕ) : ℤ) - (a + x * c : ℕ) = (y - x) * c := by
    push_cast
    ring
  rw [hdiff] at hmod
  have hkey : (y : ℤ) - x ≡ k * P * c' [ZMOD M] :=
    calc (y : ℤ) - x = (y - x) * 1 := (mul_one _).symm
      _ ≡ (y - x) * (c * c') [ZMOD M] := hc.symm.mul_left _
      _ = (y - x) * c * c' := (mul_assoc _ _ _).symm
      _ ≡ k * P * c' [ZMOD M] := hmod.mul_right _
  rw [← hlt, hcast]
  exact hkey

/-- A set of numbers that lie apart by members of `D` has at most one element more than `D`. -/
theorem card_le_of_differences {S D : Finset ℕ} (h : ∀ x ∈ S, ∀ y ∈ S, x < y → y - x ∈ D) : S.card ≤ D.card + 1 := by
  rcases S.eq_empty_or_nonempty with rfl | hne
  · exact Nat.zero_le _
  · have hsub : S ⊆ insert (S.min' hne) (D.image (S.min' hne + ·)) := by
      intro y hy
      rcases (S.min'_le y hy).eq_or_lt with heq | hlt
      · exact Finset.mem_insert.mpr (.inl heq.symm)
      · refine Finset.mem_insert.mpr (.inr (Finset.mem_image.mpr ⟨y - S.min' hne, h _ (S.min'_mem hne) y hy hlt, ?_⟩))
        omega
    calc S.card ≤ (insert (S.min' hne) (D.image (S.min' hne + ·))).card := Finset.card_le_card hsub
      _ ≤ (D.image (S.min' hne + ·)).card + 1 := Finset.card_insert_le _ _
      _ ≤ D.card + 1 := Nat.add_le_add_right Finset.card_image_le 1

end Residues
