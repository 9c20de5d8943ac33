import Mathlib.Logic.Relation

/-! Who waits for whom, among parties that each hold at most one resource and want at most one. Where nobody holds a
    resource while wanting another there are no cycles, and somebody is free to go on. -/

namespace Waits
variable {ι ρ : Type*} {holds wants : ι → Option ρ} {t u v : ι}

/-- Party `t` wants what `u` holds. -/
def On (holds wants : ι → Option ρ) (t u : ι) : Prop := ∃ r, wants t = some r ∧ holds u = some r

/-- Nobody holds a resource while wanting one. -/
def NoHoldAndWait (holds wants : ι → Option ρ) : Prop := ∀ t, wants t ≠ none → holds t = none

theorem On.not_on (h : NoHoldAndWait holds wants) (htu : On holds wants t u) : ¬ On holds wants u v := by
  obtain ⟨r, -, hu⟩ := htu
  rintro ⟨r', hwants, -⟩
  have hnone := h u (by rw [hwants]; exact Option.some_ne_none r')
  rw [hu] at hnone
  cases hnone

/-- No cycle of parties that wait for each other, of any length. -/
theorem acyclic (h : NoHoldAndWait holds wants) : ¬ Relation.TransGen (On holds wants) t t := by
  intro hcycle
  obtain ⟨u, htu, hut⟩ := Relation.TransGen.head'_iff.mp hcycle
  rcases Relation.ReflTransGen.cases_head hut with rfl | ⟨v, huv, -⟩
  · exact htu.not_on h htu
  · exact htu.not_on h huv

/-- Among parties that only wait for each other, one waits for nobody. -/
theorem exists_free (h : NoHoldAndWait holds wants) {P : ι → Prop} (holder : ∀ t u, On holds wants t u → P u) (ht : P t) :
    ∃ u, P u ∧ ∀ v, ¬ On holds wants u v := by
  rcases Classical.em (∃ u, On holds wants t u) with ⟨u, htu⟩ | hfree
  · exact ⟨u, holder t u htu, fun v => htu.not_on h⟩
  · exact ⟨t, ht, not_exists.mp hfree⟩

end Waits
