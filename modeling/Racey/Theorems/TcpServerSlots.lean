import Racey.Theorems.TcpServer

/-! The workers of racey-tcp-server look at `client_fds[client_idx]` whatever `client_idx` is. As long as that is neither
    -1 nor `WORKER_NUM`, they find a slot that `main` has filled; with nothing queued they look in front of the array. -/

namespace Racey.TcpServer
open Machine

variable {memory : ℤ → ℤ} {streams : ℕ → List UInt8} {old : List UInt8} {s s' : State} {o : Slots} {a : Move}

/-- No look was made with `client_idx` at -1 or at `WORKER_NUM`. -/
def Slots.Inside (o : Slots) : Prop := ∀ x ∈ o.looks, x.1 ≠ -1 ∧ x.1 ≠ workerNum

/-- While all looks are inside, the slots up to `client_idx` are those that are filled and not taken. -/
def Stacked (s : State) (o : Slots) : Prop :=
  o.Inside → (-1 ≤ s.clientIdx ∧ s.clientIdx ≤ workerNum) ∧ (∀ i, o.filled i = true ↔ 0 ≤ i ∧ i ≤ s.clientIdx) ∧
    ValidLooks o

theorem Stacked.same (h : Stacked s o) (hidx : s'.clientIdx = s.clientIdx) : Stacked s' o := by
  unfold Stacked
  rw [hidx]
  exact h

theorem stacked_start : Stacked (start memory streams old) slotObserver.start := by
  have hmax : (-1 : ℤ) ≤ workerNum := by decide
  refine fun _ => ⟨⟨le_rfl, hmax⟩, fun i => ?_, fun x hx => absurd hx List.not_mem_nil⟩
  simp only [slotObserver, start, Bool.false_eq_true, false_iff]
  omega

/-- A look at the stack is valid if it is inside and all before it were. -/
theorem Stacked.look (h : Stacked s o) {f : ℤ → Bool}
    (hin : (Slots.mk f (o.looks ++ [(s.clientIdx, o.filled s.clientIdx)])).Inside) :
    (0 ≤ s.clientIdx ∧ s.clientIdx < workerNum) ∧ (∀ i, o.filled i = true ↔ 0 ≤ i ∧ i ≤ s.clientIdx) ∧
      ValidLooks ⟨f, o.looks ++ [(s.clientIdx, o.filled s.clientIdx)]⟩ := by
  have hold : o.Inside := fun x hx => hin x (List.mem_append_left _ hx)
  obtain ⟨hlow, hhigh⟩ := hin _ (List.mem_append_right _ (List.mem_singleton_self _))
  obtain ⟨hbounds, hfilled, hvalid⟩ := h hold
  simp only at hlow hhigh
  have hidx : 0 ≤ s.clientIdx ∧ s.clientIdx < workerNum := by omega
  refine ⟨hidx, hfilled, fun x hx => ?_⟩
  rcases List.mem_append.mp hx with hx | hx
  · exact hvalid x hx
  · rw [List.mem_singleton.mp hx]
    exact ⟨hidx.1, Int.le_sub_one_of_lt hidx.2, (hfilled _).mpr ⟨hidx.1, le_rfl⟩⟩

theorem Stacked.step (h : Stacked s o) (hs : step a s = some s') : Stacked s' (slotObserver.note a s o) := by
  cases step_cases hs with
  | push fd hmain hroom =>
    simp only [slotObserver, hroom, if_true]
    intro hin
    obtain ⟨hbounds, hfilled, hvalid⟩ := h hin
    refine ⟨⟨by simp only; omega, by simp only; omega⟩, fun i => ?_, hvalid⟩
    simp only
    rcases eq_or_ne i (s.clientIdx + 1) with rfl | hne
    · rw [Function.update_self]
      exact iff_of_true rfl ⟨by omega, le_rfl⟩
    · rw [Function.update_of_ne hne, hfilled i]
      omega
  | full fd hmain hroom =>
    simp only [slotObserver, hroom, if_false]
    exact h
  | take w hw htop =>
    simp only [slotObserver, htop, if_true]
    intro hin
    obtain ⟨hbounds, hfilled, hvalid⟩ := h.look hin
    refine ⟨⟨by simp only; omega, by simp only; omega⟩, fun i => ?_, hvalid⟩
    simp only
    rcases eq_or_ne i s.clientIdx with rfl | hne
    · rw [Function.update_self]
      exact iff_of_false Bool.false_ne_true (by omega)
    · rw [Function.update_of_ne hne, hfilled i]
      omega
  | empty w hw htop =>
    simp only [slotObserver, htop, if_false]
    intro hin
    obtain ⟨hbounds, hfilled, hvalid⟩ := h.look hin
    exact ⟨⟨by omega, by omega⟩, hfilled, hvalid⟩
  | accept | acceptFails | readFails | read | write | writeFails | close => exact h.same rfl

theorem stacked_of_reachable (h : ((machine memory streams old).watch slotObserver).Reachable (s, o)) : Stacked s o :=
  h.invariant (I := fun p => Stacked p.1 p.2) stacked_start fun a p q hp _ hs => by
    obtain ⟨hs, ho⟩ := watch_step_eq_some.mp hs
    rw [ho]
    exact hp.step hs

theorem inside_of_reach (h : ((machine memory streams old).watch slotObserver).Reach (fun a p => LooksInside a p.1) (s, o)) :
    o.Inside :=
  h.invariant (I := fun p => p.2.Inside) (fun x hx => absurd hx List.not_mem_nil) fun a p q hp hok hs => by
    obtain ⟨-, ho⟩ := watch_step_eq_some.mp hs
    rw [ho]
    cases a with
    | push =>
      simp only [slotObserver]
      split <;> exact hp
    | poll w =>
      intro x hx
      rcases List.mem_append.mp hx with hx | hx
      · exact hp x hx
      · rw [List.mem_singleton.mp hx]
        exact hok
    | _ => exact hp

end Racey.TcpServer
