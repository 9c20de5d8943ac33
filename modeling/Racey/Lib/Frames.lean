import Mathlib.Data.List.Basic
import Mathlib.Algebra.Order.Ring.Nat

/-! Streams made of frames of one length: what a reader that takes any number of whole frames at a time has
    received, and what is still in flight. -/

namespace Frames
variable {α β : Type*} {enc : α → List β} {dec : List β → α} {n : ℕ}

/-- The items in a buffer, one for each `n` elements; what is left over at the end is dropped. -/
def items (n : ℕ) (dec : List β → α) (buffer : List β) : List α :=
  (List.range (buffer.length / n)).map fun k => dec ((buffer.drop (k * n)).take n)

theorem length_flatMap (hlen : ∀ a, (enc a).length = n) (l : List α) : (l.flatMap enc).length = l.length * n := by
  induction l with
  | nil => simp
  | cons a l ih => simp [hlen a, ih, Nat.add_mul, Nat.add_comm]

theorem drop_flatMap (hlen : ∀ a, (enc a).length = n) (l : List α) (k : ℕ) :
    (l.flatMap enc).drop (k * n) = (l.drop k).flatMap enc := by
  induction k generalizing l with
  | zero => simp
  | succ k ih =>
    cases l with
    | nil => simp
    | cons a l =>
      rw [List.flatMap_cons, Nat.succ_mul, Nat.add_comm, ← List.drop_drop, ← hlen a, List.drop_left, hlen a, ih,
        List.drop_succ_cons]

theorem take_flatMap (hlen : ∀ a, (enc a).length = n) (l : List α) (k : ℕ) :
    (l.flatMap enc).take (k * n) = (l.take k).flatMap enc := by
  have h : (l.flatMap enc).take (k * n) ++ (l.flatMap enc).drop (k * n) =
      (l.take k).flatMap enc ++ (l.flatMap enc).drop (k * n) := by
    rw [List.take_append_drop, drop_flatMap hlen, ← List.flatMap_append, List.take_append_drop]
  exact List.append_cancel_right h

theorem items_flatMap (hn : 0 < n) (hlen : ∀ a, (enc a).length = n) {l : List α} (hdec : ∀ a ∈ l, dec (enc a) = a) :
    items n dec (l.flatMap enc) = l := by
  have hl : (l.flatMap enc).length / n = l.length := by
    rw [length_flatMap hlen, Nat.mul_div_cancel _ hn]
  unfold items
  rw [hl]
  refine List.ext_getElem (by simp) fun k _ hk => ?_
  rw [List.getElem_map, List.getElem_range, drop_flatMap hlen, List.drop_eq_getElem_cons hk, List.flatMap_cons,
    ← hlen l[k], List.take_left]
  exact hdec _ (List.getElem_mem hk)

/-! ### What is in flight -/

/-- What was sent is what was received, followed by the frames that the buffer holds. -/
def InFlight (enc : α → List β) (sent received : List α) (buffer : List β) : Prop :=
  ∃ rest, sent = received ++ rest ∧ buffer = rest.flatMap enc

namespace InFlight
variable {sent received : List α} {buffer : List β}

theorem start : InFlight enc [] [] [] := ⟨[], rfl, rfl⟩

theorem send (h : InFlight enc sent received buffer) (a : α) : InFlight enc (sent ++ [a]) received (buffer ++ enc a) := by
  obtain ⟨rest, rfl, rfl⟩ := h
  exact ⟨rest ++ [a], by simp, by simp⟩

/-- Taking up to `k` frames' worth takes whole frames, from the front. -/
theorem receive (h : InFlight enc sent received buffer) (hlen : ∀ a, (enc a).length = n) (k : ℕ) :
    ∃ new, buffer.take (k * n) = new.flatMap enc ∧ InFlight enc sent (received ++ new) (buffer.drop (k * n)) := by
  obtain ⟨rest, rfl, rfl⟩ := h
  exact ⟨rest.take k, take_flatMap hlen rest k, rest.drop k, by simp, drop_flatMap hlen rest k⟩

/-- Once the buffer is empty everything that was sent has been received. -/
theorem drained (h : InFlight enc sent received []) (hn : 0 < n) (hlen : ∀ a, (enc a).length = n) :
    sent = received := by
  obtain ⟨rest, rfl, hrest⟩ := h
  have hlen : rest.length * n = 0 := by rw [← length_flatMap hlen, ← hrest, List.length_nil]
  obtain hz | hz := Nat.mul_eq_zero.mp hlen
  · rw [List.length_eq_zero_iff.mp hz, List.append_nil]
  · omega

end InFlight

end Frames
