import Mathlib.Data.List.Basic
import Mathlib.Logic.Function.Basic

/-! Sequences that several sources contribute to, each in its own order; and files that are written from the start,
    piece by piece, through one descriptor. -/

namespace Interleave
variable {κ α : Type*} [DecidableEq κ]

/-- What source `k` has contributed. -/
def of (k : κ) (l : List (κ × α)) : List α := (l.filter fun p => p.1 = k).map Prod.snd

/-- The list consists of the contributions of the sources, each of them once, and those of one source in order. -/
def IsInterleaving (parts : κ → List α) (l : List α) : Prop :=
  ∃ tagged : List (κ × α), tagged.map Prod.snd = l ∧ ∀ k, of k tagged = parts k

theorem IsInterleaving.nil : IsInterleaving (fun _ : κ => ([] : List α)) [] := ⟨[], rfl, fun _ => rfl⟩

theorem IsInterleaving.snoc {parts : κ → List α} {l : List α} (h : IsInterleaving parts l) (k : κ) (a : α) :
    IsInterleaving (Function.update parts k (parts k ++ [a])) (l ++ [a]) := by
  obtain ⟨tagged, rfl, hof⟩ := h
  refine ⟨tagged ++ [(k, a)], by simp, fun j => ?_⟩
  rw [of, List.filter_append, List.map_append]
  by_cases hj : j = k
  · subst hj
    simpa [of] using hof j
  · simpa [of, hj, Ne.symm hj] using hof j

/-- Every contribution is in the list. -/
theorem IsInterleaving.mem {parts : κ → List α} {l : List α} (h : IsInterleaving parts l) {k : κ} {a : α}
    (ha : a ∈ parts k) : a ∈ l := by
  obtain ⟨tagged, rfl, hof⟩ := h
  rw [← hof k, of, List.mem_map] at ha
  obtain ⟨p, hp, rfl⟩ := ha
  exact List.mem_map_of_mem (List.mem_filter.mp hp).1

theorem of_cons (j k : κ) (a : α) (l : List (κ × α)) : of j ((k, a) :: l) = if k = j then a :: of j l else of j l := by
  unfold of
  rw [List.filter_cons]
  by_cases hk : k = j
  · simp [hk]
  · simp [hk]

theorem of_snoc (j k : κ) (a : α) (l : List (κ × α)) : of j (l ++ [(k, a)]) = if k = j then of j l ++ [a] else of j l := by
  unfold of
  rw [List.filter_append, List.map_append]
  by_cases hk : k = j
  · simp [hk]
  · simp [hk]

/-- Who contributes when, and what each source contributes, make up the whole. -/
theorem eq_of_keys {l l' : List (κ × α)} (hkeys : l.map Prod.fst = l'.map Prod.fst) (hof : ∀ k, of k l = of k l') : l = l' := by
  induction l generalizing l' with
  | nil => exact (List.map_eq_nil_iff.mp hkeys.symm).symm
  | cons p l ih =>
    obtain ⟨k, a⟩ := p
    cases l' with
    | nil => cases hkeys
    | cons p' l' =>
      obtain ⟨k', a'⟩ := p'
      simp only [List.map_cons, List.cons.injEq] at hkeys
      obtain ⟨rfl, hkeys⟩ := hkeys
      have hhead := hof k
      rw [of_cons, of_cons, if_pos rfl, if_pos rfl] at hhead
      obtain ⟨rfl, -⟩ := List.cons_eq_cons.mp hhead
      rw [ih hkeys fun j => ?_]
      have hj := hof j
      rw [of_cons, of_cons] at hj
      split at hj
      · exact (List.cons_eq_cons.mp hj).2
      · exact hj

theorem length_of (k : κ) (l : List (κ × α)) : (of k l).length = (l.map Prod.fst).count k := by
  rw [of, List.length_map, List.count, List.countP_map, List.countP_eq_length_filter]
  rfl

theorem mem_of {k : κ} {a : α} {l : List (κ × α)} : a ∈ of k l ↔ (k, a) ∈ l := by
  simp [of]

/-- Where no source contributes anything twice, nothing is there twice. -/
theorem nodup_of {l : List (κ × α)} (h : ∀ k, (of k l).Nodup) : l.Nodup := by
  induction l with
  | nil => exact .nil
  | cons p l ih =>
    obtain ⟨j, a⟩ := p
    have htail : ∀ k, (of k l).Nodup := fun k => by
      have hk := h k
      rw [of_cons] at hk
      split at hk
      · exact (List.nodup_cons.mp hk).2
      · exact hk
    refine List.nodup_cons.mpr ⟨fun hmem => ?_, ih htail⟩
    have hj := h j
    rw [of_cons, if_pos rfl] at hj
    exact (List.nodup_cons.mp hj).1 (mem_of.mpr hmem)

/-- Where the contributions are lists themselves, put together they are, up to their order, what the sources have contributed,
    and those that have contributed nothing need not be asked. -/
theorem perm_flatten {l : List (κ × List α)} {ks : List κ} (hks : ks.Nodup) (hout : ∀ k, k ∉ ks → (of k l).flatten = []) :
    (l.map Prod.snd).flatten.Perm (ks.flatMap fun k => (of k l).flatten) := by
  induction l with
  | nil =>
    have hnil : (ks.flatMap fun k => (of k ([] : List (κ × List α))).flatten) = [] := List.flatMap_eq_nil_iff.mpr fun _ _ => rfl
    rw [hnil]
    exact .nil
  | cons p l ih =>
    obtain ⟨j, a⟩ := p
    have hof : ∀ k, (of k ((j, a) :: l)).flatten = if j = k then a ++ (of k l).flatten else (of k l).flatten := fun k => by
      rw [of_cons]
      split <;> rfl
    have ih := ih fun k hk => by
      have h := hout k hk
      rw [hof] at h
      split at h
      · exact (List.append_eq_nil_iff.mp h).2
      · exact h
    rw [List.map_cons, List.flatten_cons]
    by_cases hj : j ∈ ks
    · obtain ⟨before, after, rfl⟩ := List.append_of_mem hj
      have hsame : ∀ part : List κ, j ∉ part →
          (part.flatMap fun k => (of k ((j, a) :: l)).flatten) = part.flatMap fun k => (of k l).flatten := fun part hpart =>
        List.flatMap_congr fun k hk => by
          rw [hof, if_neg]
          rintro rfl
          exact hpart hk
      have hnodup := List.perm_middle.nodup_iff.mp hks
      obtain ⟨hnot, -⟩ := List.nodup_cons.mp hnodup
      rw [List.mem_append, not_or] at hnot
      rw [List.flatMap_append, List.flatMap_cons, hsame before hnot.1, hsame after hnot.2, hof, if_pos rfl]
      refine (ih.append_left a).trans ?_
      rw [List.flatMap_append, List.flatMap_cons, List.append_assoc]
      exact List.perm_append_comm_assoc ..
    · have hempty := hout j hj
      rw [hof, if_pos rfl] at hempty
      have hsame : (ks.flatMap fun k => (of k ((j, a) :: l)).flatten) = ks.flatMap fun k => (of k l).flatten :=
        List.flatMap_congr fun k hk => by
          rw [hof, if_neg]
          rintro rfl
          exact hj hk
      rw [hsame, (List.append_eq_nil_iff.mp hempty).1]
      exact ih

end Interleave

/-! ### Files -/

/-- A file that is open for writing: its contents, and the offset of the descriptor. -/
structure File (β : Type*) where
  bytes : List β
  offset : ℕ

namespace File
variable {β : Type*}

/-- A file that is opened without being truncated. -/
def opened (old : List β) : File β := ⟨old, 0⟩

/-- `write`, complete: it replaces what is there, and may make the file longer. -/
def write (f : File β) (chunk : List β) : File β :=
  ⟨f.bytes.take f.offset ++ chunk ++ f.bytes.drop (f.offset + chunk.length), f.offset + chunk.length⟩

/-- The file starts with what was written since it was opened; the rest is as it was before. -/
def Written (old written : List β) (f : File β) : Prop :=
  f.bytes = written ++ old.drop written.length ∧ f.offset = written.length

theorem written_opened (old : List β) : Written old [] (opened old) := ⟨rfl, rfl⟩

theorem Written.write {old written : List β} {f : File β} (h : Written old written f) (chunk : List β) :
    Written old (written ++ chunk) (f.write chunk) := by
  obtain ⟨hbytes, hoffset⟩ := h
  refine ⟨?_, by rw [File.write, hoffset, List.length_append]⟩
  have hdrop : f.bytes.drop (f.offset + chunk.length) = old.drop (written.length + chunk.length) := by
    rw [hbytes, hoffset, ← List.drop_drop, List.drop_left, List.drop_drop]
  rw [File.write, hdrop, hbytes, hoffset, List.take_left, List.length_append]

end File
