import Racey.Printed
import Racey.Theorems.ForkpipePipes

/-! The lines "R: %d" of racey-forkpipe tell the order in which `wait` has returned the children, and nothing else: any order
    can come with any value of `mix_sig`, because a run can put off all waits until its last child has exited. -/

namespace Racey.Forkpipe
open Machine

variable {c : Config} {cap : Pipe → ℕ} {s s' : State} {t : ℕ} {m : MainPc} {z : List Proc} {l : List ℕ}

/-! ### The same run with another wait loop -/

def State.rewait (s : State) (m : MainPc) (z : List Proc) (l : List ℕ) : State := { s with main := m, zombies := z, lines := l }

theorem read_rewait (p : Proc) (pipe : Pipe) (n : ℕ) :
    (s.rewait m z l).read c p pipe n = (s.read c p pipe n).map fun r => (r.1, r.2.rewait m z l) := by
  have hread : (s.rewait m z l).read c p pipe n =
      if s.fds p ⟨pipe, .rd⟩ = true ∧ (s.buf pipe ≠ [] ∨ s.isOpen c ⟨pipe, .wr⟩ = false) then
        some ((s.buf pipe).take n, (s.setBuf pipe ((s.buf pipe).drop n)).rewait m z l)
      else none := rfl
  rw [hread, State.read]
  split <;> rfl

theorem write_rewait (p : Proc) (pipe : Pipe) (bytes : List UInt8) :
    (s.rewait m z l).write c cap p pipe bytes = (s.write c cap p pipe bytes).map fun s => s.rewait m z l := by
  have hwrite : (s.rewait m z l).write c cap p pipe bytes =
      if s.fds p ⟨pipe, .wr⟩ = true ∧ s.isOpen c ⟨pipe, .rd⟩ = true ∧ (s.buf pipe).length + bytes.length ≤ cap pipe then
        some ((s.setBuf pipe (s.buf pipe ++ bytes)).rewait m z l)
      else none := rfl
  rw [hwrite, State.write]
  split <;> rfl

theorem stepReader_rewait (hs : stepReader c cap t s = some s') :
    ∃ z', stepReader c cap t (s.rewait m z l) = some (s'.rewait m z' l) := by
  have hreader : (s.rewait m z l).reader = s.reader := rfl
  simp only [stepReader, hreader, read_rewait, write_rewait] at hs ⊢
  cases hp : (s.reader t).phase with
  | unborn | exited => simp [hp] at hs
  | start todo =>
    cases todo with
    | nil | cons fd todo =>
      simp only [hp] at hs ⊢
      cases hs
      exact ⟨z, rfl⟩
  | body pc =>
    cases pc with
    | read | write =>
      simp only [hp] at hs ⊢
      obtain ⟨r, hr, rfl⟩ := Option.map_eq_some_iff.mp hs
      rw [hr]
      exact ⟨z, rfl⟩
  | finish todo =>
    cases todo with
    | nil =>
      simp only [hp] at hs ⊢
      cases hs
      exact ⟨_, rfl⟩
    | cons fd todo =>
      simp only [hp] at hs ⊢
      cases hs
      exact ⟨z, rfl⟩

theorem stepWriter_rewait (hs : stepWriter c cap t s = some s') :
    ∃ z', stepWriter c cap t (s.rewait m z l) = some (s'.rewait m z' l) := by
  have hwriter : (s.rewait m z l).writer = s.writer := rfl
  simp only [stepWriter, hwriter, write_rewait] at hs ⊢
  cases hp : (s.writer t).phase with
  | unborn | exited => simp [hp] at hs
  | start todo =>
    cases todo with
    | nil | cons fd todo =>
      simp only [hp] at hs ⊢
      cases hs
      exact ⟨z, rfl⟩
  | body pc =>
    simp only [hp] at hs ⊢
    by_cases hi : (s.writer t).i < c.maxLoop
    · rw [if_pos hi] at hs ⊢
      obtain ⟨u, hu, rfl⟩ := Option.map_eq_some_iff.mp hs
      rw [hu]
      exact ⟨z, rfl⟩
    · rw [if_neg hi] at hs ⊢
      cases hs
      exact ⟨z, rfl⟩
  | finish todo =>
    cases todo with
    | nil =>
      simp only [hp] at hs ⊢
      cases hs
      exact ⟨_, rfl⟩
    | cons fd todo =>
      simp only [hp] at hs ⊢
      cases hs
      exact ⟨z, rfl⟩

theorem stepMain_rewait (hs : stepMain c s = some s') :
    stepMain c (s.rewait s.main z l) = some (s'.rewait s'.main z l) := by
  have hmain : (s.rewait s.main z l).main = s.main := rfl
  simp only [stepMain, hmain, readOutput, read_rewait] at hs ⊢
  cases hm : s.main with
  | forking i =>
    simp only [hm] at hs ⊢
    split at hs
    · rename_i hi
      rw [if_pos hi]
      cases hs
      unfold State.fork
      split <;> rfl
    · rename_i hi
      rw [if_neg hi]
      cases hs
      rfl
  | closing todo =>
    cases todo with
    | nil | cons fd todo =>
      simp only [hm] at hs ⊢
      cases hs
      rfl
  | waiting i =>
    simp only [hm] at hs ⊢
    split at hs
    · cases hs
    · rename_i hi
      rw [if_neg hi]
      cases hs
      rfl
  | readOut i mix_sig =>
    simp only [hm] at hs ⊢
    split at hs
    · rename_i hi
      rw [if_pos hi]
      obtain ⟨o, ho, rfl⟩ := Option.map_eq_some_iff.mp hs
      obtain ⟨r, hr, rfl⟩ := Option.map_eq_some_iff.mp ho
      rw [hr]
      simp only [Option.map_some]
      split <;> rfl
    · rename_i hi
      rw [if_neg hi]
      cases hs
      rfl
  | printed | failed => simp [hm] at hs

/-! ### All waits at the end -/

theorem child_inj {i j : ℕ} (h : child i = child j) : i = j := by
  simp only [child] at h
  split at h <;> split at h <;> simp only [Proc.reader.injEq, Proc.writer.injEq, reduceCtorEq] at h <;> omega

theorem pidIndex_child {k : ℕ} (hk : k < c.numProcs * 2) : pidIndex c (child (k + 1)) = some k := by
  obtain ⟨j, hj, hchild⟩ := pidIndex_eq_some (c := c) (List.mem_map.mpr ⟨k, List.mem_range.mpr hk, rfl⟩)
  rw [hj, Nat.succ_injective (child_inj hchild)]

/-- With all children gone, `wait` can return them in any order. -/
theorem wait_next {k : ℕ} (h : (machine c cap).Reachable s) (hover : Over c s) (hm : s.main = .waiting (s.lines.length + 1))
    (hk : k < c.numProcs * 2) (hnew : k ∉ s.lines) (hlen : s.lines.length < c.numProcs * 2) :
    ∃ z, (machine c cap).Reachable (s.rewait (.waiting (s.lines.length + 2)) z (s.lines ++ [k])) := by
  have hw := waits_of_reach h
  have hmem := (hw.mem (child (k + 1))).mpr (hover _ (List.mem_map.mpr ⟨k, List.mem_range.mpr hk, rfl⟩))
  have hz : child (k + 1) ∈ s.zombies := (List.mem_append.mp hmem).resolve_right fun hreaped => by
    obtain ⟨j, hj, hchild⟩ := List.mem_map.mp hreaped
    exact hnew (Nat.succ_injective (child_inj hchild) ▸ hj)
  refine ⟨s.zombies.erase (child (k + 1)), h.step (.wait (child (k + 1))) trivial ?_⟩
  show stepWait c (child (k + 1)) s = _
  simp only [stepWait, hm]
  rw [if_pos ⟨by omega, hz⟩, pidIndex_child hk]
  rfl

theorem wait_all {ks : List ℕ} (h : (machine c cap).Reachable s) (hover : Over c s)
    (hm : s.main = .waiting (s.lines.length + 1)) (hnodup : (s.lines ++ ks).Nodup)
    (hlt : ∀ k ∈ s.lines ++ ks, k < c.numProcs * 2) :
    ∃ z, (machine c cap).Reachable (s.rewait (.waiting ((s.lines ++ ks).length + 1)) z (s.lines ++ ks)) := by
  induction ks generalizing s with
  | nil =>
    rw [List.append_nil, ← hm]
    exact ⟨s.zombies, h⟩
  | cons k ks ih =>
    have hcons : s.lines ++ k :: ks = s.lines ++ [k] ++ ks := by rw [List.append_assoc, List.singleton_append]
    have hsub : s.lines ++ k :: ks ⊆ List.range (c.numProcs * 2) := fun j hj => List.mem_range.mpr (hlt j hj)
    have hlen := (hnodup.subperm hsub).length_le
    rw [List.length_append, List.length_cons, List.length_range] at hlen
    have hnew : k ∉ s.lines := fun hk => List.disjoint_of_nodup_append hnodup hk List.mem_cons_self
    obtain ⟨z, hz⟩ := wait_next h hover hm (hlt k (by simp)) hnew (by omega)
    rw [hcons] at hnodup hlt ⊢
    obtain ⟨z', hz'⟩ := ih hz hover (by simp [State.rewait]) hnodup hlt
    exact ⟨z', hz'⟩

/-- Where `main` is in a run that puts off its waits. -/
def MainPc.putOff : MainPc → MainPc
  | .waiting _ => .waiting 1
  | m => m

/-- What it has printed there, if its waits return the children in the given order. -/
def MainPc.linesIn (l : List ℕ) : MainPc → List ℕ
  | .forking _ | .closing _ | .waiting _ => []
  | .readOut _ _ | .printed _ | .failed => l

/-- Where `main` is done with its waits, the other run makes them. -/
theorem exists_waited {i : ℕ} (hl : l.Perm (List.range (c.numProcs * 2))) (h : (machine c cap).Reachable s)
    (hm : s.main = .waiting i) (hs : stepMain c s = some s') (hz : (machine c cap).Reachable (s.rewait (.waiting 1) z [])) :
    ∃ z', (machine c cap).Reachable (s'.rewait s'.main.putOff z' (s'.main.linesIn l)) := by
  have hs' : s' = s.setMain (.readOut 1 (signed (sigInit 0))) := by
    simp only [stepMain, hm] at hs
    split at hs <;> cases hs
    rfl
  have hover : Over c s := fun p hp => by
    have hexit := over_of_readOut (h.step .main trivial hs) (by rw [hs']; rfl) p hp
    rw [hs'] at hexit
    exact hexit
  obtain ⟨z', hz'⟩ := wait_all hz hover rfl (hl.nodup_iff.mpr List.nodup_range)
    fun k hk => List.mem_range.mp (hl.mem_iff.mp hk)
  have hlen : l.length = c.numProcs * 2 := by rw [hl.length_eq, List.length_range]
  have hlines : (s.rewait (.waiting 1) z []).lines ++ l = l := rfl
  rw [hlines] at hz'
  have hnext : stepMain c ((s.rewait (.waiting 1) z []).rewait (.waiting (l.length + 1)) z' l) =
      some (s.rewait (.readOut 1 (signed (sigInit 0))) z' l) := if_neg (by omega)
  rw [hs']
  exact ⟨z', hz'.step .main trivial hnext⟩

theorem exists_putOff (hl : l.Perm (List.range (c.numProcs * 2))) (h : (machine c cap).Reachable s) :
    ∃ z, (machine c cap).Reachable (s.rewait s.main.putOff z (s.main.linesIn l)) := by
  induction h with
  | init => exact ⟨[], .init⟩
  | @step s s' a hr _ hs ih =>
    obtain ⟨z, hz⟩ := ih
    cases a with
    | reader t =>
      obtain ⟨z', hs'⟩ := stepReader_rewait (m := s.main.putOff) (z := z) (l := s.main.linesIn l) hs
      have hmain : s'.main = s.main := (readerStep_of_step hs).frame.main
      exact ⟨z', by rw [hmain]; exact hz.step (.reader t) trivial hs'⟩
    | writer t =>
      obtain ⟨z', hs'⟩ := stepWriter_rewait (m := s.main.putOff) (z := z) (l := s.main.linesIn l) hs
      have hmain : s'.main = s.main := (writerStep_of_step hs).frame.main
      exact ⟨z', by rw [hmain]; exact hz.step (.writer t) trivial hs'⟩
    | wait r =>
      have hs : stepWait c r s = some s' := hs
      unfold stepWait at hs
      split at hs
      · rename_i i hm
        rw [hm] at hz
        split at hs
        · cases hs
          exact ⟨z, hz⟩
        · cases hs
      · cases hs
    | main =>
      have hs : stepMain c s = some s' := hs
      by_cases hm : ∃ i, s.main = .waiting i
      · obtain ⟨i, hm⟩ := hm
        rw [hm] at hz
        exact exists_waited hl hr hm hs hz
      · -- Every other step of `main` is the same in both runs.
        have hsame : s.main.putOff = s.main ∧ s'.main.putOff = s'.main ∧ s'.main.linesIn l = s.main.linesIn l := by
          cases mainStep_of_step hs with
          | forkReader hm' | forkWriter hm' | close hm' | closeUnused hm' | closed hm' | collect hm' | fail hm' | print hm' =>
            rw [hm']
            exact ⟨rfl, rfl, rfl⟩
          | wait hm' | waited hm' => exact absurd ⟨_, hm'⟩ hm
        obtain ⟨hput, hput', hlines⟩ := hsame
        rw [hput] at hz
        rw [hput', hlines]
        exact ⟨z, hz.step .main trivial (stepMain_rewait hs)⟩

/-! ### What is printed -/

theorem lines_perm (h : (machine c cap).Reachable s) {v : ℤ} (hm : s.main = .printed v) :
    s.lines.Perm (List.range (c.numProcs * 2)) := by
  have hw := waits_of_reach h
  have hlen := hw.waited
  rw [hm] at hlen
  have hnodup : s.lines.Nodup := hw.nodup.of_append_right.of_map _
  have hsub : s.lines ⊆ List.range (c.numProcs * 2) := fun k hk => by
    have hexit := (hw.mem (child (k + 1))).mp (List.mem_append_right _ (List.mem_map_of_mem hk))
    obtain ⟨j, hj, hchild⟩ := List.mem_map.mp (mem_children_of_exited (forks_of_reach h) hexit)
    exact Nat.succ_injective (child_inj hchild) ▸ hj
  exact (hnodup.subperm hsub).perm_of_length_le (by rw [List.length_range]; exact hlen.ge)

/-- What racey-forkpipe prints: the lines in any order, and any of its outcomes, whatever the order. -/
theorem mem_prints_iff {v : ℤ} :
    (l, v) ∈ prints c cap ↔ l.Perm (List.range (c.numProcs * 2)) ∧ v ∈ outcomes c cap := by
  constructor
  · rintro ⟨s, hs, rfl, hm⟩
    exact ⟨lines_perm hs hm, s, hs, hm⟩
  · rintro ⟨hl, s, hs, hm⟩
    obtain ⟨z, hz⟩ := exists_putOff hl hs
    rw [hm] at hz
    exact ⟨_, hz, rfl, rfl⟩

end Racey.Forkpipe
