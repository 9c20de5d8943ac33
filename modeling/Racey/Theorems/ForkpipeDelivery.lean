import Racey.Theorems.Forkpipe
import Mathlib.Data.List.Nodup
import Mathlib.Data.List.Perm.Subperm

/-! racey-forkpipe delivers every message exactly once: the bytes in an input pipe are the messages sent to it
    that its reader has not folded in yet, and `main` finds in each output pipe the digest of its reader. -/

namespace Racey.Forkpipe
open Descriptors

variable {c : Config} {cap : Pipe → ℕ} {s s' : State} {t : ℕ}

/-! ### Ints and their bytes -/

theorem length_encode (x : ℤ) : (encode x).length = 4 := rfl

theorem decode_encode {x : ℤ} (h : IsInt x) : decode (encode x) = x := by
  obtain ⟨h1, h2⟩ := h
  have hu : unsigned x < 4294967296 := by
    unfold unsigned
    omega
  have hx : signed (unsigned x) = x := by
    unfold signed unsigned
    split <;> omega
  have hbytes : (encode x).foldr (fun b n => b.toNat + 256 * n) 0 = unsigned x := by
    simp only [encode, List.foldr_cons, List.foldr_nil, UInt8.toNat_ofNat', Nat.mul_zero, Nat.add_zero]
    omega
  rw [decode, hbytes, hx]

theorem numbers_flatMap_encode {l : List ℤ} (h : ∀ x ∈ l, IsInt x) : numbers (l.flatMap encode) = l :=
  Frames.items_flatMap (by decide) length_encode fun x hx => decode_encode (h x hx)

theorem Message.length_bytes (m : Message) : m.bytes.length = 64 := by
  rw [Message.bytes, Frames.length_flatMap length_encode, m.length_eq]

theorem numbers_flatMap_bytes (ms : List Message) : numbers (ms.flatMap Message.bytes) = ms.flatMap Message.buffer := by
  have hbytes : ms.flatMap Message.bytes = (ms.flatMap Message.buffer).flatMap encode := by
    rw [List.flatMap_assoc]
    rfl
  rw [hbytes]
  refine numbers_flatMap_encode fun x hx => ?_
  obtain ⟨m, -, hm⟩ := List.mem_flatMap.mp hx
  exact m.isInt x hm

theorem isInt_foldl_mixInt {l : List ℤ} {num : ℤ} (h : IsInt num) : IsInt (l.foldl mixInt num) := by
  induction l generalizing num with
  | nil => exact h
  | cons x l ih => exact ih (isInt_mixInt num x)

theorem isInt_digest (num : ℤ) (buffer : List UInt8) : IsInt (digest num buffer) :=
  isInt_foldl_mixInt (isInt_mixInt _ _)

/-! ### Waiting for the children -/

/-- The children, in the order of `pids`. -/
def children (c : Config) : List Proc := (List.range (c.numProcs * 2)).map fun k => child (k + 1)

theorem reader_mem_children : .reader t ∈ children c ↔ 1 ≤ t ∧ t ≤ c.numProcs := by
  simp only [children, List.mem_map, List.mem_range, child]
  constructor
  · rintro ⟨k, hk, h⟩
    split at h
    · cases h
      omega
    · cases h
  · rintro ⟨h1, hn⟩
    refine ⟨2 * t - 2, by omega, ?_⟩
    rw [if_pos (by omega), Proc.reader.injEq]
    omega

theorem writer_mem_children : .writer t ∈ children c ↔ 1 ≤ t ∧ t ≤ c.numProcs := by
  simp only [children, List.mem_map, List.mem_range, child]
  constructor
  · rintro ⟨k, hk, h⟩
    split at h
    · cases h
    · cases h
      omega
  · rintro ⟨h1, hn⟩
    refine ⟨2 * t - 1, by omega, ?_⟩
    rw [if_neg (by omega), Proc.writer.injEq]
    omega

theorem main_not_mem_children : .main ∉ children c := by
  simp only [children, List.mem_map, child]
  rintro ⟨k, -, h⟩
  split at h <;> cases h

theorem nodup_children : (children c).Nodup := by
  refine List.Nodup.map_on (fun k _ l _ h => ?_) List.nodup_range
  simp only [child] at h
  split at h <;> split at h <;> simp only [Proc.reader.injEq, Proc.writer.injEq, reduceCtorEq] at h <;> omega

theorem length_children : (children c).length = c.numProcs * 2 := by
  simp [children]

/-- `wait` finds every child in `pids`. -/
theorem pidIndex_eq_some {r : Proc} (h : r ∈ children c) : ∃ k, pidIndex c r = some k ∧ child (k + 1) = r := by
  obtain ⟨k, hk, hkr⟩ := List.mem_map.mp h
  have hsome : (pidIndex c r).isSome := List.find?_isSome.mpr ⟨k, hk, decide_eq_true hkr⟩
  obtain ⟨l, hl⟩ := Option.isSome_iff_exists.mp hsome
  exact ⟨l, hl, of_decide_eq_true (List.find?_some (p := fun k => child (k + 1) = r) hl)⟩

def MainPc.Waited (c : Config) (n : ℕ) : MainPc → Prop
  | .forking _ | .closing _ => n = 0
  | .waiting i => i = n + 1 ∧ n ≤ c.numProcs * 2
  | .readOut i _ => 1 ≤ i ∧ n = c.numProcs * 2
  | .printed _ | .failed => n = c.numProcs * 2

/-- The children that `main` has waited for, from the lines it has printed. -/
def State.reaped (s : State) : List Proc := s.lines.map fun k => child (k + 1)

/-- The children that have exited are, once each, those that `main` has waited for and those it has not. -/
structure Waits (c : Config) (s : State) : Prop where
  nodup : (s.zombies ++ s.reaped).Nodup
  mem : ∀ p, p ∈ s.zombies ++ s.reaped ↔ s.Exited p
  waited : s.main.Waited c s.lines.length

theorem mem_children_of_exited (hf : Forks c s) {p : Proc} (h : s.Exited p) : p ∈ children c := by
  cases p with
  | main => exact h.elim
  | reader t =>
    exact reader_mem_children.mpr ((hf.reader t).mp (Phase.born_of_exited h)).1
  | writer t =>
    exact writer_mem_children.mpr ((hf.writer t).mp (Phase.born_of_exited h)).1

theorem Waits.same (h : Waits c s) (hz : s'.zombies = s.zombies) (hl : s'.lines = s.lines)
    (he : ∀ p, s'.Exited p ↔ s.Exited p) (hm : s'.main.Waited c s.lines.length) : Waits c s' where
  nodup := by
    rw [hz, State.reaped, hl]
    exact h.nodup
  mem p := by
    rw [hz, State.reaped, hl, he]
    exact h.mem p
  waited := hl ▸ hm

theorem Waits.exit {p : Proc} (h : Waits c s) (hz : s'.zombies = s.zombies ++ [p]) (hl : s'.lines = s.lines)
    (hm : s'.main = s.main) (hp : ¬s.Exited p) (he : ∀ q, s'.Exited q ↔ q = p ∨ s.Exited q) : Waits c s' where
  nodup := by
    have hnot : p ∉ s.zombies ++ s.reaped := fun hmem => hp ((h.mem p).mp hmem)
    rw [hz, State.reaped, hl, List.append_assoc, List.singleton_append]
    exact List.nodup_middle.mpr (List.nodup_cons.mpr ⟨hnot, h.nodup⟩)
  mem q := by
    have := h.mem q
    rw [hz, State.reaped, hl, he, ← h.mem]
    simp only [State.reaped, List.mem_append, List.mem_singleton]
    tauto
  waited := by
    rw [hm, hl]
    exact h.waited

theorem Waits.wait {i : ℕ} {r : Proc} (h : Waits c s) (hf : Forks c s) (hm : s.main = .waiting i)
    (hi : i ≤ c.numProcs * 2) (hr : r ∈ s.zombies) :
    Waits c { s with main := .waiting (i + 1), zombies := s.zombies.erase r,
                     lines := s.lines ++ (pidIndex c r).toList } := by
  have hexit : s.Exited r := (h.mem r).mp (List.mem_append_left _ hr)
  obtain ⟨k, hk, rfl⟩ := pidIndex_eq_some (mem_children_of_exited hf hexit)
  have hperm : (s.zombies.erase (child (k + 1)) ++ (s.reaped ++ [child (k + 1)])).Perm (s.zombies ++ s.reaped) :=
    calc List.Perm _ (s.zombies.erase (child (k + 1)) ++ child (k + 1) :: s.reaped) :=
        (List.perm_append_singleton _ _).append_left _
      List.Perm _ (child (k + 1) :: s.zombies.erase (child (k + 1)) ++ s.reaped) := List.perm_middle
      List.Perm _ (s.zombies ++ s.reaped) := (List.perm_cons_erase hr).symm.append_right _
  have hreaped : (s.lines ++ (pidIndex c (child (k + 1))).toList).map (fun k => child (k + 1)) =
      s.reaped ++ [child (k + 1)] := by
    rw [hk, Option.toList_some, List.map_append]
    rfl
  refine ⟨?_, fun p => ?_, ?_⟩
  · rw [State.reaped, hreaped]
    exact hperm.nodup_iff.mpr h.nodup
  · rw [State.reaped, hreaped, hperm.mem_iff, h.mem]
    cases p <;> exact Iff.rfl
  · have := h.waited
    rw [hm] at this
    rw [hk, Option.toList_some, List.length_append, List.length_singleton]
    exact ⟨by simpa using this.1, by have := this.1; omega⟩

theorem exited_update {α β : Type} {f : ℕ → α} (phase : α → Phase β) {a : α} (hf : ¬(phase (f t)).Exited)
    (ha : ¬(phase a).Exited) (u : ℕ) : (phase (Function.update f t a u)).Exited ↔ (phase (f u)).Exited := by
  by_cases hu : u = t
  · subst hu
    rw [Function.update_self]
    exact iff_of_false ha hf
  · rw [Function.update_of_ne hu]

theorem ReaderStep.waits (hr : ReaderStep c t s s') (h : Waits c s) : Waits c s' := by
  cases hr with
  | closeUnused hp | enter hp | read hp | eof hp | write hp | closeEnd hp =>
    refine h.same rfl rfl (fun p => ?_) h.waited
    cases p with
    | reader u => exact exited_update Reader.phase (by simp [hp, Phase.Exited]) (by simp [Phase.Exited]) u
    | _ => exact Iff.rfl
  | exit hp =>
    refine h.exit (p := .reader t) rfl rfl rfl (by simp [State.Exited, hp, Phase.Exited]) fun q => ?_
    cases q with
    | reader u =>
      by_cases hu : u = t
      · subst hu
        simp [State.Exited, Phase.Exited]
      · simp [State.Exited, hu]
    | _ => simp [State.Exited]

theorem WriterStep.waits (hw : WriterStep c t s s') (h : Waits c s) : Waits c s' := by
  cases hw with
  | closeUnused hp | enter hp | write hp | leave hp | closeEnd hp =>
    refine h.same rfl rfl (fun p => ?_) h.waited
    cases p with
    | writer u => exact exited_update Writer.phase (by simp [hp, Phase.Exited]) (by simp [Phase.Exited]) u
    | _ => exact Iff.rfl
  | exit hp =>
    refine h.exit (p := .writer t) rfl rfl rfl (by simp [State.Exited, hp, Phase.Exited]) fun q => ?_
    cases q with
    | writer u =>
      by_cases hu : u = t
      · subst hu
        simp [State.Exited, Phase.Exited]
      · simp [State.Exited, hu]
    | _ => simp [State.Exited]

theorem MainStep.waits (hm : MainStep c s s') (hf : Forks c s) (h : Waits c s) : Waits c s' := by
  have hw := h.waited
  cases hm with
  | @forkReader i t hm hi ht =>
    rw [hm] at hw
    refine h.same rfl rfl (fun p => ?_) hw
    cases p with
    | reader u =>
      exact exited_update Reader.phase (mt Phase.born_of_exited (hf.reader_unborn hm hi)) (by simp [Phase.Exited]) u
    | _ => exact Iff.rfl
  | @forkWriter i t hm hi ht =>
    rw [hm] at hw
    refine h.same rfl rfl (fun p => ?_) hw
    cases p with
    | writer u =>
      exact exited_update Writer.phase (mt Phase.born_of_exited (hf.writer_unborn hm hi)) (by simp [Phase.Exited]) u
    | _ => exact Iff.rfl
  | wait hm hi hr => exact h.wait hf hm hi hr
  | close hm | closeUnused hm =>
    rw [hm] at hw
    exact h.same rfl rfl (fun p => by cases p <;> exact Iff.rfl) hw
  | closed hm =>
    rw [hm] at hw
    simp only [MainPc.Waited] at hw
    exact h.same rfl rfl (fun p => by cases p <;> exact Iff.rfl) ⟨by omega, by omega⟩
  | waited hm =>
    rw [hm] at hw
    exact h.same rfl rfl (fun p => by cases p <;> exact Iff.rfl) ⟨by omega, by have := hw.1; have := hw.2; omega⟩
  | collect hm =>
    rw [hm] at hw
    exact h.same rfl rfl (fun p => by cases p <;> exact Iff.rfl) ⟨by omega, hw.2⟩
  | fail hm | print hm =>
    rw [hm] at hw
    exact h.same rfl rfl (fun p => by cases p <;> exact Iff.rfl) hw.2

theorem waits_of_reach (h : (machine c cap).Reachable s) : Waits c s := by
  induction h with
  | init => exact ⟨List.nodup_nil, fun p => by cases p <;> simp [machine, start, State.reaped, State.Exited, Phase.Exited], rfl⟩
  | step a hr _ hs ih =>
    exact keeps_of_steps (fun _ hr => hr.waits ih) (fun _ hw => hw.waits ih)
      (fun hm => hm.waits (forks_of_reach hr) ih) hs

theorem exited_of_readOut {i : ℕ} {mix_sig : ℤ} (h : Waits c s) (hf : Forks c s) (hm : s.main = .readOut i mix_sig)
    {p : Proc} (hp : p ∈ children c) : s.Exited p := by
  have hw := h.waited
  rw [hm] at hw
  have hsub : s.reaped ⊆ children c := fun q hq =>
    mem_children_of_exited hf ((h.mem q).mp (List.mem_append_right _ hq))
  have hlen : (children c).length ≤ s.reaped.length := by
    rw [length_children, State.reaped, List.length_map, hw.2]
  have hperm : s.reaped.Perm (children c) := (h.nodup.of_append_right.subperm hsub).perm_of_length_le hlen
  exact (h.mem p).mp (List.mem_append_right _ (hperm.mem_iff.mpr hp))

/-- While `main` waits and nobody is there to be waited for, some child has not exited. -/
theorem exists_not_exited {i : ℕ} (h : Waits c s) (hm : s.main = .waiting i) (hi : i ≤ c.numProcs * 2)
    (hz : s.zombies = []) : ∃ p ∈ children c, ¬s.Exited p := by
  by_contra hall
  push Not at hall
  have hw := h.waited
  rw [hm] at hw
  have hsub : children c ⊆ s.reaped := fun p hp => by
    have := (h.mem p).mpr (hall p hp)
    rwa [hz, List.nil_append] at this
  have hlen := (nodup_children.subperm hsub).length_le
  rw [length_children, State.reaped, List.length_map] at hlen
  have := hw.1
  omega

/-! ### The output pipes -/

/-- `main` has read output pipe `t`, or is past its loop over them. -/
def MainPc.Collected (t : ℕ) : MainPc → Prop
  | .readOut i _ => t < i
  | .printed _ | .failed => True
  | _ => False

/-- Until `main` reads it, an output pipe holds the digest of a reader that is done, and nothing before. -/
structure Outputs (s : State) : Prop where
  isInt : ∀ t, (s.reader t).SawEof → IsInt (s.reader t).num
  empty : ∀ t, ¬s.main.Collected t → ¬(s.reader t).phase.Ended → s.buf (.output t) = []
  full : ∀ t, ¬s.main.Collected t → (s.reader t).phase.Ended → s.buf (.output t) = encode (s.reader t).num

theorem Reader.sawEof_of_ended {r : Reader} (h : r.phase.Ended) : r.SawEof := by
  obtain ⟨phase, num⟩ := r
  cases phase with
  | finish | exited => trivial
  | _ => exact h.elim

theorem Outputs.same (h : Outputs s) (hr : s'.reader = s.reader) (hb : ∀ t, s'.buf (.output t) = s.buf (.output t))
    (hm : ∀ t, s.main.Collected t → s'.main.Collected t) : Outputs s' where
  isInt t := by
    rw [hr]
    exact h.isInt t
  empty t hc := by
    rw [hr, hb]
    exact h.empty t (mt (hm t) hc)
  full t hc := by
    rw [hr, hb]
    exact h.full t (mt (hm t) hc)

/-- A step of reader `t`, from what it says about that reader and its output pipe. -/
theorem Outputs.update (h : Outputs s) (hr : ∀ u, u ≠ t → s'.reader u = s.reader u)
    (hb : ∀ u, u ≠ t → s'.buf (.output u) = s.buf (.output u)) (hm : ∀ u, s'.main.Collected u ↔ s.main.Collected u)
    (hint : (s'.reader t).SawEof → IsInt (s'.reader t).num)
    (hempty : ¬s.main.Collected t → ¬(s'.reader t).phase.Ended → s'.buf (.output t) = [])
    (hfull : ¬s.main.Collected t → (s'.reader t).phase.Ended → s'.buf (.output t) = encode (s'.reader t).num) :
    Outputs s' where
  isInt u := by
    by_cases hu : u = t
    · exact hu ▸ hint
    · rw [hr u hu]
      exact h.isInt u
  empty u := by
    rw [hm]
    by_cases hu : u = t
    · exact hu ▸ hempty
    · rw [hr u hu, hb u hu]
      exact h.empty u
  full u := by
    rw [hm]
    by_cases hu : u = t
    · exact hu ▸ hfull
    · rw [hr u hu, hb u hu]
      exact h.full u

theorem ReaderStep.outputs (hr : ReaderStep c t s s') (h : Outputs s) : Outputs s' := by
  have hf := hr.frame
  have hreader : ∀ u, u ≠ t → s'.reader u = s.reader u := fun u hu => hf.reader u (by simpa using hu)
  have hmain : ∀ u, s'.main.Collected u ↔ s.main.Collected u := fun u => by rw [hf.main]
  have hempty := h.empty t
  have hfull := h.full t
  have hint := h.isInt t
  cases hr with
  | closeUnused hp | enter hp =>
    rw [hp] at hempty
    exact h.update hreader (fun _ _ => rfl) hmain (by simp [Reader.SawEof]) (fun hc _ => hempty hc (fun h => h))
      (by simp [Phase.Ended])
  | read hp =>
    rw [hp] at hempty
    refine h.update hreader (fun u _ => by simp) hmain (by simp [Reader.SawEof]) (fun hc _ => ?_) (by simp [Phase.Ended])
    simpa using hempty hc (fun h => h)
  | eof hp =>
    rw [hp] at hempty
    refine h.update hreader (fun _ _ => rfl) hmain (fun _ => ?_) (fun hc _ => hempty hc (fun h => h))
      (by simp [Phase.Ended])
    simp only [State.setReader_reader, Function.update_self]
    exact isInt_digest _ _
  | write hp =>
    rw [hp] at hempty
    refine h.update hreader (fun u hu => by simp [hu]) hmain (fun _ => ?_) (by simp [Phase.Ended]) fun hc _ => ?_
    · simpa using hint (by simp [Reader.SawEof, hp])
    · simp [hempty hc (fun h => h)]
  | closeEnd hp | exit hp =>
    rw [hp] at hfull
    refine h.update hreader (fun _ _ => rfl) hmain (fun _ => ?_) (by simp [Phase.Ended]) fun hc _ => ?_
    · simpa using hint (by simp [Reader.SawEof, hp])
    · simpa using hfull hc trivial

theorem MainStep.outputs (hm : MainStep c s s') (hf : Forks c s) (h : Outputs s) : Outputs s' := by
  cases hm with
  | @forkReader i t hm hi ht =>
    have hnot : ¬(s.reader t).phase.Ended := mt Phase.born_of_ended (hf.reader_unborn hm hi)
    refine h.update (t := t) (fun u hu => by simp [hu]) (fun _ _ => rfl) (fun u => by simp [hm, MainPc.Collected])
      (by simp [Reader.SawEof]) (fun hc _ => h.empty t hc hnot) (by simp [Phase.Ended])
  | forkWriter hm | close hm | closeUnused hm | closed hm | wait hm | waited hm =>
    exact h.same rfl (fun _ => rfl) fun t => by simp [hm, MainPc.Collected]
  | @collect i mix_sig mix_sig' hm hi =>
    -- What is not collected after the step is another pipe, and was not collected before.
    have hne : ∀ u, ¬u < i + 1 → ¬s.main.Collected u ∧ u ≠ i := fun u hu => by
      simp only [hm, MainPc.Collected]
      omega
    refine ⟨h.isInt, fun u hc he => ?_, fun u hc he => ?_⟩
    · obtain ⟨hc, hu⟩ := hne u hc
      simpa [hu] using h.empty u hc he
    · obtain ⟨hc, hu⟩ := hne u hc
      simpa [hu] using h.full u hc he
  | fail => exact ⟨h.isInt, fun u hc => (hc trivial).elim, fun u hc => (hc trivial).elim⟩
  | print hm => exact h.same rfl (fun _ => rfl) fun t _ => trivial

theorem outputs_of_reach (h : (machine c cap).Reachable s) : Outputs s := by
  induction h with
  | init => exact ⟨fun t h => h.elim, fun _ _ _ => rfl, fun _ _ h => h.elim⟩
  | step a hr _ hs ih =>
    refine keeps_of_steps (fun _ hr => hr.outputs ih) (fun t hw => ?_)
      (fun hm => hm.outputs (forks_of_reach hr) ih) hs
    have hf := hw.frame
    refine ih.same (funext fun u => hf.reader u (by simp)) (fun u => ?_) fun u => by rw [hf.main]; exact id
    cases hw with
    | write => simp
    | _ => rfl

theorem ofBytes_encode {x : ℤ} (h : IsInt x) : Output.ofBytes ((encode x).take 4) = ⟨4, x⟩ := by
  have htake : (encode x).take 4 = encode x := List.take_of_length_le (length_encode x).le
  rw [htake, Output.ofBytes, length_encode]
  simp [decode_encode h]

/-- When `main` gets to output pipe `i`, reader `i` has exited and its digest is all that the pipe holds. -/
theorem buf_output_of_reach {i : ℕ} {mix_sig : ℤ} (h : (machine c cap).Reachable s) (hm : s.main = .readOut i mix_sig)
    (hi : i < c.numProcs) :
    (s.reader i).phase = .exited ∧ IsInt (s.reader i).num ∧ s.buf (.output i) = encode (s.reader i).num := by
  have hw := waits_of_reach h
  have ho := outputs_of_reach h
  have hpos := hw.waited
  rw [hm] at hpos
  have hexit : (s.reader i).phase.Exited :=
    exited_of_readOut hw (forks_of_reach h) hm (p := .reader i) (reader_mem_children.mpr ⟨hpos.1, hi.le⟩)
  have hp : (s.reader i).phase = .exited := by
    cases hp : (s.reader i).phase <;> simp_all [Phase.Exited]
  have hended : (s.reader i).phase.Ended := by simp [hp, Phase.Ended]
  exact ⟨hp, ho.isInt i (Reader.sawEof_of_ended hended), ho.full i (by simp [hm, MainPc.Collected]) hended⟩

/-- So that is what `main` reads there. -/
theorem readOutput_of_reach {i : ℕ} {mix_sig : ℤ} (h : (machine c cap).Reachable s) (hm : s.main = .readOut i mix_sig)
    (hi : i < c.numProcs) : (s.reader i).phase = .exited ∧
      readOutput c s i = some (⟨4, (s.reader i).num⟩, s.setBuf (.output i) []) := by
  obtain ⟨hexit, hint, hbuf⟩ := buf_output_of_reach h hm hi
  refine ⟨hexit, ?_⟩
  have hw := (waits_of_reach h).waited
  rw [hm] at hw
  have hfd : s.fds .main ⟨.output i, .rd⟩ = true :=
    (table_of_reach h).main.kept _ (by rw [hm]; exact ⟨⟨hw.1, hi.le⟩, i, rfl⟩)
  have hread : s.read c .main (.output i) 4 = some ((encode (s.reader i).num).take 4, s.setBuf (.output i) []) :=
    read_eq_some.mpr ⟨⟨hfd, .inl (by rw [hbuf]; exact List.cons_ne_nil _ _)⟩, by rw [hbuf]; rfl⟩
  rw [readOutput, hread, Option.map_some, ofBytes_encode hint]

/-- `main` never takes an early `return 1` of its last loop. -/
theorem main_ne_failed (h : (machine c cap).Reachable s) : s.main ≠ .failed := by
  induction h with
  | init => exact fun h => by cases h
  | step a hr _ hs ih =>
    refine keeps_of_steps (I := fun s => s.main ≠ .failed) (fun _ hr => ?_) (fun _ hw => ?_) (fun hm => ?_) hs
    · rwa [hr.frame.main]
    · rwa [hw.frame.main]
    · cases hm with
      | fail hm hi hc =>
        obtain ⟨-, hint, hbuf⟩ := buf_output_of_reach hr hm hi
        rw [hbuf, ofBytes_encode hint] at hc
        simp [collectOne] at hc
      | _ => simp

/-! ### The input pipes -/

/-- The record of a run agrees with the state: each reader has folded in the messages sent to its pipe, up to
    those that the pipe still holds, and each writer's counter is the number of messages it has written. -/
structure Logged (s : State) (o : Log) : Prop where
  written : ∀ t, o.written t = (s.writer t).i
  inputs : ∀ t, ∃ got, Frames.InFlight Message.bytes (o.sent t) got (s.buf (.inputs t)) ∧
    o.folded t = got.flatMap Message.buffer

theorem Logged.same {o : Log} (h : Logged s o) (hi : ∀ t, (s'.writer t).i = (s.writer t).i)
    (hb : ∀ t, s'.buf (.inputs t) = s.buf (.inputs t)) : Logged s' o where
  written t := by
    rw [hi]
    exact h.written t
  inputs t := by
    rw [hb]
    exact h.inputs t

theorem Logged.reader_step {o : Log} (h : Logged s o) (hr : ReaderStep c t s s') :
    Logged s' ((observer c).note (.reader t) s o) := by
  have read : ∀ s', (∀ u, s'.writer u = s.writer u) → (∀ u, u ≠ t → s'.buf (.inputs u) = s.buf (.inputs u)) →
      s'.buf (.inputs t) = (s.buf (.inputs t)).drop 128 →
      Logged s' { o with
        reads := Function.update o.reads t (o.reads t ++ [(s.buf (.inputs t)).take 128])
        folded := Function.update o.folded t (o.folded t ++ numbers ((s.buf (.inputs t)).take 128)) } := by
    intro s' hw hb ht
    refine ⟨fun u => by rw [hw]; exact h.written u, fun u => ?_⟩
    obtain ⟨got, hflight, hfold⟩ := h.inputs u
    by_cases hu : u = t
    · subst hu
      obtain ⟨new, htake, hflight⟩ := hflight.receive Message.length_bytes 2
      refine ⟨got ++ new, ht ▸ hflight, ?_⟩
      simp only [Function.update_self, hfold, htake, numbers_flatMap_bytes, List.flatMap_append]
    · exact ⟨got, hb u hu ▸ hflight, by simpa [hu] using hfold⟩
  cases hr with
  | closeUnused hp | enter hp | closeEnd hp | exit hp =>
    simp only [observer, hp]
    exact h.same (fun _ => rfl) fun _ => rfl
  | write hp =>
    simp only [observer, hp]
    exact h.same (fun _ => rfl) fun u => by simp
  | read hp =>
    simp only [observer, hp]
    exact read _ (fun _ => rfl) (fun u hu => by simp [hu]) (by simp)
  | eof hp hb =>
    simp only [observer, hp]
    exact read _ (fun _ => rfl) (fun _ _ => rfl) (by simp [hb])

theorem Logged.writer_step {o : Log} (h : Logged s o) (hw : WriterStep c t s s') :
    Logged s' ((observer c).note (.writer t) s o) := by
  have same : ∀ {phase : Phase WriterPc} {num : ℤ} (u : ℕ),
      (Function.update s.writer t ⟨phase, num, (s.writer t).i⟩ u).i = (s.writer u).i := by
    intro phase num u
    by_cases hu : u = t
    · subst hu
      simp
    · simp [hu]
  cases hw with
  | closeUnused hp | enter hp | closeEnd hp | exit hp =>
    simp only [observer, hp]
    exact h.same same fun _ => rfl
  | leave hp hi =>
    simp only [observer, hp, if_neg hi]
    exact h.same same fun _ => rfl
  | @write k num hp hi hk =>
    simp only [observer, hp, if_pos hi, ← hk]
    refine ⟨fun u => ?_, fun u => ?_⟩
    · by_cases hu : u = t
      · subst hu
        simp [h.written]
      · simpa [hu] using h.written u
    · obtain ⟨got, hflight, hfold⟩ := h.inputs u
      refine ⟨got, ?_, hfold⟩
      by_cases hu : u = k
      · subst hu
        simpa using hflight.send (message (s.writer t).num)
      · simpa [hu] using hflight

theorem Logged.main_step {o : Log} (h : Logged s o) (hm : MainStep c s s') (hf : Forks c s)
    (hc : ∀ t, (s.writer t).Counted c) : Logged s' o := by
  cases hm with
  | @forkWriter i t hm hi ht =>
    refine h.same (fun u => ?_) fun _ => rfl
    by_cases hu : u = t
    · subst hu
      simp [(hc u).unborn (hf.writer_unborn hm hi)]
    · simp [hu]
  | collect | fail => exact h.same (fun _ => rfl) fun u => by simp
  | _ => exact h.same (fun _ => rfl) fun _ => rfl

theorem logged_of_reach {p : State × Log} (h : ((machine c cap).watch (observer c)).Reachable p) :
    (machine c cap).Reachable p.1 ∧ Logged p.1 p.2 := by
  induction h with
  | init => exact ⟨.init, fun _ => rfl, fun _ => ⟨[], .start, rfl⟩⟩
  | @step p q a _ _ hs ih =>
    obtain ⟨hr, hlog⟩ := ih
    obtain ⟨hs, hq⟩ := Machine.watch_step_eq_some.mp hs
    refine ⟨hr.step a trivial hs, ?_⟩
    have hf := forks_of_reach hr
    rw [hq]
    cases a with
    | main => exact hlog.main_step (mainStep_of_step hs) hf (counted_of_reach hr)
    | wait r => exact hlog.main_step (mainStep_of_wait hs) hf (counted_of_reach hr)
    | reader t => exact hlog.reader_step (readerStep_of_step hs)
    | writer t => exact hlog.writer_step (writerStep_of_step hs)

/-! ### The readers' digests -/

/-- Each reader has mixed in what its reads have returned. -/
structure Mixed (s : State) (o : Log) : Prop where
  folded : ∀ t, o.folded t = (o.reads t).flatMap numbers
  unborn : ∀ t, ¬ (s.reader t).phase.Born → o.reads t = []
  num : ∀ t, (s.reader t).phase.Born → (s.reader t).num = (mixedIn (o.reads t)).foldl mixInt (signed (sigInit t))

theorem Mixed.same {o : Log} (h : Mixed s o)
    (hr : ∀ t, ((s'.reader t).phase.Born ↔ (s.reader t).phase.Born) ∧ (s'.reader t).num = (s.reader t).num) : Mixed s' o where
  folded := h.folded
  unborn t hborn := h.unborn t ((hr t).1.not.mp hborn)
  num t hborn := (hr t).2.trans (h.num t ((hr t).1.mp hborn))

/-- Reader `t` takes a step in which it reads nothing. -/
theorem Mixed.goto {o : Log} (h : Mixed s o) {r : Reader} (hr : s'.reader = Function.update s.reader t r)
    (hborn : (s.reader t).phase.Born ∧ r.phase.Born) (hnum : r.num = (s.reader t).num) : Mixed s' o := by
  refine h.same fun u => ?_
  rw [hr]
  rcases eq_or_ne u t with rfl | hu
  · rw [Function.update_self]
    exact ⟨iff_of_true hborn.2 hborn.1, hnum⟩
  · rw [Function.update_of_ne hu]
    exact ⟨Iff.rfl, rfl⟩

theorem Mixed.read {o : Log} (h : Mixed s o) {bytes : List UInt8} {r : Reader} (hr : s'.reader = Function.update s.reader t r)
    (hborn : (s.reader t).phase.Born ∧ r.phase.Born) (hnum : r.num = digest (s.reader t).num bytes) :
    Mixed s' { o with
      reads := Function.update o.reads t (o.reads t ++ [bytes])
      folded := Function.update o.folded t (o.folded t ++ numbers bytes) } := by
  refine ⟨fun u => ?_, fun u hu => ?_, fun u hu => ?_⟩ <;> rcases eq_or_ne u t with rfl | hne
  · simp only [Function.update_self, h.folded, List.flatMap_append, List.flatMap_singleton]
  · simpa only [Function.update_of_ne hne] using h.folded u
  · rw [hr, Function.update_self] at hu
    exact absurd hborn.2 hu
  · rw [hr, Function.update_of_ne hne] at hu
    simpa only [Function.update_of_ne hne] using h.unborn u hu
  · -- The size of what was read, and the integers in it, come last.
    simp only [hr, Function.update_self, hnum, digest, h.num u hborn.1, mixedIn, List.flatMap_append, List.flatMap_singleton,
      List.foldl_append, List.foldl_cons]
  · rw [hr, Function.update_of_ne hne] at hu ⊢
    simpa only [Function.update_of_ne hne] using h.num u hu

theorem Mixed.reader_step {o : Log} (h : Mixed s o) (hr : ReaderStep c t s s') :
    Mixed s' ((observer c).note (.reader t) s o) := by
  have hborn := hr.born
  cases hr with
  | closeUnused hp | enter hp | closeEnd hp | exit hp | write hp =>
    simp only [observer, hp]
    exact h.goto rfl ⟨hborn.1, trivial⟩ rfl
  | read hp =>
    simp only [observer, hp]
    exact h.read rfl ⟨hborn.1, trivial⟩ rfl
  | eof hp hb =>
    simp only [observer, hp, hb, List.take_nil]
    exact h.read rfl ⟨hborn.1, trivial⟩ rfl

theorem Mixed.writer_step {o : Log} (h : Mixed s o) (hw : WriterStep c t s s') :
    Mixed s' ((observer c).note (.writer t) s o) := by
  have hsame : Mixed s' o := h.same fun u => by
    rw [hw.frame.reader u Proc.noConfusion]
    exact ⟨Iff.rfl, rfl⟩
  simp only [observer]
  split
  · split
    · exact ⟨hsame.folded, hsame.unborn, hsame.num⟩
    · exact hsame
  · exact hsame

theorem Mixed.main_step {o : Log} (h : Mixed s o) (hm : MainStep c s s') (hf : Forks c s) : Mixed s' o := by
  cases hm with
  | @forkReader i t hm hi ht =>
    have hunborn := hf.reader_unborn hm hi
    refine ⟨h.folded, fun u hu => ?_, fun u hu => ?_⟩ <;> rcases eq_or_ne u t with rfl | hne
    · exact h.unborn u hunborn
    · exact h.unborn u (by simpa [hne] using hu)
    · simp [h.unborn u hunborn, mixedIn]
    · simpa [hne] using h.num u (by simpa [hne] using hu)
  | _ => exact h.same fun _ => ⟨Iff.rfl, rfl⟩

theorem mixed_of_reach {p : State × Log} (h : ((machine c cap).watch (observer c)).Reachable p) : Mixed p.1 p.2 := by
  have hstart : Mixed (start c) (observer c).start := ⟨fun _ => rfl, fun _ _ => rfl, fun _ hborn => False.elim hborn⟩
  refine (h.invariant (I := fun p => (machine c cap).Reachable p.1 ∧ Mixed p.1 p.2) ⟨.init, hstart⟩
    fun a p q ⟨hr, hmixed⟩ _ hs => ?_).2
  obtain ⟨hs, hq⟩ := Machine.watch_step_eq_some.mp hs
  refine ⟨hr.step a trivial hs, ?_⟩
  rw [hq]
  cases a with
  | main => exact hmixed.main_step (mainStep_of_step hs) (forks_of_reach hr)
  | wait r => exact hmixed.main_step (mainStep_of_wait hs) (forks_of_reach hr)
  | reader t => exact hmixed.reader_step (readerStep_of_step hs)
  | writer t => exact hmixed.writer_step (writerStep_of_step hs)

/-- Every message is delivered exactly once, in every state of every run. The integers that a reader has folded
    in are those of the messages at the front of its pipe's order, whole; the pipe holds the rest. They are the
    integers that its reads have returned, and its `num` is what mixing in the size and the integers of each read
    gives. A reader that has seen end of file has folded in all of the messages, and by then every writer has written
    `MaxLoop` of them. And `main` is never in its early `return`: what it reads from an output pipe is the four bytes
    of the digest of a reader that has exited. -/
theorem delivers_exactly_once {o : Log} (h : ((machine c cap).watch (observer c)).Reachable (s, o)) :
    (∀ t, ∃ done rest, o.sent t = done ++ rest ∧ o.folded t = done.flatMap Message.buffer ∧
      s.buf (.inputs t) = rest.flatMap Message.bytes) ∧
    (∀ t, o.folded t = (o.reads t).flatMap numbers ∧ ((s.reader t).phase.Born →
      (s.reader t).num = (mixedIn (o.reads t)).foldl mixInt (signed (sigInit t)))) ∧
    (∀ t, (s.reader t).SawEof → o.folded t = (o.sent t).flatMap Message.buffer ∧
      ∀ u, 1 ≤ u ∧ u ≤ c.numProcs → o.written u = c.maxLoop) ∧
    (∀ i mix_sig, s.main = .readOut i mix_sig → i < c.numProcs → (s.reader i).phase = .exited ∧
      readOutput c s i = some (⟨4, (s.reader i).num⟩, s.setBuf (.output i) [])) ∧
    s.main ≠ .failed := by
  have hr : (machine c cap).Reachable s := (logged_of_reach h).1
  have hlog : Logged s o := (logged_of_reach h).2
  have hmixed := mixed_of_reach h
  refine ⟨fun t => ?_, fun t => ⟨hmixed.folded t, hmixed.num t⟩, fun t heof => ⟨?_, fun u hu => ?_⟩,
    fun i mix_sig => readOutput_of_reach hr, main_ne_failed hr⟩
  · obtain ⟨got, ⟨rest, hsent, hbuf⟩, hfold⟩ := hlog.inputs t
    exact ⟨got, rest, hsent, hfold, hbuf⟩
  · obtain ⟨got, hflight, hfold⟩ := hlog.inputs t
    obtain ⟨hbuf, -⟩ := atEof_of_reach hr t heof
    rw [hbuf] at hflight
    rw [hfold, hflight.drained (by decide) Message.length_bytes]
  · obtain ⟨-, hended⟩ := atEof_of_reach hr t heof
    rw [hlog.written u]
    exact (counted_of_reach hr u).ended (hended u hu)

/-- The run of two readers and two writers, each with one message to send, up to where `main` has waited for all. -/
def runTwo : List Move :=
  List.replicate 12 .main ++ List.replicate 12 (.writer 1) ++ List.replicate 8 (.reader 1) ++
    List.replicate 12 (.writer 2) ++ List.replicate 2 (.reader 2) ++ List.replicate 5 (.reader 1) ++
    List.replicate 11 (.reader 2) ++ [.wait (.reader 1), .wait (.writer 1), .wait (.reader 2), .wait (.writer 2)]

/-- A whole run of two readers and two writers, up to where `main` reads the first output pipe. -/
theorem delivers_exactly_once_two :
    ∃ s o, ((machine ⟨2, 1⟩ fun _ => 64).watch (observer ⟨2, 1⟩)).Reachable (s, o) ∧
      (s.reader 1).num = (mixedIn (o.reads 1)).foldl mixInt (signed (sigInit 1)) ∧
      (o.reads 1).flatMap numbers = (o.sent 1).flatMap Message.buffer ∧ o.written 1 = 1 ∧ o.written 2 = 1 ∧
      readOutput ⟨2, 1⟩ s 1 = some (⟨4, (s.reader 1).num⟩, s.setBuf (.output 1) []) ∧ s.main ≠ .failed := by
  obtain ⟨⟨s, o⟩, hr, hp⟩ := Machine.exists_reachable
    (M := (machine ⟨2, 1⟩ fun _ => 64).watch (observer ⟨2, 1⟩))
    (p := fun p => decide (p.1.main = .readOut 1 0)) (runTwo ++ [.main]) (by decide +kernel)
  obtain ⟨-, hnum, heof, hout, hfail⟩ := delivers_exactly_once hr
  obtain ⟨hexit, hread⟩ := hout 1 0 (of_decide_eq_true hp) (by decide)
  obtain ⟨hfold, hall⟩ := heof 1 (by simp [Reader.SawEof, hexit])
  exact ⟨s, o, hr, (hnum 1).2 (by simp [Phase.Born, hexit]), (hnum 1).1.symm.trans hfold, hall 1 (by decide),
    hall 2 (by decide), hread, hfail⟩

end Racey.Forkpipe
