import Racey.Clonepipe
import Racey.Theorems.ForkpipePipes

/-! racey-clonepipe: what one step of each thread does, what `main` has joined and closed, and what is in the output
    pipes. -/

namespace Racey.Clonepipe
open Forkpipe (Pipe Fd inputs output encode digest fill message mixInt target collectOne IsInt)

variable {c : Config} {cap : Pipe → ℕ} {s s' : State} {t u : ℕ}

/-! ### What a step does -/

theorem read_eq_some {pipe : Pipe} {n : ℕ} {r : List UInt8 × State} : s.read pipe n = some r ↔
    (s.fds ⟨pipe, .rd⟩ = true ∧ (s.buf pipe ≠ [] ∨ s.fds ⟨pipe, .wr⟩ = false)) ∧
      r = ((s.buf pipe).take n, s.setBuf pipe ((s.buf pipe).drop n)) := by
  rw [State.read, Option.ite_none_right_eq_some, Option.some.injEq, eq_comm (a := r)]

theorem write_eq_some {pipe : Pipe} {bytes : List UInt8} : s.write cap pipe bytes = some s' ↔
    (s.fds ⟨pipe, .wr⟩ = true ∧ s.fds ⟨pipe, .rd⟩ = true ∧ (s.buf pipe).length + bytes.length ≤ cap pipe) ∧
      s' = s.setBuf pipe (s.buf pipe ++ bytes) := by
  rw [State.write, Option.ite_none_right_eq_some, Option.some.injEq, eq_comm (a := s')]

inductive ReaderStep (t : ℕ) (s : State) : State → Prop
  | read (hp : (s.reader t).phase = .read) (hb : s.buf (.inputs t) ≠ []) :
    ReaderStep t s ((s.setBuf (.inputs t) ((s.buf (.inputs t)).drop 128)).setReader t
      ⟨.read, digest (s.reader t).num ((s.buf (.inputs t)).take 128)⟩)
  | eof (hp : (s.reader t).phase = .read) (hb : s.buf (.inputs t) = []) (ho : s.fds (inputs t .wr) = false) :
    ReaderStep t s (s.setReader t ⟨.write, digest (s.reader t).num []⟩)
  | write (hp : (s.reader t).phase = .write) :
    ReaderStep t s ((s.setBuf (.output t) (s.buf (.output t) ++ encode (s.reader t).num)).setReader t
      ⟨.returned, (s.reader t).num⟩)

theorem setBuf_self (s : State) (p : Pipe) : s.setBuf p (s.buf p) = s := by
  simp [State.setBuf]

theorem readerStep_of_step (h : stepReader cap t s = some s') : ReaderStep t s s' := by
  cases hp : (s.reader t).phase <;> simp only [stepReader, hp, reduceCtorEq] at h
  case read =>
    obtain ⟨r, hr, rfl⟩ := Option.map_eq_some_iff.mp h
    obtain ⟨⟨-, hb⟩, rfl⟩ := read_eq_some.mp hr
    rcases em (s.buf (.inputs t) = []) with hbuf | hbuf
    · have ho := hb.resolve_left (not_not.mpr hbuf)
      simp only [hbuf, List.take_nil, List.drop_nil, List.length_nil, gt_iff_lt, lt_irrefl, if_false]
      rw [← hbuf, setBuf_self, hbuf]
      exact .eof hp hbuf ho
    · have hlen : ((s.buf (.inputs t)).take 128).length > 0 := by
        have := List.length_pos_iff.mpr hbuf
        rw [List.length_take]
        omega
      simp only [hlen, if_true]
      exact .read hp hbuf
  case write =>
    obtain ⟨r, hr, rfl⟩ := Option.map_eq_some_iff.mp h
    obtain ⟨-, rfl⟩ := write_eq_some.mp hr
    exact .write hp

inductive WriterStep (c : Config) (cap : Pipe → ℕ) (t : ℕ) (s : State) : State → Prop
  | write {k : ℕ} (hp : (s.writer t).phase = .loop) (hi : (s.writer t).i < c.maxLoop)
      (hk : k = target c (fill (s.writer t).num).2)
      (hroom : (s.buf (.inputs k)).length + (message (s.writer t).num).bytes.length ≤ cap (.inputs k)) :
    WriterStep c cap t s ((s.setBuf (.inputs k) (s.buf (.inputs k) ++ (message (s.writer t).num).bytes)).setWriter t
      ⟨.loop, mixInt (fill (s.writer t).num).2 (message (s.writer t).num).bytes.length, (s.writer t).i + 1⟩)
  | leave (hp : (s.writer t).phase = .loop) (hi : ¬ (s.writer t).i < c.maxLoop) :
    WriterStep c cap t s (s.setWriter t ⟨.returned, (s.writer t).num, (s.writer t).i⟩)

theorem writerStep_of_step (h : stepWriter c cap t s = some s') : WriterStep c cap t s s' := by
  cases hp : (s.writer t).phase <;> simp only [stepWriter, hp, reduceCtorEq] at h
  case loop =>
    split at h
    · rename_i hi
      obtain ⟨r, hr, rfl⟩ := Option.map_eq_some_iff.mp h
      obtain ⟨⟨-, -, hroom⟩, rfl⟩ := write_eq_some.mp hr
      exact .write hp hi rfl hroom
    · rename_i hi
      cases h
      exact .leave hp hi

inductive MainStep (c : Config) (s : State) : State → Prop
  | spawnReader {i t : ℕ} (hm : s.main = .spawning i) (hi : i + 1 = 2 * t) (ht : t ≤ c.numProcs) :
    MainStep c s ((s.setReader t ⟨.read, signed (sigInit t)⟩).setMain (.spawning (i + 1)))
  | spawnWriter {i t : ℕ} (hm : s.main = .spawning i) (hi : i = 2 * t) (ht : t ≤ c.numProcs) :
    MainStep c s ((s.setWriter t ⟨.loop, signed (sigInit t), 0⟩).setMain (.spawning (i + 1)))
  | spawned {i : ℕ} (hm : s.main = .spawning i) (hi : ¬ i ≤ c.numProcs * 2) : MainStep c s (s.setMain (.joinWriters 1))
  | joinWriter {i : ℕ} (hm : s.main = .joinWriters i) (hi : i ≤ c.numProcs * 2)
      (hw : ∀ t, i = 2 * t → (s.writer t).phase = .returned) : MainStep c s (s.setMain (.joinWriters (i + 1)))
  | writersJoined {i : ℕ} (hm : s.main = .joinWriters i) (hi : ¬ i ≤ c.numProcs * 2) :
    MainStep c s (s.setMain (.closing 1))
  | close {i : ℕ} (hm : s.main = .closing i) (hi : i ≤ c.numProcs) :
    MainStep c s ((s.close (inputs i .wr)).setMain (.closing (i + 1)))
  | closed {i : ℕ} (hm : s.main = .closing i) (hi : ¬ i ≤ c.numProcs) : MainStep c s (s.setMain (.joinReaders 1))
  | joinReader {i : ℕ} (hm : s.main = .joinReaders i) (hi : i ≤ c.numProcs * 2)
      (hr : ∀ t, i + 1 = 2 * t → (s.reader t).phase = .returned) : MainStep c s (s.setMain (.joinReaders (i + 1)))
  | readersJoined {i : ℕ} (hm : s.main = .joinReaders i) (hi : ¬ i ≤ c.numProcs * 2) :
    MainStep c s (s.setMain (.readOut 1 (signed (sigInit 0))))
  | collect {i : ℕ} {mix_sig mix_sig' : ℤ} (hm : s.main = .readOut i mix_sig) (hi : i < c.numProcs)
      (hc : collectOne mix_sig (.ofBytes ((s.buf (.output i)).take 4)) = some mix_sig') :
    MainStep c s ((s.setBuf (.output i) ((s.buf (.output i)).drop 4)).setMain (.readOut (i + 1) mix_sig'))
  | fail {i : ℕ} {mix_sig : ℤ} (hm : s.main = .readOut i mix_sig) (hi : i < c.numProcs)
      (hc : collectOne mix_sig (.ofBytes ((s.buf (.output i)).take 4)) = none) :
    MainStep c s ((s.setBuf (.output i) ((s.buf (.output i)).drop 4)).setMain .failed)
  | print {i : ℕ} {mix_sig : ℤ} (hm : s.main = .readOut i mix_sig) (hi : ¬ i < c.numProcs) :
    MainStep c s (s.setMain (.printed mix_sig))

theorem mainStep_of_step (h : stepMain c s = some s') : MainStep c s s' := by
  unfold stepMain at h
  split at h
  · rename_i i hm
    split at h
    · cases h
      unfold State.spawn
      rcases em (i % 2 = 1) with hodd | hodd
      · simp only [hodd, if_true]
        exact .spawnReader hm (by omega) (by omega)
      · simp only [hodd, if_false]
        exact .spawnWriter hm (by omega) (by omega)
    · cases h
      exact .spawned hm ‹_›
  · rename_i i hm
    split at h
    · obtain ⟨hreturned, heq⟩ := Option.ite_none_right_eq_some.mp h
      cases heq
      refine .joinWriter hm ‹_› fun t ht => ?_
      have hw := hreturned (by omega)
      rwa [State.Returned, if_neg (by omega), show (i + 1) / 2 = t by omega] at hw
    · cases h
      exact .writersJoined hm ‹_›
  · rename_i i hm
    split at h
    · cases h
      exact .close hm ‹_›
    · cases h
      exact .closed hm ‹_›
  · rename_i i hm
    split at h
    · obtain ⟨hreturned, heq⟩ := Option.ite_none_right_eq_some.mp h
      cases heq
      refine .joinReader hm ‹_› fun t ht => ?_
      have hr := hreturned (by omega)
      rwa [State.Returned, if_pos (by omega), show (i + 1) / 2 = t by omega] at hr
    · cases h
      exact .readersJoined hm ‹_›
  · rename_i i mix_sig hm
    split at h
    · rename_i hi
      obtain ⟨o, ho, rfl⟩ := Option.map_eq_some_iff.mp h
      obtain ⟨r, hr, rfl⟩ := Option.map_eq_some_iff.mp ho
      obtain ⟨-, rfl⟩ := read_eq_some.mp hr
      split
      · exact .collect hm hi ‹_›
      · exact .fail hm hi ‹_›
    · cases h
      exact .print hm ‹_›
  · cases h
  · cases h

/-- What is kept by the steps of readers, writers and `main` is kept by every move. -/
theorem keeps_of_steps {I : State → Prop} (hr : ∀ t, ReaderStep t s s' → I s') (hw : ∀ t, WriterStep c cap t s s' → I s')
    (hm : MainStep c s s' → I s') {a : Move} (h : step c cap a s = some s') : I s' := by
  cases a with
  | main => exact hm (mainStep_of_step h)
  | reader t => exact hr t (readerStep_of_step h)
  | writer t => exact hw t (writerStep_of_step h)

/-- What a step of a reader leaves as it is. -/
structure ReaderFrame (t : ℕ) (s s' : State) : Prop where
  main : s'.main = s.main
  reader : ∀ u, u ≠ t → s'.reader u = s.reader u
  writer : s'.writer = s.writer
  fds : s'.fds = s.fds

theorem ReaderStep.frame (h : ReaderStep t s s') : ReaderFrame t s s' := by
  cases h <;> exact ⟨rfl, fun u hu => Function.update_of_ne hu _ _, rfl, rfl⟩

structure WriterFrame (t : ℕ) (s s' : State) : Prop where
  main : s'.main = s.main
  reader : s'.reader = s.reader
  writer : ∀ u, u ≠ t → s'.writer u = s.writer u
  fds : s'.fds = s.fds
  output : ∀ u, s'.buf (.output u) = s.buf (.output u)

theorem WriterStep.frame (h : WriterStep c cap t s s') : WriterFrame t s s' := by
  have writer : ∀ {w : Writer} (u : ℕ), u ≠ t → Function.update s.writer t w u = s.writer u :=
    fun u hu => Function.update_of_ne hu _ _
  cases h with
  | write | leave => exact ⟨rfl, rfl, writer, rfl, fun _ => rfl⟩

/-! ### Who has been created -/

/-- The loop that spawns the threads is past pass `i`. -/
def MainPc.Spawned (i : ℕ) : MainPc → Prop
  | .spawning j => i < j
  | _ => True

/-- Exactly the threads of the passes done so far have been created. -/
structure Spawns (c : Config) (s : State) : Prop where
  reader : ∀ t, (s.reader t).phase ≠ .unborn ↔ (1 ≤ t ∧ t ≤ c.numProcs) ∧ s.main.Spawned (2 * t - 1)
  writer : ∀ t, (s.writer t).phase ≠ .unborn ↔ (1 ≤ t ∧ t ≤ c.numProcs) ∧ s.main.Spawned (2 * t)
  /-- The loop starts at 1. -/
  main : s.main.Spawned 0

theorem ReaderStep.born (h : ReaderStep t s s') : (s.reader t).phase ≠ .unborn ∧ (s'.reader t).phase ≠ .unborn := by
  cases h with
  | read hp | eof hp | write hp => simp [hp]

theorem WriterStep.born (h : WriterStep c cap t s s') : (s.writer t).phase ≠ .unborn ∧ (s'.writer t).phase ≠ .unborn := by
  have born : ∀ {w : Writer}, w.phase ≠ .unborn → (Function.update s.writer t w t).phase ≠ .unborn := fun hw => by
    rwa [Function.update_self]
  cases h with
  | write hp | leave hp => exact ⟨by simp [hp], born nofun⟩

theorem Spawns.same (h : Spawns c s) (hr : s'.reader = s.reader) (hw : s'.writer = s.writer)
    (hm : ∀ i ≤ c.numProcs * 2, s'.main.Spawned i ↔ s.main.Spawned i) : Spawns c s' where
  reader t := by
    rw [hr, h.reader]
    exact and_congr_right fun ht => (hm _ (by omega)).symm
  writer t := by
    rw [hw, h.writer]
    exact and_congr_right fun ht => (hm _ (by omega)).symm
  main := (hm 0 (by omega)).mpr h.main

theorem spawns_start : Spawns c (start c) where
  reader t := by
    simp only [start, MainPc.Spawned, ne_eq, not_true_eq_false, false_iff]
    omega
  writer t := by
    simp only [start, MainPc.Spawned, ne_eq, not_true_eq_false, false_iff]
    omega
  main := by simp [start, MainPc.Spawned]

theorem Spawns.reader_unborn {i : ℕ} (h : Spawns c s) (hm : s.main = .spawning i) (hi : i + 1 = 2 * t) :
    (s.reader t).phase = .unborn := by
  by_contra hborn
  obtain ⟨-, hspawned⟩ := (h.reader t).mp hborn
  rw [hm] at hspawned
  exact absurd hspawned (by simp only [MainPc.Spawned]; omega)

theorem Spawns.writer_unborn {i : ℕ} (h : Spawns c s) (hm : s.main = .spawning i) (hi : i = 2 * t) :
    (s.writer t).phase = .unborn := by
  by_contra hborn
  obtain ⟨-, hspawned⟩ := (h.writer t).mp hborn
  rw [hm] at hspawned
  exact absurd hspawned (by simp only [MainPc.Spawned]; omega)

theorem ReaderStep.spawns (hr : ReaderStep t s s') (h : Spawns c s) : Spawns c s' := by
  have hf := hr.frame
  refine ⟨fun u => ?_, fun u => ?_, ?_⟩
  · rcases eq_or_ne u t with rfl | hne
    · rw [hf.main, ← h.reader u]
      exact iff_of_true hr.born.2 hr.born.1
    · rw [hf.main, hf.reader u hne]
      exact h.reader u
  · rw [hf.main, hf.writer]
    exact h.writer u
  · rw [hf.main]
    exact h.main

theorem WriterStep.spawns (hw : WriterStep c cap t s s') (h : Spawns c s) : Spawns c s' := by
  have hf := hw.frame
  refine ⟨fun u => ?_, fun u => ?_, ?_⟩
  · rw [hf.main, hf.reader]
    exact h.reader u
  · rcases eq_or_ne u t with rfl | hne
    · rw [hf.main, ← h.writer u]
      exact iff_of_true hw.born.2 hw.born.1
    · rw [hf.main, hf.writer u hne]
      exact h.writer u
  · rw [hf.main]
    exact h.main

theorem MainStep.spawns (hm : MainStep c s s') (h : Spawns c s) : Spawns c s' := by
  have h0 := h.main
  have hreader := h.reader
  have hwriter := h.writer
  cases hm with
  | @spawnReader i t hm hi ht =>
    simp only [hm, MainPc.Spawned] at h0 hreader hwriter
    refine ⟨fun u => ?_, fun u => ?_, Nat.lt_succ_of_lt h0⟩
    · rcases eq_or_ne u t with rfl | hne
      · simp only [State.setMain_reader, State.setReader_reader, Function.update_self, State.setMain_main, MainPc.Spawned]
        exact iff_of_true (by simp) (by omega)
      · simp only [State.setMain_reader, State.setReader_reader, Function.update_of_ne hne, State.setMain_main,
          MainPc.Spawned, hreader]
        omega
    · simp only [State.setMain_writer, State.setReader_writer, State.setMain_main, MainPc.Spawned, hwriter]
      omega
  | @spawnWriter i t hm hi ht =>
    simp only [hm, MainPc.Spawned] at h0 hreader hwriter
    refine ⟨fun u => ?_, fun u => ?_, Nat.lt_succ_of_lt h0⟩
    · simp only [State.setMain_reader, State.setWriter_reader, State.setMain_main, MainPc.Spawned, hreader]
      omega
    · rcases eq_or_ne u t with rfl | hne
      · simp only [State.setMain_writer, State.setWriter_writer, Function.update_self, State.setMain_main, MainPc.Spawned]
        exact iff_of_true (by simp) (by omega)
      · simp only [State.setMain_writer, State.setWriter_writer, Function.update_of_ne hne, State.setMain_main,
          MainPc.Spawned, hwriter]
        omega
  | spawned hm hi =>
    refine h.same rfl rfl fun j hj => ?_
    simp only [State.setMain_main, hm, MainPc.Spawned, true_iff]
    omega
  | joinWriter hm | writersJoined hm | close hm | closed hm | joinReader hm | readersJoined hm | collect hm | fail hm
  | print hm => exact h.same rfl rfl fun j _ => by simp [hm, MainPc.Spawned]

theorem spawns_of_reach (h : (machine c cap).Reachable s) : Spawns c s :=
  h.invariant spawns_start fun _ _ _ hI _ hs =>
    keeps_of_steps (fun _ hr => hr.spawns hI) (fun _ hw => hw.spawns hI) (fun hm => hm.spawns hI) hs

/-- A writer counts its messages from 0 up to `MaxLoop`, and returns only there. -/
structure Writer.Counted (c : Config) (w : Writer) : Prop where
  unborn : w.phase = .unborn → w.i = 0
  le : w.i ≤ c.maxLoop
  returned : w.phase = .returned → w.i = c.maxLoop

theorem WriterStep.counted (hw : WriterStep c cap t s s') (h : (s.writer t).Counted c) : (s'.writer t).Counted c := by
  obtain ⟨-, hle, -⟩ := h
  cases hw with
  | write hp hi =>
    simp only [State.setWriter_writer, Function.update_self]
    exact ⟨fun hnot => (by cases hnot), hi, fun hret => (by cases hret)⟩
  | leave hp hi =>
    simp only [State.setWriter_writer, Function.update_self]
    exact ⟨fun hnot => (by cases hnot), hle, fun _ => Nat.le_antisymm hle (not_lt.mp hi)⟩

theorem counted_of_reach (h : (machine c cap).Reachable s) : ∀ t, (s.writer t).Counted c := by
  refine h.invariant (I := fun s => ∀ t, (s.writer t).Counted c)
    (fun _ => ⟨fun _ => rfl, Nat.zero_le _, fun hret => (by cases hret)⟩) fun a s s' ih _ hs => ?_
  refine keeps_of_steps (I := fun s => ∀ t, (s.writer t).Counted c) (fun t hr u => ?_) (fun t hw u => ?_)
    (fun hm u => ?_) hs
  · rw [hr.frame.writer]
    exact ih u
  · rcases eq_or_ne u t with rfl | hne
    · exact hw.counted (ih u)
    · rw [hw.frame.writer u hne]
      exact ih u
  · cases hm with
    | @spawnWriter i t hm hi ht =>
      rcases eq_or_ne u t with rfl | hne
      · simp only [State.setMain_writer, State.setWriter_writer, Function.update_self]
        exact ⟨fun _ => rfl, Nat.zero_le _, fun hret => (by cases hret)⟩
      · simpa [hne] using ih u
    | _ => exact ih u

/-! ### Joins and closes -/

/-- `main` has joined writer `t`. -/
def MainPc.JoinedWriter (t : ℕ) : MainPc → Prop
  | .spawning _ => False
  | .joinWriters i => 2 * t < i
  | _ => True

/-- `main` has closed `inputs[t][WR]`. -/
def MainPc.Closed (t : ℕ) : MainPc → Prop
  | .spawning _ | .joinWriters _ => False
  | .closing i => t < i
  | _ => True

/-- `main` has joined reader `t`. -/
def MainPc.JoinedReader (t : ℕ) : MainPc → Prop
  | .spawning _ | .joinWriters _ | .closing _ => False
  | .joinReaders i => 2 * t < i + 1
  | _ => True

/-- It has seen the end of its stream. -/
def Reader.SawEof (r : Reader) : Prop := r.phase = .write ∨ r.phase = .returned

/-- A thread that is joined has returned, the write ends that are closed are all that is, and a reader sees end of file
    only on such an end. -/
structure Joins (c : Config) (s : State) : Prop where
  writer : ∀ t, 1 ≤ t ∧ t ≤ c.numProcs → s.main.JoinedWriter t → (s.writer t).phase = .returned
  reader : ∀ t, 1 ≤ t ∧ t ≤ c.numProcs → s.main.JoinedReader t → (s.reader t).phase = .returned
  fds : ∀ fd, s.fds fd = true ↔ fd.pipe.Opened c ∧ ∀ t, fd = inputs t .wr → ¬ s.main.Closed t
  eof : ∀ t, (s.reader t).SawEof → s.main.Closed t

theorem joins_start : Joins c (start c) where
  writer _ _ h := h.elim
  reader _ _ h := h.elim
  fds fd := by simp [start, MainPc.Closed]
  eof t h := by simp [start, Reader.SawEof] at h

theorem Joins.closed_of_not_fds (h : Joins c s) (ht : 1 ≤ t ∧ t ≤ c.numProcs) (ho : s.fds (inputs t .wr) = false) :
    s.main.Closed t := by
  by_contra hnot
  have hopen : s.fds (inputs t .wr) = true := (h.fds _).mpr ⟨ht, fun u hu => by cases hu; exact hnot⟩
  rw [ho] at hopen
  cases hopen

theorem ReaderStep.joins (hr : ReaderStep t s s') (hp : Spawns c s) (h : Joins c s) : Joins c s' := by
  have hf := hr.frame
  have ht := ((hp.reader t).mp hr.born.1).1
  refine ⟨fun u => ?_, fun u => ?_, ?_, fun u => ?_⟩
  · rw [hf.main, hf.writer]
    exact h.writer u
  · rw [hf.main]
    intro hu hjoined
    have hreturned := h.reader u hu hjoined
    rcases eq_or_ne u t with rfl | hne
    · cases hr with
      | read hp | eof hp | write hp => cases hreturned.symm.trans hp
    · rwa [hf.reader u hne]
  · rw [hf.main, hf.fds]
    exact h.fds
  · rw [hf.main]
    rcases eq_or_ne u t with rfl | hne
    · cases hr with
      | read => exact fun hsaw => (by simp [Reader.SawEof] at hsaw)
      | eof hp hb ho => exact fun _ => h.closed_of_not_fds ht ho
      | write hp => exact fun _ => h.eof u (.inl hp)
    · rw [hf.reader u hne]
      exact h.eof u

theorem WriterStep.joins (hw : WriterStep c cap t s s') (h : Joins c s) : Joins c s' := by
  have hf := hw.frame
  refine ⟨fun u => ?_, fun u => ?_, ?_, fun u => ?_⟩
  · rw [hf.main]
    intro hu hjoined
    have hreturned := h.writer u hu hjoined
    rcases eq_or_ne u t with rfl | hne
    · cases hw with
      | write hp | leave hp => cases hreturned.symm.trans hp
    · rwa [hf.writer u hne]
  · rw [hf.main, hf.reader]
    exact h.reader u
  · rw [hf.main, hf.fds]
    exact h.fds
  · rw [hf.main, hf.reader]
    exact h.eof u

/-- A step of `main` that closes nothing, and joins only threads that have returned. -/
theorem Joins.same (h : Joins c s) (hr : s'.reader = s.reader) (hw : s'.writer = s.writer) (hfds : s'.fds = s.fds)
    (hwriter : ∀ t, 1 ≤ t ∧ t ≤ c.numProcs → s'.main.JoinedWriter t → s.main.JoinedWriter t ∨ (s.writer t).phase = .returned)
    (hreader : ∀ t, 1 ≤ t ∧ t ≤ c.numProcs → s'.main.JoinedReader t → s.main.JoinedReader t ∨ (s.reader t).phase = .returned)
    (hclosed : ∀ t, 1 ≤ t ∧ t ≤ c.numProcs → (s'.main.Closed t ↔ s.main.Closed t))
    (hkept : ∀ t, s.main.Closed t → s'.main.Closed t) : Joins c s' where
  writer t ht hjoined := by
    rw [hw]
    exact (hwriter t ht hjoined).elim (h.writer t ht) id
  reader t ht hjoined := by
    rw [hr]
    exact (hreader t ht hjoined).elim (h.reader t ht) id
  fds fd := by
    rw [hfds, h.fds]
    refine and_congr_right fun hopened => forall₂_congr fun t ht => ?_
    subst ht
    exact not_congr (hclosed t hopened).symm
  eof t hsaw := by
    rw [hr] at hsaw
    exact hkept t (h.eof t hsaw)

theorem MainStep.joins (hm : MainStep c s s') (h : Joins c s) : Joins c s' := by
  have hfds := h.fds
  have heof := h.eof
  cases hm with
  | @spawnReader i t hm =>
    rw [hm] at hfds heof
    refine ⟨fun _ _ hj => hj.elim, fun _ _ hj => hj.elim, hfds, fun u hsaw => ?_⟩
    rcases eq_or_ne u t with rfl | hne
    · simp [Reader.SawEof] at hsaw
    · simp only [State.setMain_reader, State.setReader_reader, Function.update_of_ne hne] at hsaw
      exact heof u hsaw
  | @spawnWriter i t hm =>
    rw [hm] at hfds heof
    exact ⟨fun _ _ hj => hj.elim, fun _ _ hj => hj.elim, hfds, heof⟩
  | spawned hm =>
    refine h.same rfl rfl rfl (fun t ht hj => ?_) (fun _ _ hj => hj.elim) (fun t ht => ?_) fun t hc => ?_
    · exact absurd hj (by simp only [State.setMain_main, MainPc.JoinedWriter]; omega)
    · simp [hm, MainPc.Closed]
    · rwa [hm] at hc
  | @joinWriter i hm hi hw =>
    refine h.same rfl rfl rfl (fun t ht hj => ?_) (fun _ _ hj => hj.elim) (fun t ht => ?_) fun t hc => ?_
    · rcases (Nat.lt_succ_iff_lt_or_eq.mp hj : 2 * t < i ∨ 2 * t = i) with hlt | heq
      · rw [hm]
        exact .inl hlt
      · exact .inr (hw t heq.symm)
    · simp [hm, MainPc.Closed]
    · rwa [hm] at hc
  | writersJoined hm hi =>
    refine h.same rfl rfl rfl (fun t ht _ => ?_) (fun _ _ hj => hj.elim) (fun t ht => ?_) fun t hc => ?_
    · rw [hm]
      exact .inl (by simp only [MainPc.JoinedWriter]; omega)
    · simp only [State.setMain_main, hm, MainPc.Closed, iff_false]
      omega
    · rw [hm] at hc
      exact hc.elim
  | @close i hm hi =>
    have hwriter := h.writer
    rw [hm] at hfds heof hwriter
    refine ⟨hwriter, fun _ _ hj => hj.elim, fun fd => ?_, fun t hsaw => Nat.lt_succ_of_lt (heof t hsaw)⟩
    rcases eq_or_ne fd (inputs i .wr) with rfl | hne
    · refine iff_of_false (by simp) fun hopen => ?_
      exact hopen.2 i rfl (Nat.lt_succ_self i)
    · simp only [State.setMain_fds, State.close_fds, Function.update_of_ne hne, State.setMain_main, hfds, MainPc.Closed]
      refine and_congr_right fun _ => forall₂_congr fun t ht => ?_
      have hti : t ≠ i := by
        rintro rfl
        exact hne ht
      omega
  | closed hm hi =>
    refine h.same rfl rfl rfl (fun t ht _ => ?_) (fun t ht hj => ?_) (fun t ht => ?_) fun t hc => trivial
    · rw [hm]
      exact .inl trivial
    · exact absurd hj (by simp only [State.setMain_main, MainPc.JoinedReader]; omega)
    · simp only [State.setMain_main, hm, MainPc.Closed, true_iff]
      omega
  | @joinReader i hm hi hr =>
    refine h.same rfl rfl rfl (fun t ht _ => ?_) (fun t ht hj => ?_) (fun t ht => ?_) fun t hc => trivial
    · rw [hm]
      exact .inl trivial
    · rcases (Nat.lt_succ_iff_lt_or_eq.mp hj : 2 * t < i + 1 ∨ 2 * t = i + 1) with hlt | heq
      · rw [hm]
        exact .inl hlt
      · exact .inr (hr t heq.symm)
    · simp [hm, MainPc.Closed]
  | readersJoined hm hi =>
    refine h.same rfl rfl rfl (fun t ht _ => ?_) (fun t ht _ => ?_) (fun t ht => ?_) fun t hc => trivial
    · rw [hm]
      exact .inl trivial
    · rw [hm]
      exact .inl (by simp only [MainPc.JoinedReader]; omega)
    · simp [hm, MainPc.Closed]
  | collect hm | fail hm | print hm =>
    refine h.same rfl rfl rfl (fun t ht _ => ?_) (fun t ht _ => ?_) (fun t ht => ?_) fun t hc => trivial
    · rw [hm]
      exact .inl trivial
    · rw [hm]
      exact .inl trivial
    · simp [hm, MainPc.Closed]

theorem joins_of_reach (h : (machine c cap).Reachable s) : Joins c s := by
  induction h with
  | init => exact joins_start
  | step a hr _ hs ih =>
    exact keeps_of_steps (fun _ hstep => hstep.joins (spawns_of_reach hr) ih) (fun _ hw => hw.joins ih)
      (fun hm => hm.joins ih) hs

/-! ### The output pipes -/

/-- `main` has read output pipe `t`, or is past its loop over them. -/
def MainPc.Collected (t : ℕ) : MainPc → Prop
  | .readOut i _ => t < i
  | .printed _ | .failed => True
  | _ => False

/-- Until `main` reads it, an output pipe holds the digest of a reader that is done, and nothing before. -/
structure Outputs (s : State) : Prop where
  isInt : ∀ t, (s.reader t).SawEof → IsInt (s.reader t).num
  empty : ∀ t, ¬ s.main.Collected t → (s.reader t).phase ≠ .returned → s.buf (.output t) = []
  full : ∀ t, ¬ s.main.Collected t → (s.reader t).phase = .returned → s.buf (.output t) = encode (s.reader t).num

theorem Outputs.same (h : Outputs s) (hr : s'.reader = s.reader) (hb : ∀ t, s'.buf (.output t) = s.buf (.output t))
    (hm : ∀ t, s.main.Collected t → s'.main.Collected t) : Outputs s' where
  isInt t := by
    rw [hr]
    exact h.isInt t
  empty t hc := by
    rw [hr, hb]
    exact h.empty t (mt (hm t) hc)
  full t hc := by
    rw [hr, hb]
    exact h.full t (mt (hm t) hc)

/-- A step of reader `t`, from what it says about that reader and its output pipe. -/
theorem Outputs.update (h : Outputs s) (hr : ∀ u, u ≠ t → s'.reader u = s.reader u)
    (hb : ∀ u, u ≠ t → s'.buf (.output u) = s.buf (.output u)) (hm : ∀ u, s'.main.Collected u ↔ s.main.Collected u)
    (hint : (s'.reader t).SawEof → IsInt (s'.reader t).num)
    (hempty : ¬ s.main.Collected t → (s'.reader t).phase ≠ .returned → s'.buf (.output t) = [])
    (hfull : ¬ s.main.Collected t → (s'.reader t).phase = .returned → s'.buf (.output t) = encode (s'.reader t).num) :
    Outputs s' where
  isInt u := by
    rcases eq_or_ne u t with rfl | hne
    · exact hint
    · rw [hr u hne]
      exact h.isInt u
  empty u := by
    rw [hm]
    rcases eq_or_ne u t with rfl | hne
    · exact hempty
    · rw [hr u hne, hb u hne]
      exact h.empty u
  full u := by
    rw [hm]
    rcases eq_or_ne u t with rfl | hne
    · exact hfull
    · rw [hr u hne, hb u hne]
      exact h.full u

theorem ReaderStep.outputs (hr : ReaderStep t s s') (h : Outputs s) : Outputs s' := by
  have hf := hr.frame
  have hmain : ∀ u, s'.main.Collected u ↔ s.main.Collected u := fun u => by rw [hf.main]
  cases hr with
  | read hp =>
    refine h.update hf.reader (fun u _ => by simp) hmain (by simp [Reader.SawEof]) (fun hc _ => ?_) (by simp)
    simpa using h.empty t hc (by simp [hp])
  | eof hp =>
    refine h.update hf.reader (fun _ _ => rfl) hmain (fun _ => ?_) (fun hc _ => h.empty t hc (by simp [hp])) (by simp)
    simp only [State.setReader_reader, Function.update_self]
    exact Forkpipe.isInt_digest _ _
  | write hp =>
    refine h.update hf.reader (fun u hu => by simp [hu]) hmain (fun _ => ?_) (by simp) fun hc _ => ?_
    · simpa using h.isInt t (.inl hp)
    · simp [h.empty t hc (by simp [hp])]

theorem MainStep.outputs (hm : MainStep c s s') (hp : Spawns c s) (h : Outputs s) : Outputs s' := by
  cases hm with
  | @spawnReader i t hm hi =>
    have hnot := hp.reader_unborn hm hi
    exact h.update (t := t) (fun u hu => by simp [hu]) (fun _ _ => rfl) (fun u => by simp [hm, MainPc.Collected])
      (by simp [Reader.SawEof]) (fun hc _ => h.empty t hc (by simp [hnot])) (by simp)
  | spawnWriter hm | spawned hm | joinWriter hm | writersJoined hm | close hm | closed hm | joinReader hm
  | readersJoined hm => exact h.same rfl (fun _ => rfl) fun t => by simp [hm, MainPc.Collected]
  | @collect i mix_sig mix_sig' hm hi =>
    -- What is not collected after the step is another pipe, and was not collected before.
    have hne : ∀ u, ¬ u < i + 1 → ¬ s.main.Collected u ∧ u ≠ i := fun u hu => by
      simp only [hm, MainPc.Collected]
      omega
    refine ⟨h.isInt, fun u hc he => ?_, fun u hc he => ?_⟩
    · obtain ⟨hc, hu⟩ := hne u hc
      simpa [hu] using h.empty u hc he
    · obtain ⟨hc, hu⟩ := hne u hc
      simpa [hu] using h.full u hc he
  | fail => exact ⟨h.isInt, fun u hc => (hc trivial).elim, fun u hc => (hc trivial).elim⟩
  | print hm => exact h.same rfl (fun _ => rfl) fun t _ => trivial

theorem outputs_of_reach (h : (machine c cap).Reachable s) : Outputs s := by
  induction h with
  | init => exact ⟨fun t h => by simp [machine, start, Reader.SawEof] at h, fun _ _ _ => rfl, fun _ _ h => by cases h⟩
  | step a hr _ hs ih =>
    refine keeps_of_steps (fun _ hr => hr.outputs ih) (fun t hw => ?_)
      (fun hm => hm.outputs (spawns_of_reach hr) ih) hs
    have hf := hw.frame
    exact ih.same hf.reader hf.output fun u => by rw [hf.main]; exact id

/-- The loops of `main` start at 1. -/
def MainPc.Pos : MainPc → Prop
  | .spawning i | .joinWriters i | .closing i | .joinReaders i | .readOut i _ => 1 ≤ i
  | .printed _ | .failed => True

theorem MainStep.pos (hm : MainStep c s s') : s'.main.Pos := by
  cases hm with
  | print | fail => trivial
  | _ => exact Nat.le_add_left 1 _

theorem pos_of_reach (h : (machine c cap).Reachable s) : s.main.Pos := by
  refine h.invariant (I := fun s => s.main.Pos) (le_refl 1) fun a s s' ih _ hs => ?_
  refine keeps_of_steps (I := fun s => s.main.Pos) (fun t hr => ?_) (fun t hw => ?_) (fun hm => hm.pos) hs
  · rwa [hr.frame.main]
  · rwa [hw.frame.main]

/-- When `main` gets to output pipe `i`, reader `i` has returned and its digest is all that the pipe holds. -/
theorem buf_output_of_reach {i : ℕ} {mix_sig : ℤ} (h : (machine c cap).Reachable s) (hm : s.main = .readOut i mix_sig)
    (hi : i < c.numProcs) :
    (s.reader i).phase = .returned ∧ IsInt (s.reader i).num ∧ s.buf (.output i) = encode (s.reader i).num := by
  have hpos := pos_of_reach h
  have ho := outputs_of_reach h
  rw [hm] at hpos
  have hret : (s.reader i).phase = .returned := (joins_of_reach h).reader i ⟨hpos, hi.le⟩ (by rw [hm]; trivial)
  exact ⟨hret, ho.isInt i (.inr hret), ho.full i (by simp [hm, MainPc.Collected]) hret⟩

/-- So that is what `main` reads there. -/
theorem readOutput_of_reach {i : ℕ} {mix_sig : ℤ} (h : (machine c cap).Reachable s) (hm : s.main = .readOut i mix_sig)
    (hi : i < c.numProcs) : (s.reader i).phase = .returned ∧
      readOutput s i = some (⟨4, (s.reader i).num⟩, s.setBuf (.output i) []) := by
  obtain ⟨hret, hint, hbuf⟩ := buf_output_of_reach h hm hi
  have hpos := pos_of_reach h
  rw [hm] at hpos
  have hfd : s.fds ⟨.output i, .rd⟩ = true := ((joins_of_reach h).fds _).mpr ⟨⟨hpos, hi.le⟩, fun _ ht => (by cases ht)⟩
  have hread : s.read (.output i) 4 = some ((encode (s.reader i).num).take 4, s.setBuf (.output i) []) :=
    read_eq_some.mpr ⟨⟨hfd, .inl (by rw [hbuf]; exact List.cons_ne_nil _ _)⟩, by rw [hbuf]; rfl⟩
  exact ⟨hret, by rw [readOutput, hread, Option.map_some, Forkpipe.ofBytes_encode hint]⟩

/-- `main` never takes an early `return 1`. -/
theorem main_ne_failed (h : (machine c cap).Reachable s) : s.main ≠ .failed := by
  induction h with
  | init => exact fun h => by cases h
  | step a hr _ hs ih =>
    refine keeps_of_steps (I := fun s => s.main ≠ .failed) (fun _ hr => ?_) (fun _ hw => ?_) (fun hm => ?_) hs
    · rwa [hr.frame.main]
    · rwa [hw.frame.main]
    · cases hm with
      | fail hm hi hc =>
        obtain ⟨-, hint, hbuf⟩ := buf_output_of_reach hr hm hi
        rw [hbuf, Forkpipe.ofBytes_encode hint] at hc
        simp [collectOne] at hc
      | _ => simp

end Racey.Clonepipe
