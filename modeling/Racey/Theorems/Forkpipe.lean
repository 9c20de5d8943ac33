import Racey.Forkpipe
import Racey.Lib.Descriptors
import Racey.Theorems.Mix

/-! racey-forkpipe: what one step of each process does, who holds which end of which pipe, and what follows
    for end of file and for what is in the pipes. -/

namespace Racey.Forkpipe
open Descriptors

variable {c : Config} {cap : Pipe → ℕ} {s s' : State} {t : ℕ} {fd : Fd}

/-! ### The lists of closes -/

theorem mem_closes {f : ℕ → List Fd} : fd ∈ closes c f ↔ ∃ i, (1 ≤ i ∧ i ≤ c.numProcs) ∧ fd ∈ f i := by
  simp only [closes, List.mem_flatMap, List.mem_range'_1]
  exact exists_congr fun i => and_congr_left fun _ => by omega

theorem mem_readerUnused : fd ∈ readerUnused c t ↔ fd.pipe.Opened c ∧ ¬(fd = inputs t .rd ∨ fd = output t .wr) := by
  rw [readerUnused, mem_closes]
  obtain ⟨i | i, e⟩ := fd <;> cases e <;> simp only [Pipe.Opened, Pipe.index] <;> constructor
  all_goals
    simp only [inputs, output]
    grind

theorem mem_writerUnused : fd ∈ writerUnused c ↔ fd.pipe.Opened c ∧ ¬∃ i, fd.pipe = .inputs i := by
  rw [writerUnused, mem_closes]
  obtain ⟨i | i, e⟩ := fd <;> cases e <;> simp [Pipe.Opened, Pipe.index, output]

theorem mem_writerEnds : fd ∈ writerEnds c ↔ fd.pipe.Opened c ∧ ∃ i, fd.pipe = .inputs i := by
  rw [writerEnds, mem_closes]
  obtain ⟨i | i, e⟩ := fd <;> cases e <;> simp [Pipe.Opened, Pipe.index, inputs]

theorem mem_mainUnused : fd ∈ mainUnused c ↔ fd.pipe.Opened c ∧ ¬∃ i, fd = output i .rd := by
  rw [mainUnused, mem_closes]
  obtain ⟨i | i, e⟩ := fd <;> cases e <;> simp [Pipe.Opened, Pipe.index, inputs, output]

/-! ### The phases of a child -/

namespace Phase
variable {β : Type}

def todo : Phase β → List Fd
  | .start todo | .finish todo => todo
  | _ => []

/-- Forked, and still using its pipes. -/
def InUse : Phase β → Prop
  | .start _ | .body _ => True
  | _ => False

def Ended : Phase β → Prop
  | .finish _ | .exited => True
  | _ => False

def Born : Phase β → Prop
  | .unborn => False
  | _ => True

def Exited : Phase β → Prop
  | .exited => True
  | _ => False

theorem born_of_exited {p : Phase β} (h : p.Exited) : p.Born := by
  cases p with
  | exited => trivial
  | _ => exact h.elim

theorem born_of_ended {p : Phase β} (h : p.Ended) : p.Born := by
  cases p with
  | finish | exited => trivial
  | _ => exact h.elim

theorem ended_of_not_inUse {p : Phase β} (hb : p.Born) (hu : ¬p.InUse) : p.Ended := by
  cases p with
  | unborn => exact hb.elim
  | start | body => exact (hu trivial).elim
  | finish | exited => trivial

end Phase

/-- The fork loop is past pass `i`. -/
def MainPc.Forked (i : ℕ) : MainPc → Prop
  | .forking j => i < j
  | _ => True

def MainPc.todo : MainPc → List Fd
  | .closing todo => todo
  | _ => []

/-- What `main` needs: every pipe while it forks, then the ends from which it reads the outputs. -/
def MainPc.keep (c : Config) : MainPc → Fd → Prop
  | .forking _, fd => fd.pipe.Opened c
  | _, fd => fd.pipe.Opened c ∧ ∃ i, fd = output i .rd

def readerKeep (t : ℕ) (p : Phase ReaderPc) (fd : Fd) : Prop := p.InUse ∧ (fd = inputs t .rd ∨ fd = output t .wr)

/-- What a writer needs in a phase: both ends of every input pipe. -/
def writerKeep (c : Config) (p : Phase WriterPc) (fd : Fd) : Prop := p.InUse ∧ fd.pipe.Opened c ∧ ∃ i, fd.pipe = .inputs i

namespace State

def Exited (s : State) : Proc → Prop
  | .main => False
  | .reader t => (s.reader t).phase.Exited
  | .writer t => (s.writer t).phase.Exited

end State

/-! ### What a step does -/

theorem read_eq_some {p : Proc} {pipe : Pipe} {n : ℕ} {r : List UInt8 × State} : s.read c p pipe n = some r ↔
    (s.fds p ⟨pipe, .rd⟩ = true ∧ (s.buf pipe ≠ [] ∨ s.isOpen c ⟨pipe, .wr⟩ = false)) ∧
      r = ((s.buf pipe).take n, s.setBuf pipe ((s.buf pipe).drop n)) := by
  rw [State.read, Option.ite_none_right_eq_some, Option.some.injEq, eq_comm (a := r)]

theorem write_eq_some {p : Proc} {pipe : Pipe} {bytes : List UInt8} : s.write c cap p pipe bytes = some s' ↔
    (s.fds p ⟨pipe, .wr⟩ = true ∧ s.isOpen c ⟨pipe, .rd⟩ = true ∧ (s.buf pipe).length + bytes.length ≤ cap pipe) ∧
      s' = s.setBuf pipe (s.buf pipe ++ bytes) := by
  rw [State.write, Option.ite_none_right_eq_some, Option.some.injEq, eq_comm (a := s')]

inductive ReaderStep (c : Config) (t : ℕ) (s : State) : State → Prop
  | closeUnused {fd : Fd} {todo : List Fd} (hp : (s.reader t).phase = .start (fd :: todo)) :
    ReaderStep c t s ((s.close (.reader t) fd).setReader t ⟨.start todo, (s.reader t).num⟩)
  | enter (hp : (s.reader t).phase = .start []) :
    ReaderStep c t s (s.setReader t ⟨.body .read, (s.reader t).num⟩)
  | read (hp : (s.reader t).phase = .body .read) (hb : s.buf (.inputs t) ≠ []) :
    ReaderStep c t s ((s.setBuf (.inputs t) ((s.buf (.inputs t)).drop 128)).setReader t
      ⟨.body .read, digest (s.reader t).num ((s.buf (.inputs t)).take 128)⟩)
  | eof (hp : (s.reader t).phase = .body .read) (hb : s.buf (.inputs t) = [])
      (ho : s.isOpen c (inputs t .wr) = false) :
    ReaderStep c t s (s.setReader t ⟨.body .write, digest (s.reader t).num []⟩)
  | write (hp : (s.reader t).phase = .body .write) :
    ReaderStep c t s ((s.setBuf (.output t) (s.buf (.output t) ++ encode (s.reader t).num)).setReader t
      ⟨.finish (readerEnds t), (s.reader t).num⟩)
  | closeEnd {fd : Fd} {todo : List Fd} (hp : (s.reader t).phase = .finish (fd :: todo)) :
    ReaderStep c t s ((s.close (.reader t) fd).setReader t ⟨.finish todo, (s.reader t).num⟩)
  | exit (hp : (s.reader t).phase = .finish []) :
    ReaderStep c t s ((s.exit (.reader t)).setReader t ⟨.exited, (s.reader t).num⟩)

theorem setBuf_self (s : State) (p : Pipe) : s.setBuf p (s.buf p) = s := by
  simp [State.setBuf]

theorem readerStep_of_step (h : stepReader c cap t s = some s') : ReaderStep c t s s' := by
  unfold stepReader at h
  simp only at h
  split at h
  · cases h
  · cases h
  · rename_i fd todo hp
    cases h
    exact .closeUnused hp
  · rename_i hp
    cases h
    exact .enter hp
  · rename_i hp
    obtain ⟨r, hr, rfl⟩ := Option.map_eq_some_iff.mp h
    obtain ⟨⟨-, hb⟩, rfl⟩ := read_eq_some.mp hr
    by_cases hbuf : s.buf (.inputs t) = []
    · have ho := hb.resolve_left (not_not.mpr hbuf)
      simp only [hbuf, List.take_nil, List.drop_nil, List.length_nil, gt_iff_lt, lt_irrefl, if_false]
      rw [← hbuf, setBuf_self, hbuf]
      exact .eof hp hbuf ho
    · have hlen : ((s.buf (.inputs t)).take 128).length > 0 := by
        have := List.length_pos_iff.mpr hbuf
        rw [List.length_take]
        omega
      simp only [hlen, if_true]
      exact .read hp hbuf
  · rename_i hp
    obtain ⟨r, hr, rfl⟩ := Option.map_eq_some_iff.mp h
    obtain ⟨-, rfl⟩ := write_eq_some.mp hr
    exact .write hp
  · rename_i fd todo hp
    cases h
    exact .closeEnd hp
  · rename_i hp
    cases h
    exact .exit hp

inductive WriterStep (c : Config) (t : ℕ) (s : State) : State → Prop
  | closeUnused {fd : Fd} {todo : List Fd} (hp : (s.writer t).phase = .start (fd :: todo)) :
    WriterStep c t s ((s.close (.writer t) fd).setWriter t ⟨.start todo, (s.writer t).num, (s.writer t).i⟩)
  | enter (hp : (s.writer t).phase = .start []) :
    WriterStep c t s (s.setWriter t ⟨.body .loop, (s.writer t).num, (s.writer t).i⟩)
  | write {k : ℕ} {num : ℤ} (hp : (s.writer t).phase = .body .loop) (hi : (s.writer t).i < c.maxLoop)
      (hk : k = target c (fill (s.writer t).num).2) :
    WriterStep c t s ((s.setBuf (.inputs k) (s.buf (.inputs k) ++ (message (s.writer t).num).bytes)).setWriter t
      ⟨.body .loop, num, (s.writer t).i + 1⟩)
  | leave (hp : (s.writer t).phase = .body .loop) (hi : ¬(s.writer t).i < c.maxLoop) :
    WriterStep c t s (s.setWriter t ⟨.finish (writerEnds c), (s.writer t).num, (s.writer t).i⟩)
  | closeEnd {fd : Fd} {todo : List Fd} (hp : (s.writer t).phase = .finish (fd :: todo)) :
    WriterStep c t s ((s.close (.writer t) fd).setWriter t ⟨.finish todo, (s.writer t).num, (s.writer t).i⟩)
  | exit (hp : (s.writer t).phase = .finish []) :
    WriterStep c t s ((s.exit (.writer t)).setWriter t ⟨.exited, (s.writer t).num, (s.writer t).i⟩)

theorem writerStep_of_step (h : stepWriter c cap t s = some s') : WriterStep c t s s' := by
  unfold stepWriter at h
  simp only at h
  split at h
  · cases h
  · cases h
  · rename_i fd todo hp
    cases h
    exact .closeUnused hp
  · rename_i hp
    cases h
    exact .enter hp
  · rename_i hp
    split at h
    · rename_i hi
      obtain ⟨r, hr, rfl⟩ := Option.map_eq_some_iff.mp h
      obtain ⟨-, rfl⟩ := write_eq_some.mp hr
      exact .write hp hi rfl
    · rename_i hi
      cases h
      exact .leave hp hi
  · rename_i fd todo hp
    cases h
    exact .closeEnd hp
  · rename_i hp
    cases h
    exact .exit hp

inductive MainStep (c : Config) (s : State) : State → Prop
  | forkReader {i t : ℕ} (hm : s.main = .forking i) (hi : i + 1 = 2 * t) (ht : t ≤ c.numProcs) :
    MainStep c s (((s.setFds (.reader t) (s.fds .main)).setReader t ⟨.start (readerUnused c t), signed (sigInit t)⟩).setMain
      (.forking (i + 1)))
  | forkWriter {i t : ℕ} (hm : s.main = .forking i) (hi : i = 2 * t) (ht : t ≤ c.numProcs) :
    MainStep c s (((s.setFds (.writer t) (s.fds .main)).setWriter t ⟨.start (writerUnused c), signed (sigInit t), 0⟩).setMain
      (.forking (i + 1)))
  | close {i : ℕ} (hm : s.main = .forking i) (hi : ¬i ≤ c.numProcs * 2) :
    MainStep c s (s.setMain (.closing (mainUnused c)))
  | closeUnused {fd : Fd} {todo : List Fd} (hm : s.main = .closing (fd :: todo)) :
    MainStep c s ((s.close .main fd).setMain (.closing todo))
  | closed (hm : s.main = .closing []) : MainStep c s (s.setMain (.waiting 1))
  | wait {i : ℕ} {r : Proc} (hm : s.main = .waiting i) (hi : i ≤ c.numProcs * 2) (hr : r ∈ s.zombies) :
    MainStep c s { s with main := .waiting (i + 1), zombies := s.zombies.erase r,
                          lines := s.lines ++ (pidIndex c r).toList }
  | waited {i : ℕ} (hm : s.main = .waiting i) (hi : ¬i ≤ c.numProcs * 2) :
    MainStep c s (s.setMain (.readOut 1 (signed (sigInit 0))))
  | collect {i : ℕ} {mix_sig mix_sig' : ℤ} (hm : s.main = .readOut i mix_sig) (hi : i < c.numProcs) :
    MainStep c s ((s.setBuf (.output i) ((s.buf (.output i)).drop 4)).setMain (.readOut (i + 1) mix_sig'))
  | fail {i : ℕ} {mix_sig : ℤ} (hm : s.main = .readOut i mix_sig) (hi : i < c.numProcs)
      (hc : collectOne mix_sig (.ofBytes ((s.buf (.output i)).take 4)) = none) :
    MainStep c s ((s.setBuf (.output i) ((s.buf (.output i)).drop 4)).setMain .failed)
  | print {i : ℕ} {mix_sig : ℤ} (hm : s.main = .readOut i mix_sig) (hi : ¬i < c.numProcs) :
    MainStep c s (s.setMain (.printed mix_sig))

theorem mainStep_of_step (h : stepMain c s = some s') : MainStep c s s' := by
  unfold stepMain at h
  split at h
  · rename_i i hm
    split at h
    · cases h
      unfold State.fork child
      by_cases hodd : i % 2 = 1
      · simp only [hodd, if_true]
        exact .forkReader hm (by omega) (by omega)
      · simp only [hodd, if_false]
        exact .forkWriter hm (by omega) (by omega)
    · cases h
      exact .close hm ‹_›
  · rename_i fd todo hm
    cases h
    exact .closeUnused hm
  · rename_i hm
    cases h
    exact .closed hm
  · rename_i i hm
    split at h
    · cases h
    · cases h
      exact .waited hm ‹_›
  · rename_i i mix_sig hm
    split at h
    · rename_i hi
      obtain ⟨o, ho, rfl⟩ := Option.map_eq_some_iff.mp h
      obtain ⟨r, hr, rfl⟩ := Option.map_eq_some_iff.mp ho
      obtain ⟨-, rfl⟩ := read_eq_some.mp hr
      split
      · exact .collect hm hi
      · exact .fail hm hi ‹_›
    · cases h
      exact .print hm ‹_›
  · cases h
  · cases h

theorem mainStep_of_wait {r : Proc} (h : stepWait c r s = some s') : MainStep c s s' := by
  unfold stepWait at h
  split at h
  · rename_i i hm
    split at h
    · rename_i hi
      cases h
      exact .wait hm hi.1 hi.2
    · cases h
  · cases h

/-- What is kept by the steps of readers, writers and `main` is kept by every move. -/
theorem keeps_of_steps {I : State → Prop} (hr : ∀ t, ReaderStep c t s s' → I s') (hw : ∀ t, WriterStep c t s s' → I s')
    (hm : MainStep c s s' → I s') {a : Move} (h : step c cap a s = some s') : I s' := by
  cases a with
  | main => exact hm (mainStep_of_step h)
  | wait r => exact hm (mainStep_of_wait h)
  | reader t => exact hr t (readerStep_of_step h)
  | writer t => exact hw t (writerStep_of_step h)

/-- What a step of a child leaves as it is. -/
structure Frame (p : Proc) (s s' : State) : Prop where
  main : s'.main = s.main
  reader : ∀ t, .reader t ≠ p → s'.reader t = s.reader t
  writer : ∀ t, .writer t ≠ p → s'.writer t = s.writer t
  fds : ∀ q, q ≠ p → s'.fds q = s.fds q
  lines : s'.lines = s.lines

theorem ReaderStep.frame (h : ReaderStep c t s s') : Frame (.reader t) s s' := by
  have reader : ∀ {r : Reader} (u : ℕ), Proc.reader u ≠ .reader t → Function.update s.reader t r u = s.reader u :=
    fun u hu => Function.update_of_ne (fun heq => hu (congrArg _ heq)) _ _
  cases h
  all_goals
    refine ⟨rfl, reader, fun _ _ => rfl, fun q hq => ?_, rfl⟩
    first | rfl | exact Function.update_of_ne hq _ _

theorem WriterStep.frame (h : WriterStep c t s s') : Frame (.writer t) s s' := by
  have writer : ∀ {w : Writer} (u : ℕ), Proc.writer u ≠ .writer t → Function.update s.writer t w u = s.writer u :=
    fun u hu => Function.update_of_ne (fun heq => hu (congrArg _ heq)) _ _
  cases h
  all_goals
    refine ⟨rfl, fun _ _ => rfl, writer, fun q hq => ?_, rfl⟩
    first | rfl | exact Function.update_of_ne hq _ _

/-! ### Who has been forked -/

/-- Exactly the children of the passes done so far have been forked. -/
structure Forks (c : Config) (s : State) : Prop where
  reader : ∀ t, (s.reader t).phase.Born ↔ (1 ≤ t ∧ t ≤ c.numProcs) ∧ s.main.Forked (2 * t - 1)
  writer : ∀ t, (s.writer t).phase.Born ↔ (1 ≤ t ∧ t ≤ c.numProcs) ∧ s.main.Forked (2 * t)
  /-- The fork loop starts at 1. -/
  main : s.main.Forked 0

theorem ReaderStep.born (h : ReaderStep c t s s') : (s.reader t).phase.Born ∧ (s'.reader t).phase.Born := by
  cases h
  all_goals simp [*, Phase.Born]

theorem WriterStep.born (h : WriterStep c t s s') : (s.writer t).phase.Born ∧ (s'.writer t).phase.Born := by
  cases h
  all_goals simp [*, Phase.Born]

theorem Forks.same (h : Forks c s) (hr : s'.reader = s.reader) (hw : s'.writer = s.writer)
    (hm : ∀ i ≤ c.numProcs * 2, s'.main.Forked i ↔ s.main.Forked i) : Forks c s' where
  reader t := by
    rw [hr, h.reader]
    exact and_congr_right fun ht => (hm _ (by omega)).symm
  writer t := by
    rw [hw, h.writer]
    exact and_congr_right fun ht => (hm _ (by omega)).symm
  main := (hm 0 (by omega)).mpr h.main

theorem forks_start : Forks c (start c) where
  reader t := by
    simp only [start, Phase.Born, MainPc.Forked, false_iff]
    omega
  writer t := by
    simp only [start, Phase.Born, MainPc.Forked, false_iff]
    omega
  main := by simp [start, MainPc.Forked]

theorem Forks.reader_unborn {i : ℕ} (h : Forks c s) (hm : s.main = .forking i) (hi : i + 1 = 2 * t) :
    ¬(s.reader t).phase.Born := by
  rw [h.reader t, hm]
  simp only [MainPc.Forked]
  omega

theorem Forks.writer_unborn {i : ℕ} (h : Forks c s) (hm : s.main = .forking i) (hi : i = 2 * t) :
    ¬(s.writer t).phase.Born := by
  rw [h.writer t, hm]
  simp only [MainPc.Forked]
  omega

/-- A pass of the fork loop. -/
theorem Forks.fork {i : ℕ} (h : Forks c s) (hm : s.main = .forking i) (hm' : s'.main = .forking (i + 1))
    (hr : ∀ u, (s'.reader u).phase.Born ↔ (s.reader u).phase.Born ∨ i + 1 = 2 * u ∧ u ≤ c.numProcs)
    (hw : ∀ u, (s'.writer u).phase.Born ↔ (s.writer u).phase.Born ∨ i = 2 * u ∧ u ≤ c.numProcs) : Forks c s' := by
  obtain ⟨hreader, hwriter, h0⟩ := h
  simp only [hm, MainPc.Forked] at hreader hwriter h0
  refine ⟨fun u => ?_, fun u => ?_, ?_⟩
  · rw [hr, hreader, hm', MainPc.Forked]
    omega
  · rw [hw, hwriter, hm', MainPc.Forked]
    omega
  · rw [hm', MainPc.Forked]
    omega

theorem ReaderStep.forks (hr : ReaderStep c t s s') (h : Forks c s) : Forks c s' where
  reader u := by
    rw [hr.frame.main, ← h.reader]
    by_cases hu : u = t
    · exact hu ▸ iff_of_true hr.born.2 hr.born.1
    · rw [hr.frame.reader u (by simpa using hu)]
  writer u := by rw [hr.frame.main, hr.frame.writer u (by simp), h.writer]
  main := hr.frame.main ▸ h.main

theorem WriterStep.forks (hw : WriterStep c t s s') (h : Forks c s) : Forks c s' where
  reader u := by rw [hw.frame.main, hw.frame.reader u (by simp), h.reader]
  writer u := by
    rw [hw.frame.main, ← h.writer]
    by_cases hu : u = t
    · exact hu ▸ iff_of_true hw.born.2 hw.born.1
    · rw [hw.frame.writer u (by simpa using hu)]
  main := hw.frame.main ▸ h.main

theorem MainStep.forks (hm : MainStep c s s') (h : Forks c s) : Forks c s' := by
  cases hm with
  | @forkReader i t hm hi ht =>
    refine h.fork hm rfl (fun u => ?_) fun u => (or_iff_left (by omega)).symm
    by_cases hu : u = t
    · subst hu
      simp [Phase.Born, hi, ht]
    · simp [hu, show ¬i + 1 = 2 * u by omega]
  | @forkWriter i t hm hi ht =>
    refine h.fork hm rfl (fun u => (or_iff_left (by omega)).symm) fun u => ?_
    by_cases hu : u = t
    · subst hu
      simp [Phase.Born, hi, ht]
    · simp [hu, show ¬i = 2 * u by omega]
  | close hm hi =>
    refine h.same rfl rfl fun k hk => ?_
    simp only [State.setMain_main, hm, MainPc.Forked, true_iff]
    omega
  | closeUnused hm | closed hm | wait hm | waited hm | collect hm | fail hm | print hm =>
    exact h.same rfl rfl fun k hk => by simp [hm, MainPc.Forked]

theorem forks_of_reach (h : (machine c cap).Reachable s) : Forks c s :=
  h.invariant forks_start fun _ _ _ hI _ hs =>
    keeps_of_steps (fun _ hr => hr.forks hI) (fun _ hw => hw.forks hI) (fun hm => hm.forks hI) hs

/-! ### Who holds which descriptors -/

/-- Every process holds what it needs, and otherwise only what it is about to close. -/
structure Table (c : Config) (s : State) : Prop where
  main : Holds (s.main.keep c) s.main.todo (s.fds .main)
  reader : ∀ t, Holds (readerKeep t (s.reader t).phase) (s.reader t).phase.todo (s.fds (.reader t))
  writer : ∀ t, Holds (writerKeep c (s.writer t).phase) (s.writer t).phase.todo (s.fds (.writer t))

theorem table_start : Table c (start c) where
  main := ⟨fun fd h => decide_eq_true ⟨rfl, h⟩, fun fd h => .inl (of_decide_eq_true h).2, by simp [start, MainPc.todo]⟩
  reader t := ⟨fun _ h => h.1.elim, fun _ h => by simp [start] at h, by simp [start, Phase.todo]⟩
  writer t := ⟨fun _ h => h.1.elim, fun _ h => by simp [start] at h, by simp [start, Phase.todo]⟩

theorem Table.reader_step (h : Table c s) (hf : Frame (.reader t) s s') {r : Reader} {held : Fd → Bool}
    (hr : s'.reader t = r) (hfds : s'.fds (.reader t) = held) (ht : Holds (readerKeep t r.phase) r.phase.todo held) :
    Table c s' where
  main := by
    rw [hf.main, hf.fds .main (by simp)]
    exact h.main
  reader u := by
    by_cases hu : u = t
    · rw [hu, hr, hfds]
      exact ht
    · rw [hf.reader u (by simpa using hu), hf.fds (.reader u) (by simpa using hu)]
      exact h.reader u
  writer u := by
    rw [hf.writer u (by simp), hf.fds (.writer u) (by simp)]
    exact h.writer u

theorem Table.writer_step (h : Table c s) (hf : Frame (.writer t) s s') {w : Writer} {held : Fd → Bool}
    (hw : s'.writer t = w) (hfds : s'.fds (.writer t) = held) (ht : Holds (writerKeep c w.phase) w.phase.todo held) :
    Table c s' where
  main := by
    rw [hf.main, hf.fds .main (by simp)]
    exact h.main
  reader u := by
    rw [hf.reader u (by simp), hf.fds (.reader u) (by simp)]
    exact h.reader u
  writer u := by
    by_cases hu : u = t
    · rw [hu, hw, hfds]
      exact ht
    · rw [hf.writer u (by simpa using hu), hf.fds (.writer u) (by simpa using hu)]
      exact h.writer u

theorem ReaderStep.table (hr : ReaderStep c t s s') (h : Table c s) : Table c s' := by
  have hf := hr.frame
  have ht := h.reader t
  cases hr with
  | closeUnused hp | closeEnd hp =>
    rw [hp] at ht
    exact h.reader_step hf (Function.update_self ..) (Function.update_self ..) ht.close
  | enter hp | read hp | eof hp =>
    rw [hp] at ht
    exact h.reader_step hf (Function.update_self ..) rfl ht
  | write hp =>
    rw [hp] at ht
    refine h.reader_step hf (Function.update_self ..) rfl (ht.turn (fun _ hx => hx.1.elim) (fun x hx => .inr ?_)
      fun _ _ hx => hx.1.elim)
    simpa [Phase.todo, readerEnds] using hx.2
  | exit hp =>
    exact h.reader_step hf (Function.update_self ..) (Function.update_self ..) (.none fun _ hx => hx.1)

theorem WriterStep.table (hw : WriterStep c t s s') (h : Table c s) : Table c s' := by
  have hf := hw.frame
  have ht := h.writer t
  cases hw with
  | closeUnused hp | closeEnd hp =>
    rw [hp] at ht
    exact h.writer_step hf (Function.update_self ..) (Function.update_self ..) ht.close
  | enter hp | write hp =>
    rw [hp] at ht
    exact h.writer_step hf (Function.update_self ..) rfl ht
  | leave hp =>
    rw [hp] at ht
    exact h.writer_step hf (Function.update_self ..) rfl (ht.turn (fun _ hx => hx.1.elim)
      (fun x hx => .inr (mem_writerEnds.mpr hx.2)) fun _ _ hx => hx.1.elim)
  | exit hp =>
    exact h.writer_step hf (Function.update_self ..) (Function.update_self ..) (.none fun _ hx => hx.1)

theorem frame_setReader {held : Fd → Bool} {r : Reader} :
    Frame (.reader t) s ((s.setFds (.reader t) held).setReader t r) where
  main := rfl
  reader _ hu := Function.update_of_ne (fun heq => hu (congrArg _ heq)) _ _
  writer _ _ := rfl
  fds _ hq := Function.update_of_ne hq _ _
  lines := rfl

theorem frame_setWriter {held : Fd → Bool} {w : Writer} :
    Frame (.writer t) s ((s.setFds (.writer t) held).setWriter t w) where
  main := rfl
  reader _ _ := rfl
  writer _ hu := Function.update_of_ne (fun heq => hu (congrArg _ heq)) _ _
  fds _ hq := Function.update_of_ne hq _ _
  lines := rfl

/-- A child starts with the descriptors of `main`: those it needs, and those it closes first. -/
theorem holds_readerStart {held : Fd → Bool} (h : Holds (fun fd => fd.pipe.Opened c) [] held)
    (ht : 1 ≤ t ∧ t ≤ c.numProcs) : Holds (readerKeep t (.start (readerUnused c t))) (readerUnused c t) held := by
  refine h.turn (fun x hx => ?_) (fun x hx => ?_) fun x hx hk => (mem_readerUnused.mp hx).2 hk.2
  · obtain rfl | rfl := hx.2 <;> exact ht
  · by_cases hk : x = inputs t .rd ∨ x = output t .wr
    · exact .inl ⟨trivial, hk⟩
    · exact .inr (mem_readerUnused.mpr ⟨hx, hk⟩)

theorem holds_writerStart {held : Fd → Bool} (h : Holds (fun fd => fd.pipe.Opened c) [] held) :
    Holds (writerKeep c (.start (writerUnused c))) (writerUnused c) held := by
  refine h.turn (fun x hx => hx.2.1) (fun x hx => ?_) fun x hx hk => (mem_writerUnused.mp hx).2 hk.2.2
  by_cases hk : ∃ i, x.pipe = .inputs i
  · exact .inl ⟨trivial, hx, hk⟩
  · exact .inr (mem_writerUnused.mpr ⟨hx, hk⟩)

theorem MainStep.table (hm : MainStep c s s') (h : Table c s) (hf : Forks c s) : Table c s' := by
  have h0 := h.main
  have hpos := hf.main
  cases hm with
  | @forkReader i t hm hi ht =>
    rw [hm] at h0 hpos
    have h1 : 1 ≤ t := by omega
    have hr := h.reader_step (frame_setReader (r := ⟨.start (readerUnused c t), signed (sigInit t)⟩))
      (Function.update_self ..) (Function.update_self ..) (holds_readerStart h0 ⟨h1, ht⟩)
    exact ⟨h0, hr.reader, hr.writer⟩
  | @forkWriter i t hm hi ht =>
    rw [hm] at h0
    have hw := h.writer_step (frame_setWriter (t := t) (w := ⟨.start (writerUnused c), signed (sigInit t), 0⟩))
      (Function.update_self ..) (Function.update_self ..) (holds_writerStart h0)
    exact ⟨h0, hw.reader, hw.writer⟩
  | close hm hi =>
    rw [hm] at h0
    refine ⟨h0.turn (fun _ hx => hx.1) (fun x hx => ?_) fun x hx hk => ?_, h.reader, h.writer⟩
    · by_cases hout : ∃ i, x = output i .rd
      · exact .inl ⟨hx, hout⟩
      · exact .inr (mem_mainUnused.mpr ⟨hx, hout⟩)
    · exact (mem_mainUnused.mp hx).2 hk.2
  | closeUnused hm =>
    rw [hm] at h0
    have hfds : ∀ {held : Fd → Bool} {q : Proc}, q ≠ .main → (s.setFds .main held).fds q = s.fds q :=
      fun hq => Function.update_of_ne hq _ _
    refine ⟨?_, fun u => ?_, fun u => ?_⟩
    · rw [State.setMain_fds, State.close_fds, Function.update_self]
      exact h0.close
    · rw [State.setMain_fds, State.close, hfds (by simp)]
      exact h.reader u
    · rw [State.setMain_fds, State.close, hfds (by simp)]
      exact h.writer u
  | closed hm | wait hm | waited hm | collect hm | fail hm | print hm =>
    rw [hm] at h0
    exact ⟨h0, h.reader, h.writer⟩

theorem table_of_reach (h : (machine c cap).Reachable s) : Table c s := by
  induction h with
  | init => exact table_start
  | step a hr _ hs ih =>
    exact keeps_of_steps (fun _ hr => hr.table ih) (fun _ hw => hw.table ih) (fun hm => hm.table ih (forks_of_reach hr)) hs

/-! ### End of file -/

/-- An input pipe that nobody can write to is one whose writers, all of them, are done: `main` keeps the
    write end until it has forked the last writer, and a writer until it has sent its last message. -/
theorem ended_of_not_isOpen (hf : Forks c s) (h : Table c s) (ht : 1 ≤ t ∧ t ≤ c.numProcs)
    (ho : s.isOpen c (inputs t .wr) = false) {u : ℕ} (hu : 1 ≤ u ∧ u ≤ c.numProcs) : (s.writer u).phase.Ended := by
  simp only [State.isOpen, Bool.or_eq_false_iff, List.any_eq_false, List.mem_range'_1, Bool.not_eq_true] at ho
  obtain ⟨hmain, hall⟩ := ho
  have hforked : s.main.Forked (2 * u) := by
    cases hm : s.main with
    | forking i =>
      have := h.main.kept (inputs t .wr) (by rw [hm]; exact ht)
      rw [hmain] at this
      cases this
    | _ => trivial
  refine Phase.ended_of_not_inUse ((hf.writer u).mpr ⟨hu, hforked⟩) fun huse => ?_
  have := (h.writer u).kept (inputs t .wr) ⟨huse, ht, t, rfl⟩
  rw [(hall u (by omega)).2] at this
  cases this

/-- A reader past end of file has emptied its pipe, and every writer is done. -/
def AtEof (c : Config) (s : State) : Prop :=
  ∀ t, (s.reader t).SawEof → s.buf (.inputs t) = [] ∧ ∀ u, 1 ≤ u ∧ u ≤ c.numProcs → (s.writer u).phase.Ended

theorem ReaderStep.atEof (hr : ReaderStep c t s s') (hf : Forks c s) (h : Table c s) (hs : AtEof c s) : AtEof c s' := by
  have hw : s'.writer = s.writer := funext fun u => hr.frame.writer u (by simp)
  have hborn := (hf.reader t).mp hr.born.1
  intro u hu
  rw [hw]
  by_cases hut : u = t
  · subst hut
    cases hr with
    | closeUnused | enter | read => simp [Reader.SawEof] at hu
    | eof hp hb ho => exact ⟨hb, fun u => ended_of_not_isOpen hf h hborn.1 ho⟩
    | write hp | closeEnd hp | exit hp =>
      have := hs u (by simp [Reader.SawEof, hp])
      simpa using this
  · rw [hr.frame.reader u (by simpa using hut)] at hu
    have := hs u hu
    cases hr
    all_goals simpa [Function.update_apply, hut] using this

theorem WriterStep.atEof (hw : WriterStep c t s s') (hf : Forks c s) (hs : AtEof c s) : AtEof c s' := by
  have hborn := (hf.writer t).mp hw.born.1
  intro u hu
  rw [hw.frame.reader u (by simp)] at hu
  obtain ⟨hbuf, hall⟩ := hs u hu
  have ht := hall t hborn.1
  -- The writer is done, so it is closing its descriptors or exits.
  cases hw with
  | closeUnused hp | enter hp | write hp | leave hp =>
    rw [hp] at ht
    exact ht.elim
  | closeEnd hp | exit hp =>
    refine ⟨hbuf, fun v hv => ?_⟩
    have := hall v hv
    by_cases hvt : v = t
    · subst hvt
      simp [Phase.Ended]
    · simpa [hvt] using this

theorem MainStep.atEof (hm : MainStep c s s') (hf : Forks c s) (hs : AtEof c s) : AtEof c s' := by
  intro u hu
  cases hm with
  | @forkReader i t hm hi ht =>
    by_cases hut : u = t
    · subst hut
      simp [Reader.SawEof] at hu
    · simp only [State.setMain_reader, State.setReader_reader, Function.update_of_ne hut] at hu
      exact hs u hu
  | @forkWriter i t hm hi ht =>
    -- Writer `t` is not forked yet, so no reader is past end of file.
    obtain ⟨-, hall⟩ := hs u hu
    have h0 := hf.main
    rw [hm] at h0
    have hended := hall t ⟨by simp only [MainPc.Forked] at h0; omega, ht⟩
    have hnot := hf.writer_unborn hm hi
    cases hp : (s.writer t).phase <;> simp [hp, Phase.Born, Phase.Ended] at hended hnot
  | collect | fail =>
    obtain ⟨hbuf, hall⟩ := hs u hu
    exact ⟨by simpa using hbuf, hall⟩
  | close | closeUnused | closed | wait | waited | print => exact hs u hu

theorem atEof_of_reach (h : (machine c cap).Reachable s) : AtEof c s := by
  induction h with
  | init => exact fun _ hu => by simp [machine, start, Reader.SawEof] at hu
  | step a hr _ hs ih =>
    have hf := forks_of_reach hr
    have ht := table_of_reach hr
    exact keeps_of_steps (fun _ hr => hr.atEof hf ht ih) (fun _ hw => hw.atEof hf ih) (fun hm => hm.atEof hf ih) hs

/-- A writer counts its messages from 0 up to `MaxLoop`, and is done with its loop only there. -/
structure Writer.Counted (c : Config) (w : Writer) : Prop where
  unborn : ¬w.phase.Born → w.i = 0
  le : w.i ≤ c.maxLoop
  ended : w.phase.Ended → w.i = c.maxLoop

theorem WriterStep.counted (hw : WriterStep c t s s') (h : (s.writer t).Counted c) : (s'.writer t).Counted c := by
  obtain ⟨-, hle, hended⟩ := h
  cases hw with
  | closeUnused | enter =>
    simp only [State.setWriter_writer, Function.update_self]
    exact ⟨fun hnot => (hnot trivial).elim, hle, fun h => h.elim⟩
  | write hp hi =>
    simp only [State.setWriter_writer, Function.update_self]
    exact ⟨fun hnot => (hnot trivial).elim, hi, fun h => h.elim⟩
  | leave hp hi =>
    simp only [State.setWriter_writer, Function.update_self]
    exact ⟨fun hnot => (hnot trivial).elim, hle, fun _ => Nat.le_antisymm hle (Nat.not_lt.mp hi)⟩
  | closeEnd hp | exit hp =>
    rw [hp] at hended
    simp only [State.setWriter_writer, Function.update_self]
    exact ⟨fun hnot => (hnot trivial).elim, hle, fun _ => hended trivial⟩

theorem counted_of_reach (h : (machine c cap).Reachable s) : ∀ t, (s.writer t).Counted c := by
  induction h with
  | init => exact fun _ => ⟨fun _ => rfl, Nat.zero_le _, fun h => h.elim⟩
  | step a hr _ hs ih =>
    refine keeps_of_steps (I := fun s => ∀ t, (s.writer t).Counted c) (fun t hr u => ?_) (fun t hw u => ?_)
      (fun hm u => ?_) hs
    · rw [hr.frame.writer u (by simp)]
      exact ih u
    · by_cases hu : u = t
      · exact hu ▸ hw.counted (ih t)
      · rw [hw.frame.writer u (by simpa using hu)]
        exact ih u
    · cases hm with
      | @forkWriter i t hm hi ht =>
        by_cases hu : u = t
        · subst hu
          simp only [State.setMain_writer, State.setWriter_writer, Function.update_self]
          exact ⟨fun _ => rfl, Nat.zero_le _, fun h => h.elim⟩
        · simpa [hu] using ih u
      | _ => exact ih u

end Racey.Forkpipe
