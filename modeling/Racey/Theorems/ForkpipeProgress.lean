import Racey.Theorems.ForkpipeDelivery
import Mathlib.Algebra.BigOperators.Group.Finset.Basic
import Mathlib.Algebra.Order.BigOperators.Group.Finset
import Mathlib.Order.Interval.Finset.Nat

/-! racey-forkpipe never gets stuck: until `main` has printed its result some process can take a step, and no
    run is longer than what is left to do at the start. -/

namespace Racey.Forkpipe
open Descriptors Machine

variable {c : Config} {cap : Pipe → ℕ} {s s' : State} {t u : ℕ}

/-! ### Steps that can be taken -/

def CanStep (c : Config) (cap : Pipe → ℕ) (s : State) : Prop := ∃ a s', step c cap a s = some s'

def Phase.Closing {β : Type} : Phase β → Prop
  | .start _ | .finish _ => True
  | _ => False

theorem Phase.todo_of_not_closing {β : Type} {p : Phase β} (h : ¬p.Closing) : p.todo = [] := by
  cases p with
  | start | finish => exact (h trivial).elim
  | _ => rfl

theorem step_of_reader_closing (h : (s.reader t).phase.Closing) : ∃ s', step c cap (.reader t) s = some s' := by
  cases hp : (s.reader t).phase with
  | start todo | finish todo => cases todo <;> simp [step, stepReader, hp]
  | _ =>
    rw [hp] at h
    exact h.elim

theorem step_of_writer_closing (h : (s.writer t).phase.Closing) : ∃ s', step c cap (.writer t) s = some s' := by
  cases hp : (s.writer t).phase with
  | start todo | finish todo => cases todo <;> simp [step, stepWriter, hp]
  | _ =>
    rw [hp] at h
    exact h.elim

theorem canStep_of_reader_closing (h : (s.reader t).phase.Closing) : CanStep c cap s := ⟨_, step_of_reader_closing h⟩

theorem canStep_of_writer_closing (h : (s.writer t).phase.Closing) : CanStep c cap s := ⟨_, step_of_writer_closing h⟩

/-- A reader can read from a pipe that is not empty or has no writer. -/
theorem step_of_read (h : Table c s) (hp : (s.reader t).phase = .body .read)
    (hb : s.buf (.inputs t) ≠ [] ∨ s.isOpen c (inputs t .wr) = false) : ∃ s', step c cap (.reader t) s = some s' := by
  have hfd : s.fds (.reader t) ⟨.inputs t, .rd⟩ = true := (h.reader t).kept _ (by rw [hp]; exact ⟨trivial, .inl rfl⟩)
  simp only [step, stepReader, hp]
  rw [read_eq_some.mpr ⟨⟨hfd, hb⟩, rfl⟩]
  exact ⟨_, rfl⟩

theorem canStep_of_read (h : Table c s) (hp : (s.reader t).phase = .body .read)
    (hb : s.buf (.inputs t) ≠ [] ∨ s.isOpen c (inputs t .wr) = false) : CanStep c cap s := ⟨_, step_of_read h hp hb⟩

/-- A reader can write its digest while `main` has not read the output pipes. -/
theorem canStep_of_digest (hcap : ∀ p, 64 ≤ cap p) (h : Table c s) (ho : Outputs s) (ht : 1 ≤ t ∧ t ≤ c.numProcs)
    (hm : ¬s.main.Collected t) (hp : (s.reader t).phase = .body .write) : CanStep c cap s := by
  have hfd : s.fds (.reader t) ⟨.output t, .wr⟩ = true := (h.reader t).kept _ (by rw [hp]; exact ⟨trivial, .inr rfl⟩)
  have hopen : s.isOpen c ⟨.output t, .rd⟩ = true := by
    have hkeep : s.main.keep c ⟨.output t, .rd⟩ := by
      cases s.main with
      | forking => exact ht
      | _ => exact ⟨ht, t, rfl⟩
    simp [State.isOpen, h.main.kept _ hkeep]
  have hroom : (s.buf (.output t)).length + (encode (s.reader t).num).length ≤ cap (.output t) := by
    rw [ho.empty t hm (by simp [hp, Phase.Ended]), length_encode]
    exact (by decide : 0 + 4 ≤ 64).trans (hcap _)
  refine ⟨.reader t, ?_⟩
  simp only [step, stepReader, hp]
  rw [write_eq_some.mpr ⟨⟨hfd, hopen, hroom⟩, rfl⟩]
  exact ⟨_, rfl⟩

theorem target_mem (hn : 0 < c.numProcs) (num : ℤ) : 1 ≤ target c num ∧ target c num ≤ c.numProcs := by
  have := Int.tmod_lt_of_pos num (show (0 : ℤ) < c.numProcs by exact_mod_cast hn)
  unfold target
  omega

/-- A writer with messages left can write the next one, or its pipe is not empty. -/
theorem canStep_of_loop (hcap : ∀ p, 64 ≤ cap p) (h : Table c s) (ht : 1 ≤ t ∧ t ≤ c.numProcs)
    (hp : (s.writer t).phase = .body .loop) :
    CanStep c cap s ∨ ∃ k, (1 ≤ k ∧ k ≤ c.numProcs) ∧ s.buf (.inputs k) ≠ [] := by
  by_cases hi : (s.writer t).i < c.maxLoop
  · have hk := target_mem (by omega) (fill (s.writer t).num).2 (c := c)
    generalize hkdef : target c (fill (s.writer t).num).2 = k at hk
    by_cases hroom : (s.buf (.inputs k)).length + (message (s.writer t).num).bytes.length ≤ cap (.inputs k)
    · have hfd : ∀ e, s.fds (.writer t) ⟨.inputs k, e⟩ = true := fun e =>
        (h.writer t).kept _ (by rw [hp]; exact ⟨trivial, hk, k, rfl⟩)
      have hopen : s.isOpen c ⟨.inputs k, .rd⟩ = true := by
        simp only [State.isOpen, Bool.or_eq_true, List.any_eq_true, List.mem_range'_1]
        exact .inr ⟨t, by omega, .inr (hfd .rd)⟩
      refine .inl ⟨.writer t, ?_⟩
      simp only [step, stepWriter, hp, if_pos hi, hkdef]
      rw [write_eq_some.mpr ⟨⟨hfd .wr, hopen, hroom⟩, rfl⟩]
      exact ⟨_, rfl⟩
    · refine .inr ⟨k, hk, fun hb => hroom ?_⟩
      rw [hb, Message.length_bytes]
      exact (by decide : 0 + 64 ≤ 64).trans (hcap _)
  · refine .inl ⟨.writer t, ?_⟩
    simp [step, stepWriter, hp, hi]

/-- A reader whose pipe is not empty can take a step: it is not past end of file. -/
theorem canStep_of_ne_nil (hf : Forks c s) (h : Table c s) (heof : AtEof c s) (ht : 1 ≤ t ∧ t ≤ c.numProcs)
    (hm : s.main.Forked (2 * t - 1)) (hb : s.buf (.inputs t) ≠ []) : CanStep c cap s := by
  have hborn := (hf.reader t).mpr ⟨ht, hm⟩
  by_cases hsaw : (s.reader t).SawEof
  · exact absurd (heof t hsaw).1 hb
  · cases hp : (s.reader t).phase with
    | unborn =>
      rw [hp] at hborn
      exact hborn.elim
    | start => exact canStep_of_reader_closing (t := t) (by simp [hp, Phase.Closing])
    | body pc =>
      cases pc with
      | read => exact canStep_of_read h hp (.inl hb)
      | write => simp [Reader.SawEof, hp] at hsaw
    | finish | exited => simp [Reader.SawEof, hp] at hsaw

/-- With every descriptor closed that is to be closed, and every writer gone, nobody can write to an input
    pipe. -/
theorem isOpen_eq_false (h : Table c s) (hm : s.main.todo = []) (hk : ∀ fd, s.main.keep c fd → fd.side = .rd)
    (hr : ∀ u, ¬(s.reader u).phase.Closing) (hw : ∀ u, 1 ≤ u ∧ u ≤ c.numProcs → (s.writer u).phase = .exited) :
    s.isOpen c (inputs t .wr) = false := by
  have hmain := h.main
  rw [hm] at hmain
  simp only [State.isOpen, Bool.or_eq_false_iff, List.any_eq_false, List.mem_range'_1, Bool.not_eq_true]
  refine ⟨hmain.not_held fun hkeep => by simpa [inputs] using hk _ hkeep, fun u hu => ⟨?_, ?_⟩⟩
  · have hreader := h.reader u
    rw [Phase.todo_of_not_closing (hr u)] at hreader
    exact hreader.not_held fun hkeep => by simpa [inputs, output] using hkeep.2
  · have hwriter := h.writer u
    rw [hw u (by omega)] at hwriter
    exact hwriter.not_held fun hkeep => hkeep.1

/-- Once all are forked, a writer that has not exited can take a step, or the reader of its pipe can. -/
theorem canStep_of_writer (hcap : ∀ p, 64 ≤ cap p) (h : (machine c cap).Reachable s) (hm : ∀ i, s.main.Forked i)
    (ht : 1 ≤ t ∧ t ≤ c.numProcs) (hne : (s.writer t).phase ≠ .exited) : CanStep c cap s := by
  have hf := forks_of_reach h
  cases hp : (s.writer t).phase with
  | unborn =>
    have hborn := (hf.writer t).mpr ⟨ht, hm _⟩
    rw [hp] at hborn
    exact hborn.elim
  | start | finish => exact canStep_of_writer_closing (t := t) (by simp [hp, Phase.Closing])
  | body =>
    obtain hstep | ⟨k, hk, hb⟩ := canStep_of_loop hcap (table_of_reach h) ht hp
    · exact hstep
    · exact canStep_of_ne_nil hf (table_of_reach h) (atEof_of_reach h) hk (hm _) hb
  | exited => exact absurd hp hne

/-- Once nobody else can write to its pipe, a reader that has not exited can take a step. -/
theorem canStep_of_reader (hcap : ∀ p, 64 ≤ cap p) (h : (machine c cap).Reachable s) (hm : ∀ i, s.main.Forked i)
    (hc : ¬s.main.Collected t) (ht : 1 ≤ t ∧ t ≤ c.numProcs) (ho : s.isOpen c (inputs t .wr) = false)
    (hne : (s.reader t).phase ≠ .exited) : CanStep c cap s := by
  cases hp : (s.reader t).phase with
  | unborn =>
    have hborn := ((forks_of_reach h).reader t).mpr ⟨ht, hm _⟩
    rw [hp] at hborn
    exact hborn.elim
  | start | finish => exact canStep_of_reader_closing (t := t) (by simp [hp, Phase.Closing])
  | body pc =>
    cases pc with
    | read => exact canStep_of_read (table_of_reach h) hp (.inr ho)
    | write => exact canStep_of_digest hcap (table_of_reach h) (outputs_of_reach h) ht hc hp
  | exited => exact absurd hp hne

/-- While `main` waits for a child that has not exited, some process can take a step. -/
theorem canStep_of_waiting {i : ℕ} (hcap : ∀ p, 64 ≤ cap p) (h : (machine c cap).Reachable s)
    (hm : s.main = .waiting i) (hi : i ≤ c.numProcs * 2) : CanStep c cap s := by
  have hforked : ∀ k, s.main.Forked k := fun k => by simp [hm, MainPc.Forked]
  by_cases hz : s.zombies = []
  swap
  · obtain ⟨r, hr⟩ := List.exists_mem_of_ne_nil _ hz
    refine ⟨.wait r, ?_⟩
    simp [step, stepWait, hm, hi, hr]
  by_cases hclosing : ∃ u, (s.reader u).phase.Closing
  · obtain ⟨u, hu⟩ := hclosing
    exact canStep_of_reader_closing hu
  by_cases hwriter : ∃ u, (1 ≤ u ∧ u ≤ c.numProcs) ∧ (s.writer u).phase ≠ .exited
  · obtain ⟨u, hu, hne⟩ := hwriter
    exact canStep_of_writer hcap h hforked hu hne
  push Not at hclosing hwriter
  -- Only readers are left, and each sees what is in its pipe, or end of file.
  obtain ⟨p, hp, hne⟩ := exists_not_exited (waits_of_reach h) hm hi hz
  cases p with
  | main => exact (main_not_mem_children hp).elim
  | reader u =>
    refine canStep_of_reader hcap h hforked (by simp [hm, MainPc.Collected]) (reader_mem_children.mp hp) ?_
      fun hexit => hne (by simp [State.Exited, hexit, Phase.Exited])
    refine isOpen_eq_false (table_of_reach h) (by simp [hm, MainPc.todo]) ?_ hclosing hwriter
    rw [hm]
    rintro fd ⟨-, k, rfl⟩
    rfl
  | writer u => exact (hne (by simp [State.Exited, hwriter u (writer_mem_children.mp hp), Phase.Exited])).elim

theorem canStep_of_reach (hcap : ∀ p, 64 ≤ cap p) (h : (machine c cap).Reachable s)
    (hm : ∀ mix_sig, s.main ≠ .printed mix_sig) : CanStep c cap s := by
  cases hp : s.main with
  | forking i => exact ⟨.main, by simp only [step, stepMain, hp]; split <;> exact ⟨_, rfl⟩⟩
  | closing todo => exact ⟨.main, by cases todo <;> simp [step, stepMain, hp]⟩
  | waiting i =>
    by_cases hi : i ≤ c.numProcs * 2
    · exact canStep_of_waiting hcap h hp hi
    · exact ⟨.main, by simp [step, stepMain, hp, hi]⟩
  | readOut i mix_sig =>
    refine ⟨.main, ?_⟩
    by_cases hi : i < c.numProcs
    · obtain ⟨-, hread⟩ := readOutput_of_reach h hp hi
      simp [step, stepMain, hp, hi, hread]
    · simp [step, stepMain, hp, hi]
  | printed mix_sig => exact absurd hp (hm mix_sig)
  | failed => exact absurd hp (main_ne_failed h)

/-! ### What is left to do -/

/-- The steps that a reader has left, apart from reads that return something. -/
def readerLeft (c : Config) (t : ℕ) (r : Reader) : ℕ :=
  match r.phase with
  | .unborn => (readerUnused c t).length + 6
  | .start todo => todo.length + 6
  | .body .read => 5
  | .body .write => 4
  | .finish todo => todo.length + 1
  | .exited => 0

/-- The steps that a writer has left once it is in its loop, and for each message also one for each of its 64
    bytes, which pays for the read that takes it. -/
def loopLeft (c : Config) (w : Writer) : ℕ := 65 * (c.maxLoop - w.i) + (writerEnds c).length + 2

def writerLeft (c : Config) (w : Writer) : ℕ :=
  match w.phase with
  | .unborn => (writerUnused c).length + 1 + loopLeft c w
  | .start todo => todo.length + 1 + loopLeft c w
  | .body .loop => loopLeft c w
  | .finish todo => todo.length + 1
  | .exited => 0

def mainLeft (c : Config) : MainPc → ℕ
  | .forking i => (c.numProcs * 2 + 1 - i) + (mainUnused c).length + c.numProcs * 3 + 5
  | .closing todo => todo.length + c.numProcs * 3 + 4
  | .waiting i => (c.numProcs * 2 + 1 - i) + c.numProcs + 2
  | .readOut i _ => c.numProcs - i + 1
  | .printed _ | .failed => 0

def left (c : Config) (s : State) : ℕ :=
  mainLeft c s.main + ∑ t ∈ Finset.Icc 1 c.numProcs, readerLeft c t (s.reader t) +
    ∑ t ∈ Finset.Icc 1 c.numProcs, writerLeft c (s.writer t) +
    ∑ t ∈ Finset.Icc 1 c.numProcs, (s.buf (.inputs t)).length

/-- A step of a reader takes one of its steps or at least one byte from its pipe. -/
theorem ReaderStep.readerLeft_lt (hr : ReaderStep c t s s') :
    readerLeft c t (s'.reader t) + (s'.buf (.inputs t)).length < readerLeft c t (s.reader t) + (s.buf (.inputs t)).length := by
  cases hr with
  | read hp hb =>
    have := List.length_pos_iff.mpr hb
    simp [readerLeft, hp]
    omega
  | closeUnused hp | enter hp | eof hp | closeEnd hp | exit hp => simp [readerLeft, hp]
  | write hp => simp [readerLeft, hp, readerEnds]

theorem ReaderStep.left_lt (hr : ReaderStep c t s s') (ht : 1 ≤ t ∧ t ≤ c.numProcs) : left c s' < left c s := by
  have hmem : t ∈ Finset.Icc 1 c.numProcs := Finset.mem_Icc.mpr ht
  have hf := hr.frame
  have hwriter : s'.writer = s.writer := funext fun u => hf.writer u (by simp)
  have hbuf : ∀ u, u ≠ t → s'.buf (.inputs u) = s.buf (.inputs u) := fun u hu => by
    cases hr <;> simp [hu]
  have hreaders := sum_change (f := fun u => readerLeft c u (s.reader u)) (g := fun u => readerLeft c u (s'.reader u))
    hmem fun u hu => by rw [hf.reader u (by simpa using hu)]
  have hbytes := sum_change (f := fun u => (s.buf (.inputs u)).length) (g := fun u => (s'.buf (.inputs u)).length)
    hmem fun u hu => by rw [hbuf u hu]
  have hlt := hr.readerLeft_lt
  unfold left
  rw [hf.main, hwriter]
  omega

/-- A step of a writer takes one of its steps, or 65 and puts 64 bytes into a pipe. -/
theorem WriterStep.writerLeft_lt (hw : WriterStep c t s s') (hn : 0 < c.numProcs) :
    (s'.buf = s.buf ∧ writerLeft c (s'.writer t) < writerLeft c (s.writer t)) ∨
    (∃ k ∈ Finset.Icc 1 c.numProcs, (∀ u, u ≠ k → s'.buf (.inputs u) = s.buf (.inputs u)) ∧
      (s'.buf (.inputs k)).length = (s.buf (.inputs k)).length + 64 ∧
      writerLeft c (s'.writer t) + 65 = writerLeft c (s.writer t)) := by
  cases hw with
  | @write k num hp hi hk =>
    refine .inr ⟨k, Finset.mem_Icc.mpr (hk ▸ target_mem hn _), fun u hu => by simp [hu], ?_, ?_⟩
    · simp [Message.length_bytes]
    · simp only [State.setWriter_writer, Function.update_self, writerLeft, loopLeft, hp]
      omega
  | closeUnused hp | enter hp | closeEnd hp | exit hp => exact .inl ⟨rfl, by simp [writerLeft, loopLeft, hp]⟩
  | leave hp =>
    refine .inl ⟨rfl, ?_⟩
    simp only [State.setWriter_writer, Function.update_self, writerLeft, loopLeft, hp]
    omega

theorem WriterStep.left_lt (hw : WriterStep c t s s') (ht : 1 ≤ t ∧ t ≤ c.numProcs) : left c s' < left c s := by
  have hmem : t ∈ Finset.Icc 1 c.numProcs := Finset.mem_Icc.mpr ht
  have hf := hw.frame
  have hreader : s'.reader = s.reader := funext fun u => hf.reader u (by simp)
  have hwriters := sum_change (f := fun u => writerLeft c (s.writer u)) (g := fun u => writerLeft c (s'.writer u))
    hmem fun u hu => by rw [hf.writer u (by simpa using hu)]
  unfold left
  rw [hf.main, hreader]
  obtain ⟨hbuf, hlt⟩ | ⟨k, hk, hbuf, hlen, hlt⟩ := hw.writerLeft_lt (by omega)
  · rw [hbuf]
    omega
  · have hbytes := sum_change (f := fun u => (s.buf (.inputs u)).length) (g := fun u => (s'.buf (.inputs u)).length)
      hk fun u hu => by rw [hbuf u hu]
    omega

/-- A step that takes one of the steps of `main` and leaves everybody else with what they had. -/
theorem left_lt_of_main (hm : mainLeft c s'.main < mainLeft c s.main)
    (hr : ∀ u, readerLeft c u (s'.reader u) = readerLeft c u (s.reader u))
    (hw : ∀ u, writerLeft c (s'.writer u) = writerLeft c (s.writer u))
    (hb : ∀ u, s'.buf (.inputs u) = s.buf (.inputs u)) : left c s' < left c s := by
  simp only [left, hr, hw, hb]
  omega

/-- A step of `main` takes one of its steps; a child that is forked has as much left to do as before. -/
theorem MainStep.left_lt (hm : MainStep c s s') (hf : Forks c s) (hc : ∀ t, (s.writer t).Counted c) :
    left c s' < left c s := by
  cases hm with
  | @forkReader i t hm hi ht =>
    have hnot := hf.reader_unborn hm hi
    refine left_lt_of_main ?_ (fun u => ?_) (fun _ => rfl) fun _ => rfl
    · simp only [State.setMain_main, mainLeft, hm]
      omega
    · by_cases hu : u = t
      · subst hu
        cases hp : (s.reader u).phase <;> simp [readerLeft, hp, Phase.Born] at hnot ⊢
      · simp [hu]
  | @forkWriter i t hm hi ht =>
    have hnot := hf.writer_unborn hm hi
    refine left_lt_of_main ?_ (fun _ => rfl) (fun u => ?_) fun _ => rfl
    · simp only [State.setMain_main, mainLeft, hm]
      omega
    · by_cases hu : u = t
      · subst hu
        have hzero := (hc u).unborn hnot
        cases hp : (s.writer u).phase <;> simp [writerLeft, loopLeft, hp, hzero, Phase.Born] at hnot ⊢
      · simp [hu]
  | close hm hi | closeUnused hm | closed hm | wait hm hi | waited hm hi | print hm hi =>
    refine left_lt_of_main ?_ (fun _ => rfl) (fun _ => rfl) fun _ => rfl
    simp only [State.setMain_main, mainLeft, hm, List.length_cons, List.length_nil]
    omega
  | collect hm hi | fail hm hi =>
    refine left_lt_of_main ?_ (fun _ => rfl) (fun _ => rfl) fun u => by simp
    simp only [State.setMain_main, mainLeft, hm]
    omega

theorem left_lt_of_step {a : Move} (h : (machine c cap).Reachable s) (hs : step c cap a s = some s') :
    left c s' < left c s := by
  have hf := forks_of_reach h
  exact keeps_of_steps (I := fun s' => left c s' < left c s)
    (fun t hr => hr.left_lt ((hf.reader t).mp hr.born.1).1) (fun t hw => hw.left_lt ((hf.writer t).mp hw.born.1).1)
    (fun hm => hm.left_lt hf (counted_of_reach h)) hs

/-- The program never gets stuck: with pipes of at least 64 bytes, some process can take a step in every state
    reached before `main` has printed its result; and no run takes more steps than were left at the start. -/
theorem never_stuck (hcap : ∀ p, 64 ≤ cap p) :
    (∀ s, (machine c cap).Reachable s → (∀ mix_sig, s.main ≠ .printed mix_sig) → CanStep c cap s) ∧
    (∀ as s, (machine c cap).run as (start c) = some s → as.length ≤ left c (start c)) := by
  refine ⟨fun s => canStep_of_reach hcap, fun as s hr => ?_⟩
  have := Machine.length_le_of_measure (I := (machine c cap).Reachable) (fun a s t h hs => h.step a trivial hs)
    (fun a s t => left_lt_of_step) .init hr
  simp only [machine] at this
  omega

/-- Two readers and two writers: the state in which `main` starts to wait, and a whole run. -/
theorem never_stuck_two :
    (∃ s, (machine ⟨2, 1⟩ fun _ => 64).Reachable s ∧ s.main = .waiting 1 ∧ CanStep ⟨2, 1⟩ (fun _ => 64) s) ∧
    (∃ as s mix_sig, (machine ⟨2, 1⟩ fun _ => 64).run as (start ⟨2, 1⟩) = some s ∧ s.main = .printed mix_sig ∧
      as.length = 69 ∧ as.length ≤ left ⟨2, 1⟩ (start ⟨2, 1⟩)) := by
  obtain ⟨hstep, hbound⟩ := @never_stuck ⟨2, 1⟩ (fun _ => 64) fun _ => le_rfl
  constructor
  · obtain ⟨s, hr, hp⟩ := Machine.exists_reachable (M := machine ⟨2, 1⟩ fun _ => 64)
      (p := fun s => decide (s.main = .waiting 1)) (List.replicate 12 .main) (by decide +kernel)
    have hm : s.main = .waiting 1 := of_decide_eq_true hp
    exact ⟨s, hr, hm, hstep s hr fun _ h => by rw [hm] at h; cases h⟩
  · have hrun : ((machine ⟨2, 1⟩ fun _ => 64).run (runTwo ++ [.main, .main, .main]) (start ⟨2, 1⟩)).any
        (fun s => decide (s.main = .printed 65156983)) = true := by
      decide +kernel
    obtain ⟨s, hr, hp⟩ := (Option.any_eq_true _ _).mp hrun
    exact ⟨_, s, 65156983, hr, of_decide_eq_true hp, rfl, hbound _ s hr⟩

end Racey.Forkpipe
