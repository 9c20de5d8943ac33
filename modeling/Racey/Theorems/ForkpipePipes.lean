import Racey.Theorems.ForkpipeProgress
import Racey.Theorems.Pipes

/-! racey-forkpipe does what the pipes do: forking, closing descriptors, waiting and the output pipes do not show. -/

namespace Racey.Forkpipe
open Descriptors Machine

variable {c : Config} {cap : Pipe → ℕ} {s s' : State} {t u : ℕ}

/-! ### The pipes of a state -/

def Reader.pipes (t : ℕ) (r : Reader) : Pipes.Reader :=
  match r.phase with
  | .unborn => ⟨signed (sigInit t), false⟩
  | .start _ | .body .read => ⟨r.num, false⟩
  | .body .write | .finish _ | .exited => ⟨r.num, true⟩

def Writer.pipes (t : ℕ) (w : Writer) : Pipes.Writer :=
  match w.phase with
  | .unborn => ⟨signed (sigInit t), 0⟩
  | _ => ⟨w.num, w.i⟩

def State.pipes (s : State) : Pipes.State where
  reader t := (s.reader t).pipes t
  writer t := (s.writer t).pipes t
  buf t := s.buf (.inputs t)

def capacity (cap : Pipe → ℕ) (t : ℕ) : ℕ := cap (.inputs t)

theorem pipes_congr (hr : ∀ u, (s'.reader u).pipes u = (s.reader u).pipes u)
    (hw : ∀ u, (s'.writer u).pipes u = (s.writer u).pipes u) (hb : ∀ u, s'.buf (.inputs u) = s.buf (.inputs u)) :
    s'.pipes = s.pipes := by
  rw [State.pipes, State.pipes, funext hr, funext hw, funext hb]

theorem ReaderStep.pipes_eq (hr : ReaderStep c t s s') (hpipes : (s'.reader t).pipes t = (s.reader t).pipes t)
    (hb : ∀ u, s'.buf (.inputs u) = s.buf (.inputs u)) : s'.pipes = s.pipes := by
  refine pipes_congr (fun u => ?_) (fun u => by rw [hr.frame.writer u (by simp)]) hb
  rcases eq_or_ne u t with rfl | hne
  · exact hpipes
  · rw [hr.frame.reader u (by simpa using hne)]

/-- A reader outside its read loop does nothing that shows. -/
theorem ReaderStep.quiet (hr : ReaderStep c t s s') (hp : (s.reader t).phase ≠ .body .read) : s'.pipes = s.pipes := by
  have h := hr
  cases hr with
  | closeUnused hp | enter hp | closeEnd hp | exit hp => exact h.pipes_eq (by simp [Reader.pipes, hp]) fun _ => rfl
  | write hp => exact h.pipes_eq (by simp [Reader.pipes, hp]) fun u => by simp
  | read hread | eof hread => exact absurd hread hp

/-- A writer outside its loop, or with nothing left to send, does nothing that shows. -/
theorem WriterStep.quiet (hw : WriterStep c t s s') (hp : (s.writer t).phase = .body .loop → c.maxLoop ≤ (s.writer t).i) :
    s'.pipes = s.pipes := by
  have hsame : ∀ w, s'.writer t = w → w.pipes t = (s.writer t).pipes t → s'.buf = s.buf → s'.pipes = s.pipes := by
    intro w heq hpipes hbuf
    refine pipes_congr (fun u => by rw [hw.frame.reader u (by simp)]) (fun u => ?_) fun u => by rw [hbuf]
    rcases eq_or_ne u t with rfl | hne
    · rw [heq, hpipes]
    · rw [hw.frame.writer u (by simpa using hne)]
  cases hw with
  | closeUnused hp | enter hp | leave hp | closeEnd hp | exit hp =>
    exact hsame _ (Function.update_self ..) (by simp [Writer.pipes, hp]) rfl
  | write hloop hi => exact absurd hi (not_lt.mpr (hp hloop))

theorem pipes_unborn_reader {r : Reader} (h : ¬ r.phase.Born) : r.pipes t = ⟨signed (sigInit t), false⟩ := by
  cases hp : r.phase <;> simp [Reader.pipes, hp, Phase.Born] at h ⊢

theorem pipes_unborn_writer {w : Writer} (h : ¬ w.phase.Born) : w.pipes t = ⟨signed (sigInit t), 0⟩ := by
  cases hp : w.phase <;> simp [Writer.pipes, hp, Phase.Born] at h ⊢

/-- `main` does nothing that shows. -/
theorem MainStep.quiet (hm : MainStep c s s') (hf : Forks c s) : s'.pipes = s.pipes := by
  cases hm with
  | @forkReader i t hm hi ht =>
    refine pipes_congr (fun u => ?_) (fun _ => rfl) fun _ => rfl
    rcases eq_or_ne u t with rfl | hne
    · rw [pipes_unborn_reader (hf.reader_unborn hm hi)]
      simp [Reader.pipes]
    · simp [hne]
  | @forkWriter i t hm hi ht =>
    refine pipes_congr (fun _ => rfl) (fun u => ?_) fun _ => rfl
    rcases eq_or_ne u t with rfl | hne
    · rw [pipes_unborn_writer (hf.writer_unborn hm hi)]
      simp [Writer.pipes]
    · simp [hne]
  | close | closeUnused | closed | wait | waited | print => exact pipes_congr (fun _ => rfl) (fun _ => rfl) fun _ => rfl
  | collect | fail => exact pipes_congr (fun _ => rfl) (fun _ => rfl) fun u => by simp

/-! ### Steps that show -/

theorem sent_of_ended (h : ∀ u, 1 ≤ u ∧ u ≤ c.numProcs → (s.writer u).phase.Ended)
    (hc : ∀ u, (s.writer u).Counted c) : s.pipes.Sent c := by
  intro u h1 hn
  have hended := h u ⟨h1, hn⟩
  have hi := (hc u).ended hended
  cases hp : (s.writer u).phase <;> simp [State.pipes, Writer.pipes, hp, hi, Phase.Ended] at hended ⊢

theorem pipes_setReader (r : Reader) :
    (s.setReader t r).pipes = { s.pipes with reader := Function.update s.pipes.reader t (r.pipes t) } := by
  exact Pipes.State.ext (funext (Function.apply_update Reader.pipes s.reader t r)) rfl rfl

theorem pipes_setWriter (w : Writer) :
    (s.setWriter t w).pipes = { s.pipes with writer := Function.update s.pipes.writer t (w.pipes t) } := by
  exact Pipes.State.ext rfl (funext (Function.apply_update Writer.pipes s.writer t w)) rfl

theorem pipes_setBuf (bytes : List UInt8) :
    (s.setBuf (.inputs t) bytes).pipes = { s.pipes with buf := Function.update s.pipes.buf t bytes } := by
  exact Pipes.State.ext rfl rfl (Function.update_comp_eq_of_injective s.buf (fun _ _ => Pipe.inputs.inj) t bytes)

theorem pipes_reader (hp : (s.reader t).phase = .body .read) : s.pipes.reader t = ⟨(s.reader t).num, false⟩ := by
  simp [State.pipes, Reader.pipes, hp]

theorem pipes_writer (hp : (s.writer t).phase = .body .loop) : s.pipes.writer t = ⟨(s.writer t).num, (s.writer t).i⟩ := by
  simp [State.pipes, Writer.pipes, hp]

theorem pipes_read (ht : 1 ≤ t ∧ t ≤ c.numProcs) (hp : (s.reader t).phase = .body .read) (hb : s.buf (.inputs t) ≠ []) :
    Pipes.stepRead c t s.pipes = some (((s.setBuf (.inputs t) ((s.buf (.inputs t)).drop 128)).setReader t
      ⟨.body .read, digest (s.reader t).num ((s.buf (.inputs t)).take 128)⟩).pipes) := by
  rw [Pipes.stepRead_eq_some ht (pipes_reader hp) hb, pipes_setReader, pipes_setBuf]
  rfl

theorem pipes_eof (ht : 1 ≤ t ∧ t ≤ c.numProcs) (hp : (s.reader t).phase = .body .read) (hb : s.buf (.inputs t) = [])
    (hsent : s.pipes.Sent c) : Pipes.stepEof c t s.pipes =
      some ((s.setReader t ⟨.body .write, digest (s.reader t).num []⟩).pipes) := by
  rw [Pipes.stepEof_eq_some ht (pipes_reader hp) hb hsent, pipes_setReader]
  rfl

theorem pipes_write {k : ℕ} (ht : 1 ≤ t ∧ t ≤ c.numProcs) (hp : (s.writer t).phase = .body .loop)
    (hi : (s.writer t).i < c.maxLoop) (hk : k = target c (fill (s.writer t).num).2)
    (hroom : (s.buf (.inputs k)).length + (message (s.writer t).num).bytes.length ≤ cap (.inputs k)) :
    Pipes.stepWrite c (capacity cap) t s.pipes =
      some (((s.setBuf (.inputs k) (s.buf (.inputs k) ++ (message (s.writer t).num).bytes)).setWriter t
        ⟨.body .loop, mixInt (fill (s.writer t).num).2 (message (s.writer t).num).bytes.length,
          (s.writer t).i + 1⟩).pipes) := by
  have hloop : ∀ num i, Writer.pipes t ⟨.body .loop, num, i⟩ = ⟨num, i⟩ := fun _ _ => rfl
  rw [pipes_setWriter, pipes_setBuf, hloop]
  exact Pipes.stepWrite_eq_some ht (pipes_writer hp) hi hk hroom

/-- A step of a writer that sends a message. -/
theorem stepWriter_write_eq_some (hp : (s.writer t).phase = .body .loop) (hi : (s.writer t).i < c.maxLoop) {k : ℕ}
    (hk : k = target c (fill (s.writer t).num).2) : stepWriter c cap t s = some s' ↔
      (s.fds (.writer t) (inputs k .wr) = true ∧ s.isOpen c (inputs k .rd) = true ∧
        (s.buf (.inputs k)).length + (message (s.writer t).num).bytes.length ≤ cap (.inputs k)) ∧
      s' = (s.setBuf (.inputs k) (s.buf (.inputs k) ++ (message (s.writer t).num).bytes)).setWriter t
        ⟨.body .loop, mixInt (fill (s.writer t).num).2 (message (s.writer t).num).bytes.length, (s.writer t).i + 1⟩ := by
  simp only [stepWriter, hp, if_pos hi, ← hk, Option.map_eq_some_iff, write_eq_some]
  constructor
  · rintro ⟨_, ⟨hroom, rfl⟩, rfl⟩
    exact ⟨hroom, rfl⟩
  · rintro ⟨hroom, rfl⟩
    exact ⟨_, ⟨hroom, rfl⟩, rfl⟩

theorem sim_reader (hf : Forks c s) (h : Table c s) (hc : ∀ u, (s.writer u).Counted c) (hr : ReaderStep c t s s') :
    s'.pipes = s.pipes ∨ ∃ b, Pipes.step c (capacity cap) b s.pipes = some s'.pipes := by
  have ht := ((hf.reader t).mp hr.born.1).1
  have hquiet := hr.quiet
  cases hr with
  | read hp hb => exact .inr ⟨.read t, pipes_read ht hp hb⟩
  | eof hp hb ho =>
    exact .inr ⟨.eof t, pipes_eof ht hp hb (sent_of_ended (fun u => ended_of_not_isOpen hf h ht ho) hc)⟩
  | closeUnused hp | enter hp | write hp | closeEnd hp | exit hp => exact .inl (hquiet (by simp [hp]))

theorem sim_writer (hf : Forks c s) (h : stepWriter c cap t s = some s') :
    s'.pipes = s.pipes ∨ ∃ b, Pipes.step c (capacity cap) b s.pipes = some s'.pipes := by
  have hw := writerStep_of_step h
  have ht := ((hf.writer t).mp hw.born.1).1
  rcases em ((s.writer t).phase = .body .loop ∧ (s.writer t).i < c.maxLoop) with ⟨hp, hi⟩ | hnot
  · obtain ⟨⟨-, -, hroom⟩, rfl⟩ := (stepWriter_write_eq_some hp hi rfl).mp h
    exact .inr ⟨.write t, pipes_write ht hp hi rfl hroom⟩
  · exact .inl (hw.quiet fun hp => not_lt.mp fun hi => hnot ⟨hp, hi⟩)

theorem sim {a : Move} (hr : (machine c cap).Reachable s) (h : step c cap a s = some s') :
    s'.pipes = s.pipes ∨ ∃ b, Pipes.step c (capacity cap) b s.pipes = some s'.pipes := by
  have hf := forks_of_reach hr
  cases a with
  | main => exact .inl ((mainStep_of_step h).quiet hf)
  | wait r => exact .inl ((mainStep_of_wait h).quiet hf)
  | reader t => exact sim_reader hf (table_of_reach hr) (counted_of_reach hr) (readerStep_of_step h)
  | writer t => exact sim_writer hf h

/-! ### Every step of the pipes is made, or comes closer -/

/-- Some process can take a step that does not show. -/
def Quiet (c : Config) (cap : Pipe → ℕ) (s : State) : Prop := ∃ a s', step c cap a s = some s' ∧ s'.pipes = s.pipes

theorem quiet_of_main (hf : Forks c s) (u : State) (h : stepMain c s = some u) : Quiet c cap s :=
  ⟨.main, u, h, (mainStep_of_step h).quiet hf⟩

theorem quiet_of_forking {i : ℕ} (hf : Forks c s) (hm : s.main = .forking i) : Quiet c cap s := by
  rcases em (i ≤ c.numProcs * 2) with hi | hi
  · exact quiet_of_main hf ((s.fork c i).setMain (.forking (i + 1))) (by simp only [stepMain, hm, if_pos hi])
  · exact quiet_of_main hf (s.setMain (.closing (mainUnused c))) (by simp only [stepMain, hm, if_neg hi])

theorem quiet_of_closing {todo : List Fd} (hf : Forks c s) (hm : s.main = .closing todo) : Quiet c cap s := by
  cases todo with
  | nil => exact quiet_of_main hf (s.setMain (.waiting 1)) (by simp only [stepMain, hm])
  | cons fd todo => exact quiet_of_main hf ((s.close .main fd).setMain (.closing todo)) (by simp only [stepMain, hm])

theorem quiet_of_not_forked {k : ℕ} (hf : Forks c s) (h : ¬ s.main.Forked k) : Quiet c cap s := by
  cases hm : s.main with
  | forking i => exact quiet_of_forking hf hm
  | _ =>
    rw [hm] at h
    exact absurd trivial h

theorem quiet_of_reader_closing (h : (s.reader t).phase.Closing) : Quiet c cap s := by
  obtain ⟨s', hs⟩ : ∃ s', step c cap (.reader t) s = some s' := step_of_reader_closing h
  refine ⟨.reader t, s', hs, (readerStep_of_step hs).quiet fun hp => ?_⟩
  rw [hp] at h
  exact h

theorem quiet_of_writer_closing (h : (s.writer t).phase.Closing) : Quiet c cap s := by
  obtain ⟨s', hs⟩ : ∃ s', step c cap (.writer t) s = some s' := step_of_writer_closing h
  refine ⟨.writer t, s', hs, (writerStep_of_step hs).quiet fun hp => ?_⟩
  rw [hp] at h
  exact h.elim

theorem quiet_of_sent (hp : (s.writer t).phase = .body .loop) (hi : ¬ (s.writer t).i < c.maxLoop) : Quiet c cap s := by
  have hs : stepWriter c cap t s = some (s.setWriter t { s.writer t with phase := .finish (writerEnds c) }) := by
    simp only [stepWriter, hp, if_neg hi]
  exact ⟨.writer t, _, hs, (writerStep_of_step hs).quiet fun _ => not_lt.mp hi⟩

theorem Phase.closing_of_mem_todo {β : Type} {p : Phase β} {fd : Fd} (h : fd ∈ p.todo) : p.Closing := by
  by_contra hnot
  rw [todo_of_not_closing hnot] at h
  cases h

/-- While a write end is open after the last message, whoever holds it is about to close it. -/
theorem quiet_of_isOpen (hf : Forks c s) (h : Table c s) (hsent : s.pipes.Sent c)
    (ho : s.isOpen c (inputs t .wr) = true) : Quiet c cap s := by
  simp only [State.isOpen, Bool.or_eq_true, List.any_eq_true, List.mem_range'_1] at ho
  rcases ho with hmain | ⟨u, hu, hreader | hwriter⟩
  · cases hm : s.main with
    | forking i => exact quiet_of_forking hf hm
    | closing todo => exact quiet_of_closing hf hm
    | _ =>
      have hin := h.main.within _ hmain
      simp [hm, MainPc.keep, MainPc.todo, inputs, output] at hin
  · rcases (h.reader u).within _ hreader with ⟨-, heq | heq⟩ | htodo
    · cases heq
    · cases heq
    · exact quiet_of_reader_closing (Phase.closing_of_mem_todo htodo)
  · rcases (h.writer u).within _ hwriter with ⟨huse, -⟩ | htodo
    · cases hp : (s.writer u).phase with
      | start todo => exact quiet_of_writer_closing (t := u) (by simp [hp, Phase.Closing])
      | body =>
        have hi : (s.pipes.writer u).i = c.maxLoop := hsent u hu.1 (by omega)
        rw [pipes_writer hp] at hi
        exact quiet_of_sent hp hi.not_lt
      | _ =>
        rw [hp] at huse
        exact huse.elim
    · exact quiet_of_writer_closing (Phase.closing_of_mem_todo htodo)

/-- The descriptors with which a writer sends. -/
theorem writer_holds (h : Table c s) (ht : 1 ≤ t ∧ t ≤ c.numProcs) (hp : (s.writer t).phase = .body .loop) {k : ℕ}
    (hk : 1 ≤ k ∧ k ≤ c.numProcs) : s.fds (.writer t) (inputs k .wr) = true ∧ s.isOpen c (inputs k .rd) = true := by
  have hfd : ∀ e, s.fds (.writer t) (inputs k e) = true := fun e =>
    (h.writer t).kept _ (by rw [hp]; exact ⟨trivial, hk, k, rfl⟩)
  refine ⟨hfd .wr, ?_⟩
  simp only [State.isOpen, Bool.or_eq_true, List.any_eq_true, List.mem_range'_1]
  exact .inr ⟨t, by omega, .inr (hfd .rd)⟩

theorem follow_write {y : Pipes.State} (hf : Forks c s) (h : Table c s) (hc : ∀ u, (s.writer u).Counted c)
    (hy : Pipes.stepWrite c (capacity cap) t s.pipes = some y) :
    Quiet c cap s ∨ ∃ s', step c cap (.writer t) s = some s' ∧ s'.pipes = y := by
  obtain ⟨⟨ht, hi, hroom⟩, -⟩ := Option.ite_none_right_eq_some.mp hy
  cases hp : (s.writer t).phase with
  | unborn =>
    refine .inl (quiet_of_not_forked (k := 2 * t) hf fun hforked => ?_)
    have hborn := (hf.writer t).mpr ⟨ht, hforked⟩
    rw [hp] at hborn
    exact hborn
  | start => exact .inl (quiet_of_writer_closing (t := t) (by simp [hp, Phase.Closing]))
  | body =>
    rw [pipes_writer hp] at hi hroom
    obtain ⟨hfd, hopen⟩ := writer_holds h ht hp (target_mem (by omega) (fill (s.writer t).num).2)
    refine .inr ⟨_, (stepWriter_write_eq_some hp hi rfl).mpr ⟨⟨hfd, hopen, hroom⟩, rfl⟩, ?_⟩
    exact Option.some.inj ((pipes_write ht hp hi rfl hroom).symm.trans hy)
  | finish | exited =>
    have hended := (hc t).ended (by simp [hp, Phase.Ended])
    simp only [State.pipes, Writer.pipes, hp, hended, lt_irrefl] at hi

/-- What a reader does that has not seen the end of its stream. -/
theorem follow_reader (hf : Forks c s) (ht : 1 ≤ t ∧ t ≤ c.numProcs) (hdone : (s.pipes.reader t).done = false) :
    Quiet c cap s ∨ (s.reader t).phase = .body .read := by
  cases hp : (s.reader t).phase with
  | unborn =>
    refine .inl (quiet_of_not_forked (k := 2 * t - 1) hf fun hforked => ?_)
    have hborn := (hf.reader t).mpr ⟨ht, hforked⟩
    rw [hp] at hborn
    exact hborn
  | start => exact .inl (quiet_of_reader_closing (t := t) (by simp [hp, Phase.Closing]))
  | body pc =>
    cases pc with
    | read => exact .inr rfl
    | write => simp [State.pipes, Reader.pipes, hp] at hdone
  | finish | exited => simp [State.pipes, Reader.pipes, hp] at hdone

theorem follow_read {y : Pipes.State} (hf : Forks c s) (h : Table c s)
    (hy : Pipes.stepRead c t s.pipes = some y) :
    Quiet c cap s ∨ ∃ s', step c cap (.reader t) s = some s' ∧ s'.pipes = y := by
  obtain ⟨⟨ht, hdone, hb⟩, -⟩ := Option.ite_none_right_eq_some.mp hy
  refine (follow_reader hf ht hdone).imp_right fun hp => ?_
  obtain ⟨s', hs⟩ : ∃ s', step c cap (.reader t) s = some s' := step_of_read h hp (.inl hb)
  refine ⟨s', hs, ?_⟩
  cases readerStep_of_step hs with
  | read => exact Option.some.inj ((pipes_read ht hp hb).symm.trans hy)
  | eof _ hnil => exact absurd hnil hb
  | closeUnused hq | enter hq | write hq | closeEnd hq | exit hq =>
    rw [hp] at hq
    cases hq

theorem follow_eof {y : Pipes.State} (hf : Forks c s) (h : Table c s)
    (hy : Pipes.stepEof c t s.pipes = some y) :
    Quiet c cap s ∨ ∃ s', step c cap (.reader t) s = some s' ∧ s'.pipes = y := by
  obtain ⟨⟨ht, hdone, hb, hsent⟩, -⟩ := Option.ite_none_right_eq_some.mp hy
  rcases (follow_reader hf ht hdone : Quiet c cap s ∨ _) with hquiet | hp
  · exact .inl hquiet
  cases ho : s.isOpen c (inputs t .wr) with
  | true => exact .inl (quiet_of_isOpen hf h hsent ho)
  | false =>
    obtain ⟨s', hs⟩ : ∃ s', step c cap (.reader t) s = some s' := step_of_read h hp (.inr ho)
    refine .inr ⟨s', hs, ?_⟩
    cases readerStep_of_step hs with
    | eof => exact Option.some.inj ((pipes_eof ht hp hb hsent).symm.trans hy)
    | read _ hne => exact absurd hb hne
    | closeUnused hq | enter hq | write hq | closeEnd hq | exit hq =>
      rw [hp] at hq
      cases hq

theorem follow {b : Pipes.Move} {y : Pipes.State} (hr : (machine c cap).Reachable s)
    (hy : Pipes.step c (capacity cap) b s.pipes = some y) :
    ∃ a s', step c cap a s = some s' ∧ (s'.pipes = y ∨ s'.pipes = s.pipes) := by
  have hf := forks_of_reach hr
  have h := table_of_reach hr
  have hmove : Quiet c cap s ∨ ∃ a s', step c cap a s = some s' ∧ s'.pipes = y := by
    cases b with
    | write t => exact (follow_write hf h (counted_of_reach hr) hy).imp_right fun h => ⟨_, h⟩
    | read t => exact (follow_read hf h hy).imp_right fun h => ⟨_, h⟩
    | eof t => exact (follow_eof hf h hy).imp_right fun h => ⟨_, h⟩
  rcases hmove with ⟨a, s', hs, hsame⟩ | ⟨a, s', hs, hview⟩
  · exact ⟨a, s', hs, .inr hsame⟩
  · exact ⟨a, s', hs, .inl hview⟩

theorem pipes_start : (start c).pipes = Pipes.start := rfl

/-- racey-forkpipe does what the pipes do. -/
theorem implements : Implements (machine c cap) (Pipes.machine c (capacity cap)) State.pipes (left c) where
  init := pipes_start
  sim _ _ _ := sim
  follow _ _ _ := follow
  down _ _ _ := left_lt_of_step

/-! ### The result -/

/-- Every child has exited. -/
def Over (c : Config) (s : State) : Prop := ∀ p ∈ children c, s.Exited p

theorem Over.complete (h : Over c s) (hc : ∀ u, (s.writer u).Counted c) : Pipes.Complete c s.pipes := by
  refine ⟨fun t h1 hn => ?_, sent_of_ended (fun u hu => ?_) hc⟩
  · have hexit : (s.reader t).phase.Exited := h (.reader t) (reader_mem_children.mpr ⟨h1, hn⟩)
    cases hp : (s.reader t).phase <;> simp [hp, Phase.Exited, State.pipes, Reader.pipes] at hexit ⊢
  · have hexit : (s.writer u).phase.Exited := h (.writer u) (writer_mem_children.mpr hu)
    cases hp : (s.writer u).phase <;> simp [hp, Phase.Exited, Phase.Ended] at hexit ⊢

theorem Over.not_readerStep (h : Over c s) (hf : Forks c s) (hr : ReaderStep c t s s') : False := by
  have hexit : (s.reader t).phase.Exited := h (.reader t) (reader_mem_children.mpr ((hf.reader t).mp hr.born.1).1)
  cases hr with
  | closeUnused hp | enter hp | read hp | eof hp | write hp | closeEnd hp | exit hp => simp [hp, Phase.Exited] at hexit

theorem Over.not_writerStep (h : Over c s) (hf : Forks c s) (hw : WriterStep c t s s') : False := by
  have hexit : (s.writer t).phase.Exited := h (.writer t) (writer_mem_children.mpr ((hf.writer t).mp hw.born.1).1)
  cases hw with
  | closeUnused hp | enter hp | write hp | leave hp | closeEnd hp | exit hp => simp [hp, Phase.Exited] at hexit

theorem over_of_readOut {i : ℕ} {mix_sig : ℤ} (h : (machine c cap).Reachable s) (hm : s.main = .readOut i mix_sig) :
    Over c s := fun _ => exited_of_readOut (waits_of_reach h) (forks_of_reach h) hm

/-- What `main` has in `mix_sig`. -/
structure Result (c : Config) (s : State) : Prop where
  folded : ∀ i mix_sig, s.main = .readOut i mix_sig → Pipes.Folded c (fun t => (s.pipes.reader t).num) i mix_sig
  printed : ∀ mix_sig, s.main = .printed mix_sig →
    Over c s ∧ mixSig c.numProcs (fun t => (s.pipes.reader t).num) = some mix_sig

theorem Result.child (h : Result c s) (hm : s'.main = s.main) (hover : ∀ i mix_sig, s.main = .readOut i mix_sig → Over c s)
    (hnot : ¬ Over c s) : Result c s' where
  folded i mix_sig hp := absurd (hover i mix_sig (hm ▸ hp)) hnot
  printed mix_sig hp := absurd (h.printed mix_sig (hm ▸ hp)).1 hnot

/-- A pass of the loop over the output pipes. -/
theorem stepMain_readOut {i : ℕ} {mix_sig : ℤ} (h : (machine c cap).Reachable s) (hm : s.main = .readOut i mix_sig)
    (hi : i < c.numProcs) (hs : stepMain c s = some s') : ∃ mix_sig',
      collectOne mix_sig ⟨4, (s.pipes.reader i).num⟩ = some mix_sig' ∧
      s' = (s.setBuf (.output i) []).setMain (.readOut (i + 1) mix_sig') := by
  obtain ⟨hexit, hread⟩ := readOutput_of_reach h hm hi
  have hnum : (s.pipes.reader i).num = (s.reader i).num := by simp only [State.pipes, Reader.pipes, hexit]
  simp only [stepMain, hm, if_pos hi, hread, Option.map_some, Option.some.injEq] at hs
  rw [hnum]
  exact ⟨_, rfl, hs.symm⟩

theorem result_of_main (h : Result c s) (hr : (machine c cap).Reachable s) (hs : stepMain c s = some s') :
    Result c s' := by
  have hview := (mainStep_of_step hs).quiet (forks_of_reach hr)
  have hm := mainStep_of_step hs
  cases hm with
  | forkReader | forkWriter | close | closeUnused | closed | wait =>
    exact ⟨fun _ _ hp => (by cases hp), fun _ hp => (by cases hp)⟩
  | waited =>
    refine ⟨fun _ _ hp => ?_, fun _ hp => (by cases hp)⟩
    cases hp
    exact ⟨le_rfl, .inl rfl, Pipes.mixSig_one _⟩
  | collect hm hi | fail hm hi =>
    obtain ⟨mix_sig', hcollect, heq⟩ := stepMain_readOut hr hm hi hs
    rw [heq] at hview ⊢
    refine ⟨fun _ _ hp => ?_, fun _ hp => (by cases hp)⟩
    cases hp
    rw [hview]
    exact (h.folded _ _ hm).next hi hcollect
  | print hm hi =>
    refine ⟨fun _ _ hp => (by cases hp), fun _ hp => ?_⟩
    cases hp
    have hover : Over c s := over_of_readOut hr hm
    exact ⟨hover, (h.folded _ _ hm).done hi⟩

theorem waiting_of_wait {r : Proc} (h : stepWait c r s = some s') : ∃ i, s'.main = .waiting i := by
  unfold stepWait at h
  split at h
  · obtain ⟨-, heq⟩ := Option.ite_none_right_eq_some.mp h
    cases heq
    exact ⟨_, rfl⟩
  · cases h

theorem result_of_reach (h : (machine c cap).Reachable s) : Result c s := by
  induction h with
  | init => exact ⟨fun _ _ hp => (by cases hp), fun _ hp => (by cases hp)⟩
  | @step s s' a hr _ hs ih =>
    have hover : ∀ i mix_sig, s.main = .readOut i mix_sig → Over c s := fun _ _ => over_of_readOut hr
    have hf := forks_of_reach hr
    cases a with
    | main => exact result_of_main ih hr hs
    | wait r =>
      obtain ⟨i, hm⟩ := waiting_of_wait hs
      exact ⟨fun _ _ hp => (by cases hm.symm.trans hp), fun _ hp => (by cases hm.symm.trans hp)⟩
    | reader t =>
      have hstep := readerStep_of_step hs
      exact ih.child hstep.frame.main hover fun h => h.not_readerStep hf hstep
    | writer t =>
      have hstep := writerStep_of_step hs
      exact ih.child hstep.frame.main hover fun h => h.not_writerStep hf hstep

/-- What racey-forkpipe can print is what can come out of the pipes. -/
theorem outcomes_eq (hcap : ∀ p, 64 ≤ cap p) : outcomes c cap = Pipes.outcomes c (capacity cap) := by
  refine Pipes.outcomes_of_implements implements (fun s hs hnot => ?_)
    fun s v hs hv => ?_
  · exact canStep_of_reach hcap hs fun v hv => hnot ⟨v, hv⟩
  · obtain ⟨hover, hmix⟩ := (result_of_reach hs).printed v hv
    exact ⟨hover.complete (counted_of_reach hs), hmix⟩

end Racey.Forkpipe
