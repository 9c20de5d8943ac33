import Racey.Theorems.Clonepipe

/-! racey-clonepipe does what the pipes do, so what it can print is what racey-forkpipe can print. -/

namespace Racey.Clonepipe
open Forkpipe (Pipe Fd inputs output encode digest fill message mixInt target collectOne capacity)
open Machine

variable {c : Config} {cap : Pipe → ℕ} {s s' : State} {t u : ℕ}

/-! ### The pipes of a state -/

def Reader.pipes (t : ℕ) (r : Reader) : Pipes.Reader :=
  match r.phase with
  | .unborn => ⟨signed (sigInit t), false⟩
  | .read => ⟨r.num, false⟩
  | .write | .returned => ⟨r.num, true⟩

def Writer.pipes (t : ℕ) (w : Writer) : Pipes.Writer :=
  match w.phase with
  | .unborn => ⟨signed (sigInit t), 0⟩
  | .loop | .returned => ⟨w.num, w.i⟩

def State.pipes (s : State) : Pipes.State where
  reader t := (s.reader t).pipes t
  writer t := (s.writer t).pipes t
  buf t := s.buf (.inputs t)

@[simp] theorem pipes_setMain (m : MainPc) : (s.setMain m).pipes = s.pipes := rfl

@[simp] theorem pipes_close (fd : Fd) : (s.close fd).pipes = s.pipes := rfl

theorem pipes_setReader (r : Reader) :
    (s.setReader t r).pipes = { s.pipes with reader := Function.update s.pipes.reader t (r.pipes t) } := by
  exact Pipes.State.ext (funext (Function.apply_update Reader.pipes s.reader t r)) rfl rfl

theorem pipes_setWriter (w : Writer) :
    (s.setWriter t w).pipes = { s.pipes with writer := Function.update s.pipes.writer t (w.pipes t) } := by
  exact Pipes.State.ext rfl (funext (Function.apply_update Writer.pipes s.writer t w)) rfl

theorem pipes_setBuf (bytes : List UInt8) :
    (s.setBuf (.inputs t) bytes).pipes = { s.pipes with buf := Function.update s.pipes.buf t bytes } := by
  exact Pipes.State.ext rfl rfl (Function.update_comp_eq_of_injective s.buf (fun _ _ => Pipe.inputs.inj) t bytes)

@[simp] theorem pipes_setBuf_output (bytes : List UInt8) : (s.setBuf (.output t) bytes).pipes = s.pipes :=
  Pipes.State.ext rfl rfl (funext fun u => by simp [State.pipes])

/-- A change of a reader that does not show. -/
theorem pipes_setReader_eq {r : Reader} (h : r.pipes t = (s.reader t).pipes t) : (s.setReader t r).pipes = s.pipes := by
  rw [pipes_setReader, h]
  exact Pipes.State.ext (Function.update_eq_self t s.pipes.reader) rfl rfl

theorem pipes_setWriter_eq {w : Writer} (h : w.pipes t = (s.writer t).pipes t) : (s.setWriter t w).pipes = s.pipes := by
  rw [pipes_setWriter, h]
  exact Pipes.State.ext rfl (Function.update_eq_self t s.pipes.writer) rfl

/-- `main` does nothing that shows. -/
theorem MainStep.quiet (hm : MainStep c s s') (h : Spawns c s) : s'.pipes = s.pipes := by
  cases hm with
  | spawnReader hm hi =>
    rw [pipes_setMain]
    exact pipes_setReader_eq (by simp only [Reader.pipes, h.reader_unborn hm hi])
  | spawnWriter hm hi =>
    rw [pipes_setMain]
    exact pipes_setWriter_eq (by simp only [Writer.pipes, h.writer_unborn hm hi])
  | collect | fail =>
    rw [pipes_setMain]
    exact pipes_setBuf_output _
  | _ => rfl

/-! ### Every step is a step of the pipes or does not show -/

theorem pipes_reader (hp : (s.reader t).phase = .read) : s.pipes.reader t = ⟨(s.reader t).num, false⟩ := by
  simp only [State.pipes, Reader.pipes, hp]

theorem pipes_writer (hp : (s.writer t).phase = .loop) : s.pipes.writer t = ⟨(s.writer t).num, (s.writer t).i⟩ := by
  simp only [State.pipes, Writer.pipes, hp]

theorem pipes_read (ht : 1 ≤ t ∧ t ≤ c.numProcs) (hp : (s.reader t).phase = .read) (hb : s.buf (.inputs t) ≠ []) :
    Pipes.stepRead c t s.pipes = some (((s.setBuf (.inputs t) ((s.buf (.inputs t)).drop 128)).setReader t
      ⟨.read, digest (s.reader t).num ((s.buf (.inputs t)).take 128)⟩).pipes) := by
  rw [Pipes.stepRead_eq_some ht (pipes_reader hp) hb, pipes_setReader, pipes_setBuf]
  rfl

theorem pipes_eof (ht : 1 ≤ t ∧ t ≤ c.numProcs) (hp : (s.reader t).phase = .read) (hb : s.buf (.inputs t) = [])
    (hsent : s.pipes.Sent c) : Pipes.stepEof c t s.pipes =
      some ((s.setReader t ⟨.write, digest (s.reader t).num []⟩).pipes) := by
  rw [Pipes.stepEof_eq_some ht (pipes_reader hp) hb hsent, pipes_setReader]
  rfl

theorem pipes_write {k : ℕ} (ht : 1 ≤ t ∧ t ≤ c.numProcs) (hp : (s.writer t).phase = .loop)
    (hi : (s.writer t).i < c.maxLoop) (hk : k = target c (fill (s.writer t).num).2)
    (hroom : (s.buf (.inputs k)).length + (message (s.writer t).num).bytes.length ≤ cap (.inputs k)) :
    Pipes.stepWrite c (capacity cap) t s.pipes =
      some (((s.setBuf (.inputs k) (s.buf (.inputs k) ++ (message (s.writer t).num).bytes)).setWriter t
        ⟨.loop, mixInt (fill (s.writer t).num).2 (message (s.writer t).num).bytes.length, (s.writer t).i + 1⟩).pipes) := by
  have hloop : ∀ num i, Writer.pipes t ⟨.loop, num, i⟩ = ⟨num, i⟩ := fun _ _ => rfl
  rw [pipes_setWriter, pipes_setBuf, hloop]
  exact Pipes.stepWrite_eq_some ht (pipes_writer hp) hi hk hroom

/-- All messages have been sent once `main` has closed a write end. -/
theorem sent_of_closed (hj : Joins c s) (hc : ∀ u, (s.writer u).Counted c) (h : s.main.Closed t) : s.pipes.Sent c := by
  intro u h1 hn
  have hjoined : s.main.JoinedWriter u := by
    cases hm : s.main with
    | spawning | joinWriters =>
      rw [hm] at h
      exact h.elim
    | _ => trivial
  have hret := hj.writer u ⟨h1, hn⟩ hjoined
  simp only [State.pipes, Writer.pipes, hret, (hc u).returned hret]

theorem sim_reader (hp : Spawns c s) (hj : Joins c s) (hc : ∀ u, (s.writer u).Counted c) (hr : ReaderStep t s s') :
    s'.pipes = s.pipes ∨ ∃ b, Pipes.step c (capacity cap) b s.pipes = some s'.pipes := by
  have ht := ((hp.reader t).mp hr.born.1).1
  cases hr with
  | read hp hb => exact .inr ⟨.read t, pipes_read ht hp hb⟩
  | eof hp hb ho => exact .inr ⟨.eof t, pipes_eof ht hp hb (sent_of_closed hj hc (hj.closed_of_not_fds ht ho))⟩
  | write hp =>
    refine .inl ((pipes_setReader_eq ?_).trans (pipes_setBuf_output _))
    simp only [State.setBuf_reader, Reader.pipes, hp]

theorem sim_writer (hp : Spawns c s) (hw : WriterStep c cap t s s') :
    s'.pipes = s.pipes ∨ ∃ b, Pipes.step c (capacity cap) b s.pipes = some s'.pipes := by
  have ht := ((hp.writer t).mp hw.born.1).1
  cases hw with
  | write hp hi hk hroom => exact .inr ⟨.write t, pipes_write ht hp hi hk hroom⟩
  | leave hp => exact .inl (pipes_setWriter_eq (by simp only [Writer.pipes, hp]))

theorem sim {a : Move} (hr : (machine c cap).Reachable s) (h : step c cap a s = some s') :
    s'.pipes = s.pipes ∨ ∃ b, Pipes.step c (capacity cap) b s.pipes = some s'.pipes := by
  have hp := spawns_of_reach hr
  cases a with
  | main => exact .inl ((mainStep_of_step h).quiet hp)
  | reader t => exact sim_reader hp (joins_of_reach hr) (counted_of_reach hr) (readerStep_of_step h)
  | writer t => exact sim_writer hp (writerStep_of_step h)

/-! ### Steps that can be taken -/

def CanStep (c : Config) (cap : Pipe → ℕ) (s : State) : Prop := ∃ a s', step c cap a s = some s'

theorem step_of_read (hj : Joins c s) (ht : 1 ≤ t ∧ t ≤ c.numProcs) (hp : (s.reader t).phase = .read)
    (hb : s.buf (.inputs t) ≠ [] ∨ s.fds (inputs t .wr) = false) : ∃ s', step c cap (.reader t) s = some s' := by
  have hfd : s.fds ⟨.inputs t, .rd⟩ = true := (hj.fds _).mpr ⟨ht, fun _ heq => (by cases heq)⟩
  simp only [step, stepReader, hp]
  rw [read_eq_some.mpr ⟨⟨hfd, hb⟩, rfl⟩]
  exact ⟨_, rfl⟩

/-- A reader can write its digest while `main` has not read the output pipes. -/
theorem step_of_digest (hcap : ∀ p, 64 ≤ cap p) (hj : Joins c s) (ho : Outputs s) (ht : 1 ≤ t ∧ t ≤ c.numProcs)
    (hm : ¬ s.main.Collected t) (hp : (s.reader t).phase = .write) : ∃ s', step c cap (.reader t) s = some s' := by
  have hfd : ∀ e, s.fds ⟨.output t, e⟩ = true := fun e => (hj.fds _).mpr ⟨ht, fun _ heq => (by cases heq)⟩
  have hroom : (s.buf (.output t)).length + (encode (s.reader t).num).length ≤ cap (.output t) := by
    rw [ho.empty t hm (by simp [hp]), Forkpipe.length_encode]
    exact (by decide : 0 + 4 ≤ 64).trans (hcap _)
  simp only [step, stepReader, hp]
  rw [write_eq_some.mpr ⟨⟨hfd _, hfd _, hroom⟩, rfl⟩]
  exact ⟨_, rfl⟩

/-- A writer can send its next message where there is room for it, until `main` closes the write ends. -/
theorem step_of_loop {k : ℕ} (hj : Joins c s) (hk : 1 ≤ k ∧ k ≤ c.numProcs) (hopen : ¬ s.main.Closed k)
    (hp : (s.writer t).phase = .loop) (hi : (s.writer t).i < c.maxLoop) (htarget : target c (fill (s.writer t).num).2 = k)
    (hroom : (s.buf (.inputs k)).length + (message (s.writer t).num).bytes.length ≤ cap (.inputs k)) :
    ∃ s', step c cap (.writer t) s = some s' := by
  have hwr : s.fds ⟨.inputs k, .wr⟩ = true := (hj.fds _).mpr ⟨hk, fun _ heq => by cases heq; exact hopen⟩
  have hrd : s.fds ⟨.inputs k, .rd⟩ = true := (hj.fds _).mpr ⟨hk, fun _ heq => (by cases heq)⟩
  simp only [step, stepWriter, hp, if_pos hi, htarget]
  rw [write_eq_some.mpr ⟨⟨hwr, hrd, hroom⟩, rfl⟩]
  exact ⟨_, rfl⟩

theorem step_of_leave (hp : (s.writer t).phase = .loop) (hi : ¬ (s.writer t).i < c.maxLoop) :
    step c cap (.writer t) s = some (s.setWriter t { s.writer t with phase := .returned }) := by
  simp only [step, stepWriter, hp, if_neg hi]

/-- While a writer has not returned, it can take a step, or the reader of a full pipe can. -/
theorem canStep_of_writer (hcap : ∀ p, 64 ≤ cap p) (hp : Spawns c s) (hj : Joins c s) (hopen : ∀ k, ¬ s.main.Closed k)
    (hspawned : ∀ i, s.main.Spawned i) (ht : 1 ≤ t ∧ t ≤ c.numProcs) (hne : (s.writer t).phase ≠ .returned) :
    CanStep c cap s := by
  cases hphase : (s.writer t).phase with
  | unborn => exact absurd hphase ((hp.writer t).mpr ⟨ht, hspawned _⟩)
  | returned => exact absurd hphase hne
  | loop =>
    rcases em ((s.writer t).i < c.maxLoop) with hi | hi
    swap
    · exact ⟨_, _, step_of_leave hphase hi⟩
    have hk := Forkpipe.target_mem (by omega) (fill (s.writer t).num).2 (c := c)
    generalize htarget : target c (fill (s.writer t).num).2 = k at hk
    rcases em ((s.buf (.inputs k)).length + (message (s.writer t).num).bytes.length ≤ cap (.inputs k)) with hroom | hroom
    · exact ⟨_, step_of_loop hj hk (hopen k) hphase hi htarget hroom⟩
    -- The pipe is not empty, and its reader has not seen end of file.
    have hb : s.buf (.inputs k) ≠ [] := by
      intro hb
      refine hroom ?_
      rw [hb, Forkpipe.Message.length_bytes]
      exact (by decide : 0 + 64 ≤ 64).trans (hcap _)
    cases hreader : (s.reader k).phase with
    | unborn => exact absurd hreader ((hp.reader k).mpr ⟨hk, hspawned _⟩)
    | read => exact ⟨_, step_of_read hj hk hreader (.inl hb)⟩
    | write => exact absurd (hj.eof k (.inl hreader)) (hopen k)
    | returned => exact absurd (hj.eof k (.inr hreader)) (hopen k)

/-- Once the write ends are closed, a reader that has not returned can take a step. -/
theorem canStep_of_reader (hcap : ∀ p, 64 ≤ cap p) (hp : Spawns c s) (hj : Joins c s) (ho : Outputs s)
    (hclosed : s.main.Closed t) (hspawned : ∀ i, s.main.Spawned i) (hcollected : ¬ s.main.Collected t)
    (ht : 1 ≤ t ∧ t ≤ c.numProcs) (hne : (s.reader t).phase ≠ .returned) : CanStep c cap s := by
  cases hphase : (s.reader t).phase with
  | unborn => exact absurd hphase ((hp.reader t).mpr ⟨ht, hspawned _⟩)
  | returned => exact absurd hphase hne
  | write => exact ⟨_, step_of_digest hcap hj ho ht hcollected hphase⟩
  | read =>
    refine ⟨_, step_of_read hj ht hphase (.inr (Bool.eq_false_iff.mpr fun hopen => ?_))⟩
    exact ((hj.fds _).mp hopen).2 t rfl hclosed

theorem stepMain_joinWriters {i : ℕ} (hm : s.main = .joinWriters i) (h : i ≤ c.numProcs * 2 → i % 2 = 0 → s.Returned i) :
    ∃ s', stepMain c s = some s' := by
  simp only [stepMain, hm]
  rcases em (i ≤ c.numProcs * 2) with hi | hi
  · exact ⟨_, by rw [if_pos hi, if_pos (h hi)]⟩
  · exact ⟨_, by rw [if_neg hi]⟩

theorem stepMain_joinReaders {i : ℕ} (hm : s.main = .joinReaders i) (h : i ≤ c.numProcs * 2 → i % 2 = 1 → s.Returned i) :
    ∃ s', stepMain c s = some s' := by
  simp only [stepMain, hm]
  rcases em (i ≤ c.numProcs * 2) with hi | hi
  · exact ⟨_, by rw [if_pos hi, if_pos (h hi)]⟩
  · exact ⟨_, by rw [if_neg hi]⟩

/-- The program never gets stuck before `main` has printed its result. -/
theorem canStep_of_reach (hcap : ∀ p, 64 ≤ cap p) (h : (machine c cap).Reachable s)
    (hm : ¬ ∃ mix_sig, s.main = .printed mix_sig) : CanStep c cap s := by
  have hp := spawns_of_reach h
  have hj := joins_of_reach h
  have hpos := pos_of_reach h
  cases hmain : s.main with
  | spawning i => exact ⟨.main, by simp only [step, stepMain, hmain]; split <;> exact ⟨_, rfl⟩⟩
  | joinWriters i =>
    rw [hmain] at hpos
    by_contra hstuck
    obtain ⟨s', hs⟩ := stepMain_joinWriters (c := c) hmain fun hi heven => by
      rw [State.Returned, if_neg (by omega)]
      by_contra hne
      have hpos : 1 ≤ i := hpos
      exact hstuck (canStep_of_writer hcap hp hj (fun k => by rw [hmain]; exact id) (fun k => by rw [hmain]; trivial)
        (by omega) hne)
    exact hstuck ⟨.main, s', hs⟩
  | closing i => exact ⟨.main, by simp only [step, stepMain, hmain]; split <;> exact ⟨_, rfl⟩⟩
  | joinReaders i =>
    by_contra hstuck
    obtain ⟨s', hs⟩ := stepMain_joinReaders (c := c) hmain fun hi hodd => by
      rw [State.Returned, if_pos hodd]
      by_contra hne
      exact hstuck (canStep_of_reader hcap hp hj (outputs_of_reach h) (by rw [hmain]; trivial)
        (fun k => by rw [hmain]; trivial) (by rw [hmain]; exact id) (by omega) hne)
    exact hstuck ⟨.main, s', hs⟩
  | readOut i mix_sig =>
    refine ⟨.main, ?_⟩
    rcases em (i < c.numProcs) with hi | hi
    · obtain ⟨-, hread⟩ := readOutput_of_reach h hmain hi
      simp [step, stepMain, hmain, hi, hread]
    · simp [step, stepMain, hmain, hi]
  | printed mix_sig => exact absurd ⟨mix_sig, hmain⟩ hm
  | failed => exact absurd hmain (main_ne_failed h)

/-! ### Every step of the pipes is made, or comes closer -/

/-- Some thread can take a step that does not show. -/
def Quiet (c : Config) (cap : Pipe → ℕ) (s : State) : Prop := ∃ a s', step c cap a s = some s' ∧ s'.pipes = s.pipes

theorem quiet_of_main (hp : Spawns c s) (h : ∃ u, stepMain c s = some u) : Quiet c cap s := by
  obtain ⟨u, hs⟩ := h
  exact ⟨.main, u, hs, (mainStep_of_step hs).quiet hp⟩

theorem quiet_of_leave (hp : (s.writer t).phase = .loop) (hi : ¬ (s.writer t).i < c.maxLoop) : Quiet c cap s :=
  ⟨.writer t, _, step_of_leave hp hi, pipes_setWriter_eq (by simp only [Writer.pipes, hp])⟩

theorem quiet_of_not_spawned {k : ℕ} (hp : Spawns c s) (h : ¬ s.main.Spawned k) : Quiet c cap s := by
  cases hm : s.main with
  | spawning i => exact quiet_of_main hp (by simp only [stepMain, hm]; split <;> exact ⟨_, rfl⟩)
  | _ =>
    rw [hm] at h
    exact absurd trivial h

/-- While a write end is open after the last message, its close comes closer. -/
theorem quiet_of_not_closed (hp : Spawns c s) (hsent : s.pipes.Sent c) (hpos : s.main.Pos) (h : ¬ s.main.Closed t) :
    Quiet c cap s := by
  cases hm : s.main with
  | spawning i => exact quiet_of_not_spawned (k := i) hp (by rw [hm]; exact lt_irrefl i)
  | closing i => exact quiet_of_main hp (by simp only [stepMain, hm]; split <;> exact ⟨_, rfl⟩)
  | joinWriters i =>
    rw [hm] at hpos
    have hpos : 1 ≤ i := hpos
    rcases em (i ≤ c.numProcs * 2 ∧ i % 2 = 0 ∧ (s.writer ((i + 1) / 2)).phase ≠ .returned) with ⟨hi, heven, hne⟩ | hnot
    · have hborn := (hp.writer ((i + 1) / 2)).mpr ⟨by omega, by rw [hm]; trivial⟩
      have hloop : (s.writer ((i + 1) / 2)).phase = .loop := by
        cases hphase : (s.writer ((i + 1) / 2)).phase with
        | unborn => exact absurd hphase hborn
        | loop => rfl
        | returned => exact absurd hphase hne
      have hall : (s.pipes.writer ((i + 1) / 2)).i = c.maxLoop := hsent _ (by omega) (by omega)
      rw [pipes_writer hloop] at hall
      exact quiet_of_leave hloop hall.not_lt
    · refine quiet_of_main hp (stepMain_joinWriters hm fun hi heven => ?_)
      rw [State.Returned, if_neg (by omega)]
      by_contra hne
      exact hnot ⟨hi, heven, hne⟩
  | _ =>
    rw [hm] at h
    exact absurd trivial h

theorem follow_write {y : Pipes.State} (hp : Spawns c s) (hj : Joins c s) (hc : ∀ u, (s.writer u).Counted c)
    (hy : Pipes.stepWrite c (capacity cap) t s.pipes = some y) :
    Quiet c cap s ∨ ∃ s', step c cap (.writer t) s = some s' ∧ s'.pipes = y := by
  obtain ⟨⟨ht, hi, hroom⟩, -⟩ := Option.ite_none_right_eq_some.mp hy
  cases hphase : (s.writer t).phase with
  | unborn =>
    refine .inl (quiet_of_not_spawned (k := 2 * t) hp fun hspawned => ?_)
    exact (hp.writer t).mpr ⟨ht, hspawned⟩ hphase
  | loop =>
    rw [pipes_writer hphase] at hi hroom
    -- `main` has not joined this writer, so it has closed nothing yet.
    have hopen : ∀ k, ¬ s.main.Closed k := fun k hclosed => by
      have hsent := sent_of_closed hj hc hclosed t ht.1 ht.2
      rw [pipes_writer hphase] at hsent
      exact hi.ne hsent
    have hk := Forkpipe.target_mem (by omega) (fill (s.writer t).num).2 (c := c)
    obtain ⟨s', hs⟩ : ∃ s', step c cap (.writer t) s = some s' := step_of_loop hj hk (hopen _) hphase hi rfl hroom
    refine .inr ⟨s', hs, ?_⟩
    cases writerStep_of_step hs with
    | write _ _ hk hroom => exact Option.some.inj ((pipes_write ht hphase hi hk hroom).symm.trans hy)
    | leave _ hnot => exact absurd hi hnot
  | returned =>
    have hret := (hc t).returned hphase
    simp only [State.pipes, Writer.pipes, hphase, hret, lt_irrefl] at hi

/-- What a reader does that has not seen the end of its stream. -/
theorem follow_reader (hp : Spawns c s) (ht : 1 ≤ t ∧ t ≤ c.numProcs) (hdone : (s.pipes.reader t).done = false) :
    Quiet c cap s ∨ (s.reader t).phase = .read := by
  cases hphase : (s.reader t).phase with
  | unborn =>
    refine .inl (quiet_of_not_spawned (k := 2 * t - 1) hp fun hspawned => ?_)
    exact (hp.reader t).mpr ⟨ht, hspawned⟩ hphase
  | read => exact .inr rfl
  | write | returned => simp [State.pipes, Reader.pipes, hphase] at hdone

theorem follow_read {y : Pipes.State} (hp : Spawns c s) (hj : Joins c s) (hy : Pipes.stepRead c t s.pipes = some y) :
    Quiet c cap s ∨ ∃ s', step c cap (.reader t) s = some s' ∧ s'.pipes = y := by
  obtain ⟨⟨ht, hdone, hb⟩, -⟩ := Option.ite_none_right_eq_some.mp hy
  refine (follow_reader hp ht hdone).imp_right fun hphase => ?_
  obtain ⟨s', hs⟩ : ∃ s', step c cap (.reader t) s = some s' := step_of_read hj ht hphase (.inl hb)
  refine ⟨s', hs, ?_⟩
  cases readerStep_of_step hs with
  | read => exact Option.some.inj ((pipes_read ht hphase hb).symm.trans hy)
  | eof _ hnil => exact absurd hnil hb
  | write hq => cases hphase.symm.trans hq

theorem follow_eof {y : Pipes.State} (hp : Spawns c s) (hj : Joins c s) (hpos : s.main.Pos)
    (hy : Pipes.stepEof c t s.pipes = some y) :
    Quiet c cap s ∨ ∃ s', step c cap (.reader t) s = some s' ∧ s'.pipes = y := by
  obtain ⟨⟨ht, hdone, hb, hsent⟩, -⟩ := Option.ite_none_right_eq_some.mp hy
  rcases (follow_reader hp ht hdone : Quiet c cap s ∨ _) with hquiet | hphase
  · exact .inl hquiet
  rcases em (s.main.Closed t) with hclosed | hopen
  swap
  · exact .inl (quiet_of_not_closed hp hsent hpos hopen)
  have ho : s.fds (inputs t .wr) = false := Bool.eq_false_iff.mpr fun hopen => ((hj.fds _).mp hopen).2 t rfl hclosed
  obtain ⟨s', hs⟩ : ∃ s', step c cap (.reader t) s = some s' := step_of_read hj ht hphase (.inr ho)
  refine .inr ⟨s', hs, ?_⟩
  cases readerStep_of_step hs with
  | eof => exact Option.some.inj ((pipes_eof ht hphase hb hsent).symm.trans hy)
  | read _ hne => exact absurd hb hne
  | write hq => cases hphase.symm.trans hq

theorem follow {b : Pipes.Move} {y : Pipes.State} (hr : (machine c cap).Reachable s)
    (hy : Pipes.step c (capacity cap) b s.pipes = some y) :
    ∃ a s', step c cap a s = some s' ∧ (s'.pipes = y ∨ s'.pipes = s.pipes) := by
  have hp := spawns_of_reach hr
  have hj := joins_of_reach hr
  have hmove : Quiet c cap s ∨ ∃ a s', step c cap a s = some s' ∧ s'.pipes = y := by
    cases b with
    | write t => exact (follow_write hp hj (counted_of_reach hr) hy).imp_right fun h => ⟨_, h⟩
    | read t => exact (follow_read hp hj hy).imp_right fun h => ⟨_, h⟩
    | eof t => exact (follow_eof hp hj (pos_of_reach hr) hy).imp_right fun h => ⟨_, h⟩
  rcases hmove with ⟨a, s', hs, hsame⟩ | ⟨a, s', hs, hview⟩
  · exact ⟨a, s', hs, .inr hsame⟩
  · exact ⟨a, s', hs, .inl hview⟩

/-! ### What is left to do -/

/-- The steps that a reader has left, apart from reads that return something. -/
def readerLeft (r : Reader) : ℕ :=
  match r.phase with
  | .unborn | .read => 2
  | .write => 1
  | .returned => 0

/-- The steps that a writer has left, and for each message also one for each of its 64 bytes, which pays for the read
    that takes it. -/
def writerLeft (c : Config) (w : Writer) : ℕ :=
  match w.phase with
  | .unborn | .loop => 65 * (c.maxLoop - w.i) + 1
  | .returned => 0

def mainLeft (c : Config) : MainPc → ℕ
  | .spawning i => (c.numProcs * 2 + 1 - i) + c.numProcs * 6 + 5
  | .joinWriters i => (c.numProcs * 2 + 1 - i) + c.numProcs * 4 + 4
  | .closing i => (c.numProcs + 1 - i) + c.numProcs * 3 + 3
  | .joinReaders i => (c.numProcs * 2 + 1 - i) + c.numProcs + 2
  | .readOut i _ => c.numProcs - i + 1
  | .printed _ | .failed => 0

def left (c : Config) (s : State) : ℕ :=
  mainLeft c s.main + ∑ t ∈ Finset.Icc 1 c.numProcs, readerLeft (s.reader t) +
    ∑ t ∈ Finset.Icc 1 c.numProcs, writerLeft c (s.writer t) +
    ∑ t ∈ Finset.Icc 1 c.numProcs, (s.buf (.inputs t)).length

theorem ReaderStep.left_lt (hr : ReaderStep t s s') (ht : 1 ≤ t ∧ t ≤ c.numProcs) : left c s' < left c s := by
  have hmem : t ∈ Finset.Icc 1 c.numProcs := Finset.mem_Icc.mpr ht
  have hf := hr.frame
  have hbuf : ∀ u, u ≠ t → s'.buf (.inputs u) = s.buf (.inputs u) := fun u hu => by
    cases hr <;> simp [hu]
  have hreaders := sum_change (f := fun u => readerLeft (s.reader u)) (g := fun u => readerLeft (s'.reader u))
    hmem fun u hu => by rw [hf.reader u hu]
  have hbytes := sum_change (f := fun u => (s.buf (.inputs u)).length) (g := fun u => (s'.buf (.inputs u)).length)
    hmem fun u hu => by rw [hbuf u hu]
  have hlt : readerLeft (s'.reader t) + (s'.buf (.inputs t)).length <
      readerLeft (s.reader t) + (s.buf (.inputs t)).length := by
    cases hr with
    | read hp hb =>
      have := List.length_pos_iff.mpr hb
      simp [readerLeft, hp]
      omega
    | eof hp | write hp => simp [readerLeft, hp]
  unfold left
  rw [hf.main, hf.writer]
  omega

theorem WriterStep.left_lt (hw : WriterStep c cap t s s') (ht : 1 ≤ t ∧ t ≤ c.numProcs) : left c s' < left c s := by
  have hmem : t ∈ Finset.Icc 1 c.numProcs := Finset.mem_Icc.mpr ht
  have hf := hw.frame
  have hwriters := sum_change (f := fun u => writerLeft c (s.writer u)) (g := fun u => writerLeft c (s'.writer u))
    hmem fun u hu => by rw [hf.writer u hu]
  unfold left
  rw [hf.main, hf.reader]
  cases hw with
  | @write k hp hi hk =>
    have hkmem : k ∈ Finset.Icc 1 c.numProcs := Finset.mem_Icc.mpr (hk ▸ Forkpipe.target_mem (by omega) _)
    have hbytes := sum_change (f := fun u => (s.buf (.inputs u)).length)
      (g := fun u => (Function.update s.buf (.inputs k) (s.buf (.inputs k) ++ (message (s.writer t).num).bytes)
        (.inputs u)).length) hkmem fun u hu => by simp [hu]
    simp only [State.setWriter_writer, State.setBuf_writer, State.setWriter_buf, State.setBuf_buf, Function.update_self,
      List.length_append, Forkpipe.Message.length_bytes, writerLeft, hp] at hwriters hbytes ⊢
    omega
  | leave hp =>
    simp only [State.setWriter_writer, State.setWriter_buf, Function.update_self, writerLeft, hp] at hwriters ⊢
    omega

/-- A step that takes one of the steps of `main` and leaves everybody else with what they had. -/
theorem left_lt_of_main (hm : mainLeft c s'.main < mainLeft c s.main)
    (hr : ∀ u, readerLeft (s'.reader u) = readerLeft (s.reader u))
    (hw : ∀ u, writerLeft c (s'.writer u) = writerLeft c (s.writer u))
    (hb : ∀ u, s'.buf (.inputs u) = s.buf (.inputs u)) : left c s' < left c s := by
  simp only [left, hr, hw, hb]
  omega

theorem MainStep.left_lt (hm : MainStep c s s') (hp : Spawns c s) (hc : ∀ t, (s.writer t).Counted c) :
    left c s' < left c s := by
  cases hm with
  | @spawnReader i t hm hi ht =>
    have hnot := hp.reader_unborn hm hi
    refine left_lt_of_main ?_ (fun u => ?_) (fun _ => rfl) fun _ => rfl
    · simp only [State.setMain_main, mainLeft, hm]
      omega
    · rcases eq_or_ne u t with rfl | hne
      · simp [readerLeft, hnot]
      · simp [hne]
  | @spawnWriter i t hm hi ht =>
    have hnot := hp.writer_unborn hm hi
    refine left_lt_of_main ?_ (fun _ => rfl) (fun u => ?_) fun _ => rfl
    · simp only [State.setMain_main, mainLeft, hm]
      omega
    · rcases eq_or_ne u t with rfl | hne
      · simp [writerLeft, hnot, (hc u).unborn hnot]
      · simp [hne]
  | spawned hm hi | joinWriter hm hi | writersJoined hm hi | close hm hi | closed hm hi | joinReader hm hi
  | readersJoined hm hi | print hm hi =>
    refine left_lt_of_main ?_ (fun _ => rfl) (fun _ => rfl) fun _ => rfl
    simp only [State.setMain_main, mainLeft, hm]
    omega
  | collect hm hi | fail hm hi =>
    refine left_lt_of_main ?_ (fun _ => rfl) (fun _ => rfl) fun u => by simp
    simp only [State.setMain_main, mainLeft, hm]
    omega

theorem left_lt_of_step {a : Move} (h : (machine c cap).Reachable s) (hs : step c cap a s = some s') :
    left c s' < left c s := by
  have hp := spawns_of_reach h
  exact keeps_of_steps (I := fun s' => left c s' < left c s)
    (fun t hr => hr.left_lt ((hp.reader t).mp hr.born.1).1) (fun t hw => hw.left_lt ((hp.writer t).mp hw.born.1).1)
    (fun hm => hm.left_lt hp (counted_of_reach h)) hs

/-- racey-clonepipe does what the pipes do. -/
theorem implements : Implements (machine c cap) (Pipes.machine c (capacity cap)) State.pipes (left c) where
  init := rfl
  sim _ _ _ := sim
  follow _ _ _ := follow
  down _ _ _ := left_lt_of_step

/-! ### The result -/

/-- `main` has joined every thread. -/
def MainPc.Over : MainPc → Prop
  | .readOut _ _ | .printed _ | .failed => True
  | _ => False

theorem returned_of_over (hj : Joins c s) (h : s.main.Over) (ht : 1 ≤ t ∧ t ≤ c.numProcs) :
    (s.reader t).phase = .returned ∧ (s.writer t).phase = .returned := by
  constructor
  · refine hj.reader t ht ?_
    cases hm : s.main <;> simp [hm, MainPc.Over, MainPc.JoinedReader] at h ⊢
  · refine hj.writer t ht ?_
    cases hm : s.main <;> simp [hm, MainPc.Over, MainPc.JoinedWriter] at h ⊢

theorem complete_of_over (hj : Joins c s) (hc : ∀ u, (s.writer u).Counted c) (h : s.main.Over) :
    Pipes.Complete c s.pipes := by
  refine ⟨fun t h1 hn => ?_, fun u h1 hn => ?_⟩
  · simp only [State.pipes, Reader.pipes, (returned_of_over hj h ⟨h1, hn⟩).1]
  · have hret := (returned_of_over hj h ⟨h1, hn⟩).2
    simp only [State.pipes, Writer.pipes, hret, (hc u).returned hret]

/-- What `main` has in `mix_sig`. -/
structure Result (c : Config) (s : State) : Prop where
  folded : ∀ i mix_sig, s.main = .readOut i mix_sig → Pipes.Folded c (fun t => (s.pipes.reader t).num) i mix_sig
  printed : ∀ mix_sig, s.main = .printed mix_sig →
    Forkpipe.mixSig c.numProcs (fun t => (s.pipes.reader t).num) = some mix_sig

/-- A step of a thread that has not been joined. -/
theorem Result.thread (hm : s'.main = s.main) (hnot : ¬ s.main.Over) : Result c s' where
  folded i mix_sig hp := absurd trivial (by rwa [← hm, hp] at hnot)
  printed mix_sig hp := absurd trivial (by rwa [← hm, hp] at hnot)

/-- A pass of the loop over the output pipes. -/
theorem stepMain_readOut {i : ℕ} {mix_sig : ℤ} (h : (machine c cap).Reachable s) (hm : s.main = .readOut i mix_sig)
    (hi : i < c.numProcs) (hs : stepMain c s = some s') : ∃ mix_sig',
      collectOne mix_sig ⟨4, (s.pipes.reader i).num⟩ = some mix_sig' ∧
      s' = (s.setBuf (.output i) []).setMain (.readOut (i + 1) mix_sig') := by
  obtain ⟨hret, hread⟩ := readOutput_of_reach h hm hi
  have hnum : (s.pipes.reader i).num = (s.reader i).num := by simp only [State.pipes, Reader.pipes, hret]
  simp only [stepMain, hm, if_pos hi, hread, Option.map_some, Option.some.injEq] at hs
  rw [hnum]
  exact ⟨_, rfl, hs.symm⟩

theorem result_of_main (h : Result c s) (hr : (machine c cap).Reachable s) (hs : stepMain c s = some s') :
    Result c s' := by
  have hview := (mainStep_of_step hs).quiet (spawns_of_reach hr)
  have hm := mainStep_of_step hs
  cases hm with
  | readersJoined =>
    refine ⟨fun _ _ hp => ?_, fun _ hp => (by cases hp)⟩
    cases hp
    exact ⟨le_rfl, .inl rfl, Pipes.mixSig_one _⟩
  | collect hm hi | fail hm hi =>
    obtain ⟨mix_sig', hcollect, heq⟩ := stepMain_readOut hr hm hi hs
    rw [heq] at hview ⊢
    refine ⟨fun _ _ hp => ?_, fun _ hp => (by cases hp)⟩
    cases hp
    rw [hview]
    exact (h.folded _ _ hm).next hi hcollect
  | print hm hi =>
    refine ⟨fun _ _ hp => (by cases hp), fun _ hp => ?_⟩
    cases hp
    exact (h.folded _ _ hm).done hi
  | _ => exact ⟨fun _ _ hp => (by cases hp), fun _ hp => (by cases hp)⟩

theorem result_of_reach (h : (machine c cap).Reachable s) : Result c s := by
  induction h with
  | init => exact ⟨fun _ _ hp => (by cases hp), fun _ hp => (by cases hp)⟩
  | @step s s' a hr _ hs ih =>
    have hp := spawns_of_reach hr
    have hj := joins_of_reach hr
    cases a with
    | main => exact result_of_main ih hr hs
    | reader t =>
      have hstep := readerStep_of_step hs
      refine .thread hstep.frame.main fun hover => ?_
      have hret := (returned_of_over hj hover ((hp.reader t).mp hstep.born.1).1).1
      cases hstep with
      | read hq | eof hq | write hq => cases hret.symm.trans hq
    | writer t =>
      have hstep := writerStep_of_step hs
      refine .thread hstep.frame.main fun hover => ?_
      have hret := (returned_of_over hj hover ((hp.writer t).mp hstep.born.1).1).2
      cases hstep with
      | write hq | leave hq => cases hret.symm.trans hq

/-- What racey-clonepipe can print is what can come out of the pipes. -/
theorem outcomes_eq (hcap : ∀ p, 64 ≤ cap p) : outcomes c cap = Pipes.outcomes c (capacity cap) := by
  refine Pipes.outcomes_of_implements implements (fun s hs hnot => canStep_of_reach hcap hs hnot) fun s v hs hv => ?_
  exact ⟨complete_of_over (joins_of_reach hs) (counted_of_reach hs) (by rw [hv]; trivial), (result_of_reach hs).printed v hv⟩

/-- The two programs have the same outcomes: threads or processes, and whether `main` closes the write ends after its
    joins or every process its own, makes no difference to what can be printed. -/
theorem outcomes_eq_forkpipe (hcap : ∀ p, 64 ≤ cap p) : outcomes c cap = Forkpipe.outcomes c cap := by
  rw [outcomes_eq hcap, Forkpipe.outcomes_eq hcap]

/-- Two readers and two writers, with one message each: a value that both programs can print. -/
theorem outcomes_eq_forkpipe_two :
    65156983 ∈ outcomes ⟨2, 1⟩ (fun _ => 64) ∧ 65156983 ∈ Forkpipe.outcomes ⟨2, 1⟩ (fun _ => 64) := by
  have hmem : 65156983 ∈ outcomes ⟨2, 1⟩ (fun _ => 64) := by
    obtain ⟨s, hr, hp⟩ := exists_reachable (M := machine ⟨2, 1⟩ fun _ => 64) (p := fun s => decide (s.main = .printed 65156983))
      (List.replicate 5 .main ++ [.writer 1, .writer 1, .reader 1, .writer 2, .writer 2] ++ List.replicate 8 .main ++
        [.reader 1, .reader 1, .reader 2, .reader 2, .reader 2] ++ List.replicate 7 .main) (by decide +kernel)
    exact ⟨s, hr, of_decide_eq_true hp⟩
  exact ⟨hmem, outcomes_eq_forkpipe (fun _ => le_rfl) ▸ hmem⟩

end Racey.Clonepipe
