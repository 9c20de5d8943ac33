import Mathlib.Algebra.BigOperators.Ring.List
import Racey.Lib.Interleave
import Racey.PipesRecord
import Racey.Theorems.ClonepipePipes

/-! What is sent to a reader is the same in every run but for its order. The order of the writers at a pipe, and how much each
    read of it returned, determine the digest of its reader, in racey-forkpipe and racey-clonepipe alike. -/

namespace Racey.Pipes
open Forkpipe (digest fill message mixInt target Message)
open Machine

variable {c : Config} {cap : ℕ → ℕ} {x x' : State} {o o' : Recording} {t u k : ℕ}

/-! ### What a writer sends -/

/-- `num` of writer `t` after `i` messages. -/
def sentNum (t : ℕ) : ℕ → ℤ
  | 0 => signed (sigInit t)
  | i + 1 => mixInt (fill (sentNum t i)).2 64

/-- The pipe that message `i` of writer `t` is for. -/
def sentTo (c : Config) (t i : ℕ) : ℕ := target c (fill (sentNum t i)).2

/-- Those of the first `i` messages of writer `t` that are for pipe `k`. -/
def sends (c : Config) (t k i : ℕ) : List Message :=
  ((List.range i).filter fun j => sentTo c t j = k).map fun j => message (sentNum t j)

theorem sends_succ (c : Config) (t k i : ℕ) :
    sends c t k (i + 1) = if sentTo c t i = k then sends c t k i ++ [message (sentNum t i)] else sends c t k i := by
  rw [sends, List.range_succ, List.filter_append, List.map_append]
  by_cases hk : sentTo c t i = k
  · simp [hk, sends]
  · simp [hk, sends]

theorem length_bytes (ms : List Message) : (ms.flatMap Message.bytes).length = ms.length * 64 :=
  Frames.length_flatMap Forkpipe.Message.length_bytes ms

/-! ### What a recording says -/

/-- The messages of pipe `k` with their writers, those that each read has returned, and those that are still to be read. -/
structure Traffic (c : Config) (x : State) (o : Recording) (k : ℕ) (tagged : List (ℕ × Message)) (chunks : List (List Message))
    (rest : List Message) : Prop where
  writers : tagged.map Prod.fst = o.writers k
  of : ∀ t, Interleave.of t tagged = sends c t k (x.writer t).i
  sizes : chunks.map (fun ms => (ms.flatMap Message.bytes).length) = o.sizes k
  num : (x.reader k).num = chunks.foldl (fun num ms => digest num (ms.flatMap Message.bytes)) (signed (sigInit k))
  sent : tagged.map Prod.snd = chunks.flatten ++ rest
  buf : x.buf k = rest.flatMap Message.bytes
  whole : ∃ l, (∀ ms ∈ l, ms.length = 1 ∨ ms.length = 2) ∧ chunks = if (x.reader k).done then l ++ [[]] else l
  done : (x.reader k).done = true → rest = [] ∧ x.Sent c

structure Recorded (c : Config) (x : State) (o : Recording) : Prop where
  num : ∀ t, (x.writer t).num = sentNum t (x.writer t).i
  outside : ∀ t, ¬ (1 ≤ t ∧ t ≤ c.numProcs) → (x.writer t).i = 0
  traffic : ∀ k, ∃ tagged chunks rest, Traffic c x o k tagged chunks rest

theorem recorded_start : Recorded c start (recorder c).start where
  num _ := rfl
  outside _ _ := rfl
  traffic _ := ⟨[], [], [], rfl, fun _ => rfl, rfl, rfl, rfl, rfl, ⟨[], nofun, rfl⟩, nofun⟩

/-- Nothing happens at pipe `k`. -/
theorem Traffic.same {tagged : List (ℕ × Message)} {chunks : List (List Message)} {rest : List Message}
    (h : Traffic c x o k tagged chunks rest) (hw : o'.writers k = o.writers k) (hs : o'.sizes k = o.sizes k)
    (hsends : ∀ t, sends c t k (x'.writer t).i = sends c t k (x.writer t).i) (hr : x'.reader k = x.reader k)
    (hb : x'.buf k = x.buf k) (hdone : (x.reader k).done = true → x.Sent c → x'.Sent c) :
    Traffic c x' o' k tagged chunks rest where
  writers := h.writers.trans hw.symm
  of t := (h.of t).trans (hsends t).symm
  sizes := h.sizes.trans hs.symm
  num := by rw [hr, h.num]
  sent := h.sent
  buf := hb.trans h.buf
  whole := by rw [hr]; exact h.whole
  done hx := by
    rw [hr] at hx
    obtain ⟨hrest, hsent⟩ := h.done hx
    exact ⟨hrest, hdone hx hsent⟩

/-- A message of writer `t` comes into pipe `k`. -/
theorem Traffic.write {tagged : List (ℕ × Message)} {chunks : List (List Message)} {rest : List Message} {ms : Message}
    (h : Traffic c x o k tagged chunks rest)
    (hsends : ∀ u, sends c u k (x'.writer u).i = if t = u then sends c u k (x.writer u).i ++ [ms] else sends c u k (x.writer u).i)
    (hr : x'.reader k = x.reader k) (hb : x'.buf k = x.buf k ++ ms.bytes) (hlive : ¬ x.Sent c) :
    Traffic c x' (o.write k t) k (tagged ++ [(t, ms)]) chunks (rest ++ [ms]) where
  writers := by simp only [Recording.write, List.map_append, List.map_cons, List.map_nil, h.writers, Function.update_self]
  of u := by rw [Interleave.of_snoc, h.of, hsends]
  sizes := h.sizes
  num := by rw [hr, h.num]
  sent := by simp only [List.map_append, List.map_cons, List.map_nil, h.sent, List.append_assoc]
  buf := by rw [hb, h.buf, List.flatMap_append, List.flatMap_singleton]
  whole := by rw [hr]; exact h.whole
  done hx := absurd (h.done (hr ▸ hx)).2 hlive

/-- Writer `t` sends its next message. -/
theorem Recorded.write (h : Recorded c x o) (ht : 1 ≤ t ∧ t ≤ c.numProcs) (hi : (x.writer t).i < c.maxLoop)
    (hk : k = target c (fill (x.writer t).num).2) :
    Recorded c { x with
      writer := Function.update x.writer t ⟨mixInt (fill (x.writer t).num).2 (message (x.writer t).num).bytes.length,
        (x.writer t).i + 1⟩
      buf := Function.update x.buf k (x.buf k ++ (message (x.writer t).num).bytes) } (o.write k t) := by
  have hnum := h.num t
  have hto : sentTo c t (x.writer t).i = k := by rw [sentTo, ← hnum, hk]
  -- While a message is missing no reader is done.
  have hlive : ¬ x.Sent c := fun hsent => hi.ne (hsent t ht.1 ht.2)
  refine ⟨fun u => ?_, fun u hu => ?_, fun j => ?_⟩
  · rcases eq_or_ne u t with rfl | hne
    · simp only [Function.update_self, sentNum, ← hnum, Forkpipe.Message.length_bytes]
      rfl
    · simp only [Function.update_of_ne hne]
      exact h.num u
  · have hne : u ≠ t := fun heq => hu (heq ▸ ht)
    simp only [Function.update_of_ne hne]
    exact h.outside u hu
  · obtain ⟨tagged, chunks, rest, hT⟩ := h.traffic j
    rcases eq_or_ne j k with rfl | hj
    · refine ⟨_, _, _, hT.write (fun u => ?_) rfl (Function.update_self ..) hlive⟩
      rcases eq_or_ne u t with rfl | hne
      · simp only [Function.update_self]
        rw [sends_succ, if_pos hto, if_true, ← hnum]
      · simp only [Function.update_of_ne hne]
        rw [if_neg hne.symm]
    · refine ⟨tagged, chunks, rest, hT.same (Function.update_of_ne hj ..) rfl (fun u => ?_) rfl (Function.update_of_ne hj ..)
        fun _ hsent => absurd hsent hlive⟩
      rcases eq_or_ne u t with rfl | hne
      · simp only [Function.update_self]
        rw [sends_succ, if_neg fun h => hj (h.symm.trans hto)]
      · simp only [Function.update_of_ne hne]

theorem take_bytes (ms : List Message) : (ms.flatMap Message.bytes).take 128 = (ms.take 2).flatMap Message.bytes :=
  Frames.take_flatMap Forkpipe.Message.length_bytes ms 2

theorem drop_bytes (ms : List Message) : (ms.flatMap Message.bytes).drop 128 = (ms.drop 2).flatMap Message.bytes :=
  Frames.drop_flatMap Forkpipe.Message.length_bytes ms 2

theorem eq_nil_of_bytes {ms : List Message} (h : ms.flatMap Message.bytes = []) : ms = [] := by
  have hlen := length_bytes ms
  rw [h, List.length_nil] at hlen
  exact List.length_eq_zero_iff.mp (by omega)

/-- A read of reader `t`, of as much as is there or of 128 bytes. -/
theorem Recorded.read (h : Recorded c x o) (hlive : (x.reader t).done = false) (hb : x.buf t ≠ []) :
    Recorded c { x with
      reader := Function.update x.reader t ⟨digest (x.reader t).num ((x.buf t).take 128), false⟩
      buf := Function.update x.buf t ((x.buf t).drop 128) } (o.read t ((x.buf t).take 128).length) := by
  refine ⟨h.num, h.outside, fun j => ?_⟩
  obtain ⟨tagged, chunks, rest, hT⟩ := h.traffic j
  rcases eq_or_ne j t with rfl | hj
  · have hrest : rest ≠ [] := fun hnil => hb (by rw [hT.buf, hnil]; rfl)
    obtain ⟨l, hl, hchunks⟩ := hT.whole
    rw [hlive, if_neg (by decide)] at hchunks
    subst hchunks
    refine ⟨tagged, chunks ++ [rest.take 2], rest.drop 2, hT.writers, hT.of, ?_, ?_, ?_, ?_, ?_, ?_⟩
    · simp [Recording.read, ← hT.sizes, hT.buf, take_bytes]
    · simp [hT.buf, take_bytes, hT.num]
    · simp [hT.sent]
    · simp [hT.buf, drop_bytes]
    · refine ⟨chunks ++ [rest.take 2], fun ms hms => ?_, by simp⟩
      rcases List.mem_append.mp hms with hms | hms
      · exact hl ms hms
      · have hpos := List.length_pos_iff.mpr hrest
        rw [List.mem_singleton.mp hms, List.length_take]
        omega
    · simp
  · exact ⟨tagged, chunks, rest, hT.same rfl (by simp [Recording.read, hj]) (fun _ => rfl) (by simp [hj]) (by simp [hj])
      fun _ hsent => hsent⟩

theorem Recorded.eof (h : Recorded c x o) (hlive : (x.reader t).done = false) (hb : x.buf t = []) (hsent : x.Sent c) :
    Recorded c { x with reader := Function.update x.reader t ⟨digest (x.reader t).num [], true⟩ } (o.read t 0) := by
  refine ⟨h.num, h.outside, fun j => ?_⟩
  obtain ⟨tagged, chunks, rest, hT⟩ := h.traffic j
  rcases eq_or_ne j t with rfl | hj
  · obtain rfl : rest = [] := eq_nil_of_bytes (hT.buf.symm.trans hb)
    obtain ⟨l, hl, hchunks⟩ := hT.whole
    rw [hlive, if_neg (by decide)] at hchunks
    subst hchunks
    refine ⟨tagged, chunks ++ [[]], [], hT.writers, hT.of, ?_, ?_, ?_, hT.buf, ⟨chunks, hl, by simp⟩, fun _ => ⟨rfl, hsent⟩⟩
    · simp [Recording.read, ← hT.sizes]
    · simp [hT.num]
    · simp [hT.sent]
  · exact ⟨tagged, chunks, rest, hT.same rfl (by simp [Recording.read, hj]) (fun _ => rfl) (by simp [hj]) rfl
      fun _ hsent => hsent⟩

theorem Recorded.step {b : Move} (h : Recorded c x o) (hs : step c cap b x = some x') :
    Recorded c x' ((recorder c).note b x o) := by
  cases b with
  | write t =>
    obtain ⟨⟨ht, hi, -⟩, ⟨⟩⟩ := Option.ite_none_right_eq_some.mp (show stepWrite c cap t x = some x' from hs)
    exact h.write ht hi rfl
  | read t =>
    obtain ⟨⟨-, hlive, hb⟩, ⟨⟩⟩ := Option.ite_none_right_eq_some.mp (show stepRead c t x = some x' from hs)
    exact h.read hlive hb
  | eof t =>
    obtain ⟨⟨-, hlive, hb, hsent⟩, ⟨⟩⟩ := Option.ite_none_right_eq_some.mp (show stepEof c t x = some x' from hs)
    exact h.eof hlive hb hsent

theorem recorded_of_reachable (h : ((machine c cap).watch (recorder c)).Reachable (x, o)) : Recorded c x o := by
  refine h.invariant (I := fun p => Recorded c p.1 p.2) recorded_start fun a p q hp _ hs => ?_
  obtain ⟨hs, ho⟩ := watch_step_eq_some.mp hs
  rw [ho]
  exact hp.step hs

/-! ### What it determines -/

theorem Recorded.i_eq (h : Recorded c x o) (hsent : x.Sent c) (t : ℕ) :
    (x.writer t).i = if 1 ≤ t ∧ t ≤ c.numProcs then c.maxLoop else 0 := by
  split
  · rename_i ht
    exact hsent t ht.1 ht.2
  · rename_i ht
    exact h.outside t ht

/-- The order of the writers and the sizes of the reads determine what a reader computes. -/
theorem num_eq (h : Recorded c x o) (h' : Recorded c x' o') (hsent : x.Sent c) (hsent' : x'.Sent c)
    (hdone : (x.reader k).done = true) (hdone' : (x'.reader k).done = true) (hw : o.writers k = o'.writers k)
    (hs : o.sizes k = o'.sizes k) : (x.reader k).num = (x'.reader k).num := by
  obtain ⟨tagged, chunks, rest, hT⟩ := h.traffic k
  obtain ⟨tagged', chunks', rest', hT'⟩ := h'.traffic k
  obtain ⟨rfl, -⟩ := hT.done hdone
  obtain ⟨rfl, -⟩ := hT'.done hdone'
  have htagged : tagged = tagged' := by
    refine Interleave.eq_of_keys (by rw [hT.writers, hw, hT'.writers]) fun t => ?_
    rw [hT.of, hT'.of, h.i_eq hsent, h'.i_eq hsent']
  have hflat : chunks.flatten = chunks'.flatten := by
    have hsent := hT.sent
    have hsent' := hT'.sent
    rw [List.append_nil] at hsent hsent'
    rw [← hsent, ← hsent', htagged]
  have hlengths : chunks.map List.length = chunks'.map List.length := by
    have hsizes := hT.sizes.trans (hs.trans hT'.sizes.symm)
    simp only [length_bytes] at hsizes
    have hinj : Function.Injective fun n : ℕ => n * 64 := fun a b hab => Nat.eq_of_mul_eq_mul_right (by decide) hab
    have hmap : ∀ l : List (List Message), l.map (fun ms => ms.length * 64) = (l.map List.length).map fun n => n * 64 :=
      fun l => by rw [List.map_map]; rfl
    rw [hmap, hmap] at hsizes
    exact List.map_injective_iff.mpr hinj hsizes
  rw [hT.num, hT'.num, List.eq_iff_flatten_eq.mpr ⟨hflat, hlengths⟩]

/-- How many messages writer `t` has for pipe `k`. -/
def messages (c : Config) (t k : ℕ) : ℕ :=
  if 1 ≤ t ∧ t ≤ c.numProcs then ((List.range c.maxLoop).filter fun i => sentTo c t i = k).length else 0

theorem Recorded.count (h : Recorded c x o) (hsent : x.Sent c) (t k : ℕ) : (o.writers k).count t = messages c t k := by
  obtain ⟨tagged, chunks, rest, hT⟩ := h.traffic k
  rw [← hT.writers, ← Interleave.length_of, hT.of, h.i_eq hsent, messages, sends, List.length_map]
  split <;> rfl

/-- The reads of a reader that is done: whole messages, and then nothing. -/
theorem Recorded.sizes (h : Recorded c x o) (hdone : (x.reader k).done = true) :
    ∃ l, o.sizes k = l ++ [0] ∧ (∀ r ∈ l, r = 64 ∨ r = 128) ∧ l.sum = 64 * (o.writers k).length := by
  obtain ⟨tagged, chunks, rest, hT⟩ := h.traffic k
  obtain ⟨rfl, -⟩ := hT.done hdone
  obtain ⟨l, hl, hchunks⟩ := hT.whole
  rw [hdone, if_pos rfl] at hchunks
  refine ⟨l.map fun ms => ms.length * 64, ?_, fun r hr => ?_, ?_⟩
  · rw [← hT.sizes, hchunks, List.map_append]
    simp only [length_bytes]
    rfl
  · obtain ⟨ms, hms, rfl⟩ := List.mem_map.mp hr
    rcases hl ms hms with hone | htwo
    · exact .inl (by rw [hone])
    · exact .inr (by rw [htwo])
  · have hlength : (o.writers k).length = l.flatten.length := by
      have hsent := congrArg List.length hT.sent
      rw [List.append_nil, hchunks, List.flatten_append, List.length_map] at hsent
      rw [← hT.writers, List.length_map, hsent]
      simp
    rw [hlength, List.length_flatten, List.sum_map_mul_right]
    exact Nat.mul_comm _ _

end Racey.Pipes

/-! ### racey-forkpipe -/

namespace Racey.Forkpipe
open Machine

variable {c : Config} {cap : Pipe → ℕ} {s s' : State} {o : Pipes.Recording} {t : ℕ} {v : ℤ}

theorem note_reader (hp : (s.reader t).phase = .body .read) :
    (recorder c).note (.reader t) s o = o.read t ((s.buf (.inputs t)).take 128).length := by
  simp only [recorder, hp]

theorem note_reader_quiet (hp : (s.reader t).phase ≠ .body .read) : (recorder c).note (.reader t) s o = o := by
  simp only [recorder]

theorem note_writer (hp : (s.writer t).phase = .body .loop) (hi : (s.writer t).i < c.maxLoop) :
    (recorder c).note (.writer t) s o = o.write (target c (fill (s.writer t).num).2) t := by
  simp only [recorder, hp, if_pos hi]

theorem note_writer_quiet (hp : (s.writer t).phase = .body .loop → c.maxLoop ≤ (s.writer t).i) :
    (recorder c).note (.writer t) s o = o := by
  simp only [recorder]
  split
  · rename_i hloop
    rw [if_neg (not_lt.mpr (hp hloop))]
  · rfl

theorem record_reader (hf : Forks c s) (h : Table c s) (hc : ∀ u, (s.writer u).Counted c) (hr : ReaderStep c t s s') :
    (s'.pipes = s.pipes ∧ (recorder c).note (.reader t) s o = o) ∨
      ∃ b, Pipes.step c (capacity cap) b s.pipes = some s'.pipes ∧
        (recorder c).note (.reader t) s o = (Pipes.recorder c).note b s.pipes o := by
  have ht := ((hf.reader t).mp hr.born.1).1
  have hquiet := hr.quiet
  cases hr with
  | read hp hb => exact .inr ⟨.read t, pipes_read ht hp hb, note_reader hp⟩
  | eof hp hb ho =>
    refine .inr ⟨.eof t, pipes_eof ht hp hb (sent_of_ended (fun u => ended_of_not_isOpen hf h ht ho) hc), ?_⟩
    rw [note_reader hp, hb]
    rfl
  | closeUnused hp | enter hp | write hp | closeEnd hp | exit hp =>
    exact .inl ⟨hquiet (by simp [hp]), note_reader_quiet (by simp [hp])⟩

theorem record_writer (hf : Forks c s) (h : stepWriter c cap t s = some s') :
    (s'.pipes = s.pipes ∧ (recorder c).note (.writer t) s o = o) ∨
      ∃ b, Pipes.step c (capacity cap) b s.pipes = some s'.pipes ∧
        (recorder c).note (.writer t) s o = (Pipes.recorder c).note b s.pipes o := by
  have hw := writerStep_of_step h
  have ht := ((hf.writer t).mp hw.born.1).1
  rcases em ((s.writer t).phase = .body .loop ∧ (s.writer t).i < c.maxLoop) with ⟨hp, hi⟩ | hnot
  · obtain ⟨⟨-, -, hroom⟩, rfl⟩ := (stepWriter_write_eq_some hp hi rfl).mp h
    refine .inr ⟨.write t, pipes_write ht hp hi rfl hroom, ?_⟩
    rw [note_writer hp hi]
    simp only [Pipes.recorder, pipes_writer hp]
  · have hsent : (s.writer t).phase = .body .loop → c.maxLoop ≤ (s.writer t).i := fun hp => not_lt.mp fun hi => hnot ⟨hp, hi⟩
    exact .inl ⟨hw.quiet hsent, note_writer_quiet hsent⟩

/-- A recording of racey-forkpipe is one of the pipes. -/
theorem recorded_of_reachable (h : ((machine c cap).watch (recorder c)).Reachable (s, o)) :
    (machine c cap).Reachable s ∧ ((Pipes.machine c (capacity cap)).watch (Pipes.recorder c)).Reachable (s.pipes, o) := by
  refine h.watch_sim pipes_start rfl fun a s s' o hr hs => ?_
  have hf := forks_of_reach hr
  cases a with
  | main => exact .inl ⟨(mainStep_of_step hs).quiet hf, rfl⟩
  | wait r => exact .inl ⟨(mainStep_of_wait hs).quiet hf, rfl⟩
  | reader t => exact record_reader hf (table_of_reach hr) (counted_of_reach hr) (readerStep_of_step hs)
  | writer t => exact record_writer hf hs

end Racey.Forkpipe

/-! ### racey-clonepipe -/

namespace Racey.Clonepipe
open Forkpipe (Pipe capacity fill target)
open Machine

variable {c : Config} {cap : Pipe → ℕ} {s s' : State} {o : Pipes.Recording} {t : ℕ} {v : ℤ}

theorem note_reader (hp : (s.reader t).phase = .read) :
    (recorder c).note (.reader t) s o = o.read t ((s.buf (.inputs t)).take 128).length := by
  simp only [recorder, hp]

theorem record_reader (hp : Spawns c s) (hj : Joins c s) (hc : ∀ u, (s.writer u).Counted c) (hr : ReaderStep t s s') :
    (s'.pipes = s.pipes ∧ (recorder c).note (.reader t) s o = o) ∨
      ∃ b, Pipes.step c (capacity cap) b s.pipes = some s'.pipes ∧
        (recorder c).note (.reader t) s o = (Pipes.recorder c).note b s.pipes o := by
  have ht := ((hp.reader t).mp hr.born.1).1
  cases hr with
  | read hp hb => exact .inr ⟨.read t, pipes_read ht hp hb, note_reader hp⟩
  | eof hp hb ho =>
    refine .inr ⟨.eof t, pipes_eof ht hp hb (sent_of_closed hj hc (hj.closed_of_not_fds ht ho)), ?_⟩
    rw [note_reader hp, hb]
    rfl
  | write hp =>
    refine .inl ⟨(pipes_setReader_eq ?_).trans (pipes_setBuf_output _), by simp only [recorder, hp]⟩
    simp only [State.setBuf_reader, Reader.pipes, hp]

theorem record_writer (hp : Spawns c s) (hw : WriterStep c cap t s s') :
    (s'.pipes = s.pipes ∧ (recorder c).note (.writer t) s o = o) ∨
      ∃ b, Pipes.step c (capacity cap) b s.pipes = some s'.pipes ∧
        (recorder c).note (.writer t) s o = (Pipes.recorder c).note b s.pipes o := by
  have ht := ((hp.writer t).mp hw.born.1).1
  cases hw with
  | write hp hi hk hroom =>
    refine .inr ⟨.write t, pipes_write ht hp hi hk hroom, ?_⟩
    simp only [recorder, hp, if_pos hi, Pipes.recorder, pipes_writer hp]
  | leave hp hi =>
    refine .inl ⟨pipes_setWriter_eq (by simp only [Writer.pipes, hp]), ?_⟩
    simp only [recorder, hp, if_neg hi]

/-- A recording of racey-clonepipe is one of the pipes. -/
theorem recorded_of_reachable (h : ((machine c cap).watch (recorder c)).Reachable (s, o)) :
    (machine c cap).Reachable s ∧ ((Pipes.machine c (capacity cap)).watch (Pipes.recorder c)).Reachable (s.pipes, o) := by
  refine h.watch_sim rfl rfl fun a s s' o hr hs => ?_
  have hp := spawns_of_reach hr
  cases a with
  | main => exact .inl ⟨(mainStep_of_step hs).quiet hp, rfl⟩
  | reader t => exact record_reader hp (joins_of_reach hr) (counted_of_reach hr) (readerStep_of_step hs)
  | writer t => exact record_writer hp (writerStep_of_step hs)

end Racey.Clonepipe

/-! ### Recordings of both programs -/

namespace Racey.Pipes
open Forkpipe (Pipe)
open Machine

variable {c : Config} {cap cap' : Pipe → ℕ} {p q : Recording × ℤ}

/-- The recordings of both programs. -/
def recordings (c : Config) (cap : Pipe → ℕ) : Set (Recording × ℤ) :=
  Forkpipe.recordings c cap ∪ Clonepipe.recordings c cap

theorem exists_complete (h : p ∈ recordings c cap) : ∃ x, Recorded c x p.1 ∧ Complete c x ∧
    Forkpipe.mixSig c.numProcs (fun t => (x.reader t).num) = some p.2 := by
  rcases h with ⟨s, hs, hv⟩ | ⟨s, hs, hv⟩
  · obtain ⟨hr, hx⟩ := Forkpipe.recorded_of_reachable hs
    obtain ⟨hover, hmix⟩ := (Forkpipe.result_of_reach hr).printed p.2 hv
    exact ⟨s.pipes, recorded_of_reachable hx, hover.complete (Forkpipe.counted_of_reach hr), hmix⟩
  · obtain ⟨hr, hx⟩ := Clonepipe.recorded_of_reachable hs
    have hover : s.main.Over := by
      rw [hv]
      trivial
    exact ⟨s.pipes, recorded_of_reachable hx, Clonepipe.complete_of_over (Clonepipe.joins_of_reach hr)
      (Clonepipe.counted_of_reach hr) hover, (Clonepipe.result_of_reach hr).printed p.2 hv⟩

/-- In every run that prints, of either program, each writer sends the same number of messages to each reader, whatever the
    order; and a reader gets whole messages, one or two at a time, until all are read and a last read returns nothing. -/
theorem recordings_lawful (h : p ∈ recordings c cap) {k : ℕ} (h1 : 1 ≤ k) (hn : k ≤ c.numProcs) :
    (∀ t, (p.1.writers k).count t = messages c t k) ∧
      ∃ l, p.1.sizes k = l ++ [0] ∧ (∀ r ∈ l, r = 64 ∨ r = 128) ∧ l.sum = 64 * (p.1.writers k).length := by
  obtain ⟨x, hx, ⟨hdone, hsent⟩, -⟩ := exists_complete h
  exact ⟨fun t => hx.count hsent t k, hx.sizes (hdone k h1 hn)⟩

/-- A run of each program with two readers and two writers, with one message each. -/
theorem forkpipe_recordings_two : ∃ p ∈ Forkpipe.recordings ⟨2, 1⟩ (fun _ => 64), p.1.writers 1 = [1] ∧ p.1.sizes 1 = [64, 0] := by
  obtain ⟨⟨s, o⟩, hr, hp⟩ := exists_reachable
    (M := (Forkpipe.machine ⟨2, 1⟩ fun _ => 64).watch (Forkpipe.recorder ⟨2, 1⟩))
    (p := fun p => decide (p.1.main = .printed 65156983 ∧ p.2.writers 1 = [1] ∧ p.2.sizes 1 = [64, 0]))
    (Forkpipe.runTwo ++ List.replicate 3 .main) (by decide +kernel)
  obtain ⟨hv, ho⟩ := of_decide_eq_true hp
  exact ⟨(o, 65156983), ⟨s, hr, hv⟩, ho⟩

theorem clonepipe_recordings_two :
    ∃ p ∈ Clonepipe.recordings ⟨2, 1⟩ (fun _ => 64), p.1.writers 1 = [1] ∧ p.1.sizes 1 = [64, 0] := by
  obtain ⟨⟨s, o⟩, hr, hp⟩ := exists_reachable
    (M := (Clonepipe.machine ⟨2, 1⟩ fun _ => 64).watch (Clonepipe.recorder ⟨2, 1⟩))
    (p := fun p => decide (p.1.main = .printed 65156983 ∧ p.2.writers 1 = [1] ∧ p.2.sizes 1 = [64, 0]))
    (List.replicate 5 .main ++ [.writer 1, .writer 1, .reader 1, .writer 2, .writer 2] ++ List.replicate 8 .main ++
      [.reader 1, .reader 1, .reader 2, .reader 2, .reader 2] ++ List.replicate 7 .main) (by decide +kernel)
  obtain ⟨hv, ho⟩ := of_decide_eq_true hp
  exact ⟨(o, 65156983), ⟨s, hr, hv⟩, ho⟩

theorem recordings_lawful_two : messages ⟨2, 1⟩ 1 1 = 1 ∧ messages ⟨2, 1⟩ 2 1 = 0 := by
  obtain ⟨p, hp, hw, -⟩ := forkpipe_recordings_two
  obtain ⟨hcount, -⟩ := recordings_lawful (.inl hp) le_rfl (by decide)
  rw [← hcount 1, ← hcount 2, hw]
  decide

/-- The result loop does not read index 0. -/
theorem mixSig_congr {n : ℕ} {num num' : ℕ → ℤ} (h : ∀ i, 1 ≤ i → i < n → num i = num' i) :
    Forkpipe.mixSig n num = Forkpipe.mixSig n num' := by
  refine Forkpipe.foldlM_congr fun acc i hi => ?_
  obtain ⟨h1, hlt⟩ := List.mem_range'_1.mp hi
  simp only [h i h1 (by omega)]

/-- What is printed is a function of the order of the writers at the input pipes and of how much each read has returned: two
    runs with the same recording, of one program or one of each, print the same. -/
theorem recording_determines (hp : p ∈ recordings c cap) (hq : q ∈ recordings c cap')
    (h : ∀ k, 1 ≤ k → k < c.numProcs → p.1.writers k = q.1.writers k ∧ p.1.sizes k = q.1.sizes k) : p.2 = q.2 := by
  obtain ⟨x, hx, ⟨hdone, hsent⟩, hmix⟩ := exists_complete hp
  obtain ⟨y, hy, ⟨hdone', hsent'⟩, hmix'⟩ := exists_complete hq
  have hnum : Forkpipe.mixSig c.numProcs (fun t => (x.reader t).num) = Forkpipe.mixSig c.numProcs fun t => (y.reader t).num := by
    refine mixSig_congr fun k h1 hk => ?_
    obtain ⟨hw, hs⟩ := h k h1 hk
    exact num_eq hx hy hsent hsent' (hdone k h1 hk.le) (hdone' k h1 hk.le) hw hs
  rw [hmix, hmix'] at hnum
  exact Option.some.inj hnum

theorem recording_determines_two : ∃ p ∈ Forkpipe.recordings ⟨2, 1⟩ (fun _ => 64),
    ∃ q ∈ Clonepipe.recordings ⟨2, 1⟩ (fun _ => 64), p.1.writers 1 = q.1.writers 1 ∧ p.2 = q.2 := by
  obtain ⟨p, hp, hpw, hps⟩ := forkpipe_recordings_two
  obtain ⟨q, hq, hqw, hqs⟩ := clonepipe_recordings_two
  refine ⟨p, hp, q, hq, hpw.trans hqw.symm, recording_determines (.inl hp) (.inr hq) fun k h1 hk => ?_⟩
  obtain rfl : k = 1 := by simp at hk; omega
  exact ⟨hpw.trans hqw.symm, hps.trans hqs.symm⟩

end Racey.Pipes
