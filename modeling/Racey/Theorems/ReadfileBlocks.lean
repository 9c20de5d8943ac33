import Racey.ReadfileBlocks
import Racey.Theorems.Mix
import Racey.Theorems.Readfile

/-! What racey-readfile prints is what it makes of a choice of a thread for each block of the file: nothing else about a run
    matters, and every choice is that of some run. -/

namespace Racey.Readfile
open Forkpipe (decode digest mixInt numbers)
open Machine

variable {c : Config} {file : List UInt8} {buffer : ℕ → Buffer} {s s' : State} {t u : ℕ} {o o' : List (ℕ × List UInt8)}

/-! ### The hash of a thread -/

/-- The hash of a thread after the given blocks. -/
def hashed (t : ℕ) (bs : List (List UInt8)) : ℤ := bs.foldl digest (signed (sigInit t))

theorem hashed_snoc (t : ℕ) (bs : List (List UInt8)) (b : List UInt8) : hashed t (bs ++ [b]) = digest (hashed t bs) b := by
  rw [hashed, List.foldl_append]
  rfl

theorem hashBlocks_eq (t : ℕ) (bs : List (List UInt8)) : hashBlocks t bs = mixInt (hashed t bs) (0 : ℕ) := by
  have hnone : numbers [] = [] := rfl
  rw [hashBlocks, digest, hnone, List.foldl_nil, List.length_nil, hashed]

/-- How far the thread is with the hash of the blocks it has read. -/
def Thread.Hashes (t : ℕ) (bs : List (List UInt8)) (ended : Prop) (sig : ℕ) (th : Thread) : Prop :=
  match th.pc with
  | .barrier | .waiting _ | .read => th.num = hashed t bs
  | .mixR 0 => th.num = hashed t bs ∧ ended
  | .mixR (r + 1) => ∃ prev block, bs = prev ++ [block] ∧ block.length = r + 1 ∧ th.buffer.bytes.take (r + 1) = block ∧
      th.num = hashed t prev
  | .fold k r => ∃ prev block, bs = prev ++ [block] ∧ block.length = r ∧ th.buffer.bytes.take r = block ∧
      th.num = ((numbers block).take k).foldl mixInt (mixInt (hashed t prev) r)
  | .setSig => th.num = hashBlocks t bs ∧ ended
  | .done => sig = unsigned (hashBlocks t bs) ∧ ended

/-- What the reads so far have returned, and what the threads have made of it. -/
structure Shared (c : Config) (file : List UInt8) (s : State) (o : List (ℕ × List UInt8)) : Prop where
  blocks : o.map Prod.snd = (List.range o.length).map fun i => readAt file (256 * i)
  offset : s.offset = min (256 * o.length) file.length
  le : o.length ≤ (file.length + 255) / 256
  readers : ∀ p ∈ o, 1 ≤ p.1 ∧ p.1 ≤ c.numProcs
  thread : ∀ t, (s.thread t).Hashes t (Interleave.of t o) (file.length ≤ s.offset) (s.sig t)
  sig : s.sig 0 = sigInit 0

theorem shared_start : Shared c file (start buffer) (reads file).start where
  blocks := rfl
  offset := (Nat.zero_min _).symm
  le := Nat.zero_le _
  readers _ hp := absurd hp List.not_mem_nil
  thread _ := rfl
  sig := rfl

/-! ### The steps of a thread -/

theorem word_of_take {b : Buffer} {r k : ℕ} {block : List UInt8} (h : b.bytes.take r = block) (hk : k < r / 4) :
    b.word k = (block.drop (k * 4)).take 4 := by
  rw [← h, List.drop_take, List.take_take, min_eq_left (by omega), Buffer.word, Nat.mul_comm]

theorem take_numbers_succ {block : List UInt8} {k : ℕ} (hk : k < block.length / 4) :
    (numbers block).take (k + 1) = (numbers block).take k ++ [decode ((block.drop (k * 4)).take 4)] := by
  have htake : ∀ j ≤ block.length / 4,
      (numbers block).take j = (List.range j).map fun k => decode ((block.drop (k * 4)).take 4) := fun j hj => by
    rw [numbers, Frames.items, ← List.map_take, List.take_range, min_eq_left hj]
  rw [htake _ hk, htake _ hk.le, List.range_succ, List.map_append]
  rfl

theorem take_numbers {block : List UInt8} {k : ℕ} (hk : ¬ k < block.length / 4) : (numbers block).take k = numbers block := by
  refine List.take_of_length_le ?_
  rw [numbers, Frames.items, List.length_map, List.length_range]
  omega

/-- A step that reads nothing from the file. -/
theorem Shared.same (h : Shared c file s o) (h1 : 1 ≤ t) (hoffset : s'.offset = s.offset)
    (hother : ∀ u, u ≠ t → s'.thread u = s.thread u) (hsig : ∀ u, u ≠ t → s'.sig u = s.sig u)
    (hok : (s'.thread t).Hashes t (Interleave.of t o) (file.length ≤ s.offset) (s'.sig t)) : Shared c file s' o where
  blocks := h.blocks
  offset := hoffset.trans h.offset
  le := h.le
  readers := h.readers
  thread u := by
    rw [hoffset]
    rcases eq_or_ne u t with rfl | hu
    · exact hok
    · rw [hother u hu, hsig u hu]
      exact h.thread u
  sig := (hsig 0 (by omega)).trans h.sig

theorem Thread.Hashes.mono {bs : List (List UInt8)} {ended ended' : Prop} {sig : ℕ} {th : Thread}
    (h : th.Hashes t bs ended sig) (hended : ended → ended') : th.Hashes t bs ended' sig := by
  obtain ⟨pc, num, b⟩ := th
  cases pc with
  | barrier | waiting | read | fold => exact h
  | mixR r =>
    cases r with
    | zero => exact ⟨h.1, hended h.2⟩
    | succ r => exact h
  | setSig | done => exact ⟨h.1, hended h.2⟩

/-- A read that returns nothing. -/
theorem Shared.atEnd (h : Shared c file s o) (h1 : 1 ≤ t) (hpc : (s.thread t).pc = .read) (hnil : readAt file s.offset = []) :
    Shared c file { s.set t ⟨.mixR 0, (s.thread t).num, (s.thread t).buffer⟩ with offset := s.offset } o := by
  have hth := h.thread t
  simp only [Thread.Hashes, hpc] at hth
  have hlen := length_readAt file s.offset
  rw [hnil, List.length_nil] at hlen
  refine h.same h1 rfl (fun u hu => set_of_ne hu _) (fun _ _ => rfl) ?_
  simp only [State.set, Function.update_self, Thread.Hashes]
  exact ⟨hth, by omega⟩

/-- A read that returns a block of the file. -/
theorem Shared.block (h : Shared c file s o) (ht : 1 ≤ t ∧ t ≤ c.numProcs) (hpc : (s.thread t).pc = .read)
    (hne : readAt file s.offset ≠ []) :
    Shared c file { s.set t ⟨.mixR (readAt file s.offset).length, (s.thread t).num,
      (s.thread t).buffer.fill (readAt file s.offset) (length_readAt_le _ _)⟩ with
      offset := s.offset + (readAt file s.offset).length } (o ++ [(t, readAt file s.offset)]) := by
  have hth := h.thread t
  simp only [Thread.Hashes, hpc] at hth
  have hlen := length_readAt file s.offset
  have hpos := List.length_pos_iff.mpr hne
  have hoffset := h.offset
  have heq : s.offset = 256 * o.length := by omega
  refine ⟨?_, ?_, ?_, fun p hp => ?_, fun u => ?_, h.sig⟩
  · simp only [List.map_append, List.map_cons, List.map_nil, List.length_append, List.length_singleton, List.range_succ, h.blocks,
      heq]
  · simp only [List.length_append, List.length_singleton]
    omega
  · simp only [List.length_append, List.length_singleton]
    omega
  · rcases List.mem_append.mp hp with hp | hp
    · exact h.readers p hp
    · rw [List.mem_singleton.mp hp]
      exact ht
  · rcases eq_or_ne u t with rfl | hu
    · obtain ⟨r, hr⟩ := Nat.exists_eq_succ_of_ne_zero hpos.ne'
      simp only [State.set, Function.update_self, Interleave.of_snoc, if_true, hr, Thread.Hashes]
      refine ⟨_, _, rfl, hr, ?_, hth⟩
      rw [Buffer.fill, ← Nat.succ_eq_add_one, ← hr, List.take_left]
    · simp only [State.set, Function.update_of_ne hu, Interleave.of_snoc, if_neg hu.symm]
      exact (h.thread u).mono fun hend => hend.trans (Nat.le_add_right _ _)

theorem Shared.step (h : Shared c file s o) (hs : step c file t s = some s') : Shared c file s' ((reads file).note t s o) := by
  obtain ⟨ht, -⟩ := step_cases hs
  have hth := h.thread t
  simp only [Readfile.step, if_pos ht] at hs
  cases hpc : (s.thread t).pc with
  | read =>
    simp only [hpc, Option.some.injEq] at hs
    simp only [reads, hpc]
    subst hs
    by_cases hnil : readAt file s.offset = []
    · rw [if_pos hnil]
      have hfill : (s.thread t).buffer.fill (readAt file s.offset) (length_readAt_le _ _) = (s.thread t).buffer := by
        simp only [Buffer.fill, hnil, List.length_nil, List.drop_zero, List.nil_append]
      rw [hfill, hnil]
      exact h.atEnd ht.1 hpc hnil
    · rw [if_neg hnil]
      exact h.block ht hpc hnil
  | barrier =>
    simp only [hpc, Option.some.injEq] at hs
    simp only [Thread.Hashes, hpc] at hth
    simp only [reads, hpc]
    subst hs
    refine h.same ht.1 rfl (fun u hu => set_of_ne hu _) (fun _ _ => rfl) ?_
    simpa only [State.set, Function.update_self, Thread.Hashes] using hth
  | waiting cycle =>
    simp only [hpc, Option.ite_none_right_eq_some, Option.some.injEq] at hs
    simp only [Thread.Hashes, hpc] at hth
    simp only [reads, hpc]
    obtain ⟨-, rfl⟩ := hs
    refine h.same ht.1 rfl (fun u hu => set_of_ne hu _) (fun _ _ => rfl) ?_
    simpa only [State.set, Function.update_self, Thread.Hashes] using hth
  | mixR r =>
    simp only [hpc, Option.some.injEq] at hs
    simp only [Thread.Hashes, hpc] at hth
    simp only [reads, hpc]
    subst hs
    refine h.same ht.1 rfl (fun u hu => set_of_ne hu _) (fun _ _ => rfl) ?_
    cases r with
    | zero =>
      obtain ⟨hnum, hend⟩ := hth
      simp only [State.set, Function.update_self, Thread.Hashes, gt_iff_lt, lt_irrefl, if_false, hnum]
      exact ⟨(hashBlocks_eq t _).symm, hend⟩
    | succ r =>
      obtain ⟨prev, block, hbs, hlen, htake, hnum⟩ := hth
      simp only [State.set, Function.update_self, Thread.Hashes, gt_iff_lt, Nat.succ_pos, if_true]
      exact ⟨prev, block, hbs, hlen, htake, by rw [hnum, List.take_zero, List.foldl_nil]⟩
  | fold k r =>
    simp only [hpc] at hs
    simp only [Thread.Hashes, hpc] at hth
    simp only [reads, hpc]
    obtain ⟨prev, block, hbs, hlen, htake, hnum⟩ := hth
    by_cases hk : k < r / 4
    · rw [if_pos hk, Option.some.injEq] at hs
      subst hs
      refine h.same ht.1 rfl (fun u hu => set_of_ne hu _) (fun _ _ => rfl) ?_
      simp only [State.set, Function.update_self, Thread.Hashes]
      refine ⟨prev, block, hbs, hlen, htake, ?_⟩
      rw [take_numbers_succ (hlen ▸ hk), List.foldl_append, ← hnum, word_of_take htake hk, List.foldl_cons, List.foldl_nil]
    · rw [if_neg hk, Option.some.injEq] at hs
      subst hs
      refine h.same ht.1 rfl (fun u hu => set_of_ne hu _) (fun _ _ => rfl) ?_
      simp only [State.set, Function.update_self, Thread.Hashes]
      rw [hnum, take_numbers (hlen ▸ hk), hbs, hashed_snoc, digest, hlen]
  | setSig =>
    simp only [hpc, Option.some.injEq] at hs
    simp only [Thread.Hashes, hpc] at hth
    simp only [reads, hpc]
    subst hs
    refine h.same ht.1 rfl (fun u hu => set_of_ne hu _) (fun u hu => Function.update_of_ne hu ..) ?_
    simp only [State.set, Function.update_self, Thread.Hashes]
    exact ⟨by rw [hth.1], hth.2⟩
  | done => simp [hpc] at hs

theorem shared_of_reachable (h : ((machine c file buffer).watch (reads file)).Reachable (s, o)) : Shared c file s o :=
  h.invariant (I := fun p => Shared c file p.1 p.2) shared_start fun a p q hp _ hs => by
    obtain ⟨hs, ho⟩ := watch_step_eq_some.mp hs
    rw [ho]
    exact hp.step hs

/-! ### What is printed -/

theorem Shared.complete (h : Shared c file s o) (hend : file.length ≤ s.offset) : o.map Prod.snd = Readfile.blocks file := by
  have hlen : o.length = (file.length + 255) / 256 := by
    have := h.offset
    have := h.le
    omega
  rw [h.blocks, hlen, Readfile.blocks]

theorem Shared.signature (h : Shared c file s o) (hn : 0 < c.numProcs) (hstop : Stopped c s) :
    Racey.mixSig c.numProcs s.sig = signatureOf c file (o.map Prod.fst) := by
  have hdone : ∀ t, 1 ≤ t → t ≤ c.numProcs → s.sig t = unsigned (hashBlocks t (Interleave.of t o)) ∧ file.length ≤ s.offset :=
    fun t h1 ht => by
      have hth := h.thread t
      rwa [Thread.Hashes, hstop t h1 ht] at hth
  have hzip : o = (o.map Prod.fst).zip (Readfile.blocks file) :=
    List.zip_of_prod rfl (h.complete (hdone 1 le_rfl hn).2)
  refine Racey.mixSig_congr hn fun i hi => ?_
  rw [← hzip, storeHashes]
  split
  · rename_i hi'
    exact (hdone i hi'.1 hi'.2).1
  · obtain rfl : i = 0 := by omega
    exact h.sig

theorem length_blocks (file : List UInt8) : (blocks file).length = (file.length + 255) / 256 := by
  rw [blocks, List.length_map, List.length_range]

/-! ### Every choice of the readers -/

theorem reachable_of_watched (h : ((machine c file buffer).watch (reads file)).Reachable (s, o)) :
    (machine c file buffer).Reachable s := by
  obtain ⟨as, hr⟩ := exists_run_of_reachable h
  exact reachable_of_run (run_of_watch hr)

/-- A step that reads nothing. -/
theorem exists_quiet (hs : step c file t s = some s') (hpc : (s.thread t).pc ≠ .read) :
    ((machine c file buffer).watch (reads file)).step t (s, o) = some (s', o) := by
  refine watch_step_eq_some.mpr ⟨hs, ?_⟩
  simp only [reads]

/-- As long as blocks are left, some thread other than a reader can go on, or all threads that still have to read are about to. -/
theorem quiet_or_about_to_read (h : ((machine c file buffer).watch (reads file)).Reachable (s, o)) (hn : 0 < c.numProcs)
    (hleft : s.offset < file.length) (ht : 1 ≤ t ∧ t ≤ c.numProcs) :
    (∃ u s', step c file u s = some s' ∧ (s.thread u).pc ≠ .read) ∨ (s.thread t).pc = .read := by
  have hp := parties_of_reach hn (reachable_of_watched h)
  have hth := (shared_of_reachable h).thread t
  by_cases hread : (s.thread t).pc = .read
  · exact .inr hread
  refine .inl ?_
  by_cases hwait : ∀ cycle, (s.thread t).pc = .waiting cycle → s.barrier.Released cycle
  · -- A thread is done only after the end of the file.
    have hdone : (s.thread t).pc ≠ .done := fun hdone => by
      rw [Thread.Hashes, hdone] at hth
      exact absurd hth.2 (by omega)
    obtain ⟨s', hs⟩ := canStep file ht hdone hwait
    exact ⟨t, s', hs, hread⟩
  · -- It waits for one that has not come to the barrier.
    push Not at hwait
    obtain ⟨cycle, hcycle, hnot⟩ := hwait
    obtain ⟨u, hu, hcalls⟩ := hp.1.exists_absent
    have hpc : (s.thread u).pc = .barrier := by
      have hzero := hp.2 t cycle hcycle
      unfold Barrier.Released at hnot
      cases hpc : (s.thread u).pc with
      | barrier => rfl
      | _ =>
        simp only [hpc, Pc.calls] at hcalls
        omega
    obtain ⟨s', hs⟩ := canStep file (s := s) (Finset.mem_Icc.mp hu) (by simp [hpc]) (by simp [hpc])
    exact ⟨u, s', hs, by simp [hpc]⟩

theorem exists_next {readers : List ℕ} (h : ((machine c file buffer).watch (reads file)).Reachable (s, o))
    (hn : 0 < c.numProcs) (hmem : ∀ t ∈ readers, 1 ≤ t ∧ t ≤ c.numProcs) (hlen : readers.length = (blocks file).length)
    (hsub : o.map Prod.fst <+: readers) (hne : o.map Prod.fst ≠ readers) :
    ∃ a q, ((machine c file buffer).watch (reads file)).step a (s, o) = some q ∧ q.2.map Prod.fst <+: readers ∧
      left c file q.1 < left c file s := by
  have hshared := shared_of_reachable h
  obtain ⟨rest, hrest⟩ := hsub
  cases rest with
  | nil => exact absurd (by rw [← hrest, List.append_nil]) hne
  | cons t rest =>
    have hlt : o.length < (file.length + 255) / 256 := by
      rw [← length_blocks, ← hlen, ← hrest, List.length_append, List.length_map, List.length_cons]
      omega
    have hoffset := hshared.offset
    have ht := hmem t (by rw [← hrest]; simp)
    rcases quiet_or_about_to_read h hn (by omega) ht with ⟨u, s', hs, hpc⟩ | hpc
    · exact ⟨u, _, exists_quiet hs hpc, ⟨t :: rest, hrest⟩, left_lt_of_step hs⟩
    · obtain ⟨s', hs⟩ := canStep file (s := s) ht (by simp [hpc]) (by simp [hpc])
      refine ⟨t, (s', (reads file).note t s o), watch_step_eq_some.mpr ⟨hs, rfl⟩, ?_, left_lt_of_step hs⟩
      have hblock : readAt file s.offset ≠ [] := fun hnil => by
        have := length_readAt file s.offset
        rw [hnil, List.length_nil] at this
        omega
      simp only [reads, hpc, if_neg hblock, List.map_append]
      exact ⟨rest, by rw [← hrest, List.append_assoc]; rfl⟩

/-- Once all blocks are read, the threads stop, and no further block is read. -/
theorem exists_stopped_with {readers : List ℕ} (h : ((machine c file buffer).watch (reads file)).Reachable (s, o))
    (hn : 0 < c.numProcs) (hlen : readers.length = (blocks file).length) (ho : o.map Prod.fst = readers) :
    ∃ s' o', ((machine c file buffer).watch (reads file)).Reachable (s', o') ∧ o'.map Prod.fst = readers ∧ Stopped c s' := by
  obtain ⟨q, hq, ho, hstop⟩ := h.exists_within (P := fun p => p.2.map Prod.fst = readers) (Q := fun p => Stopped c p.1)
    (μ := fun p => left c file p.1) (fun p hp ho hnot => by
      obtain ⟨u, s', hs⟩ := (goes_on_of_parties file (parties_of_reach hn (reachable_of_watched hp))).resolve_left hnot
      refine ⟨u, (s', (reads file).note u p.1 p.2), trivial, watch_step_eq_some.mpr ⟨hs, rfl⟩, ?_, left_lt_of_step hs⟩
      have hoffset := (shared_of_reachable hp).offset
      have hend : readAt file p.1.offset = [] := by
        have hcount := congrArg List.length ho
        rw [List.length_map, hlen, length_blocks] at hcount
        rw [← List.length_eq_zero_iff, length_readAt]
        omega
      simp only [reads, hend, if_true]
      split <;> exact ho) ho
  exact ⟨q.1, q.2, hq, ho, hstop⟩

theorem exists_readers {readers : List ℕ} (buffer : ℕ → Buffer) (hn : 0 < c.numProcs)
    (hmem : ∀ t ∈ readers, 1 ≤ t ∧ t ≤ c.numProcs) (hlen : readers.length = (blocks file).length) :
    ∃ s o, ((machine c file buffer).watch (reads file)).Reachable (s, o) ∧ o.map Prod.fst = readers ∧ Stopped c s := by
  have hstart : ((machine c file buffer).watch (reads file)).Reachable (start buffer, []) := .init
  obtain ⟨q, hq, -, ho⟩ := hstart.exists_within (P := fun p => p.2.map Prod.fst <+: readers)
    (Q := fun p => p.2.map Prod.fst = readers) (μ := fun p => left c file p.1)
    (fun p hp hsub hne => by
      obtain ⟨u, q, hs, hq⟩ := exists_next hp hn hmem hlen hsub hne
      exact ⟨u, q, trivial, hs, hq⟩) List.nil_prefix
  exact exists_stopped_with hq hn hlen ho

/-- The signatures of racey-readfile are those of the ways to hand the blocks of the file out to the threads, each block to one
    thread: the order of the blocks is that of the file, and nothing else about a run matters. -/
theorem outcomes_by_readers (hc : c.Accepted) (file : List UInt8) (buffer : ℕ → Buffer) :
    outcomes c file buffer = {v | ∃ readers : List ℕ, readers.length = (blocks file).length ∧
      (∀ t ∈ readers, 1 ≤ t ∧ t ≤ c.numProcs) ∧ signatureOf c file readers = v} := by
  have hn := hc.numProcs_pos
  ext v
  constructor
  · rintro ⟨s, hs, hstop, rfl⟩
    obtain ⟨o, ho⟩ := hs.watch (reads file)
    have hshared := shared_of_reachable ho
    have hend : file.length ≤ s.offset := by
      have hth := hshared.thread 1
      rw [Thread.Hashes, hstop 1 le_rfl hn] at hth
      exact hth.2
    refine ⟨o.map Prod.fst, ?_, fun t ht => ?_, (hshared.signature hn hstop).symm⟩
    · rw [← hshared.complete hend, List.length_map, List.length_map]
    · obtain ⟨p, hp, rfl⟩ := List.mem_map.mp ht
      exact hshared.readers p hp
  · rintro ⟨readers, hlen, hmem, rfl⟩
    obtain ⟨s, o, hs, ho, hstop⟩ := exists_readers buffer hn hmem hlen
    exact ⟨s, reachable_of_watched hs, hstop, ho ▸ (shared_of_reachable hs).signature hn hstop⟩

/-- Two threads and a file of eight blocks, of which the first and the last are read by thread 1. -/
theorem outcomes_by_readers_two :
    signatureOf ⟨2, 1⟩ (List.replicate 2048 0) [1, 2, 2, 2, 2, 2, 2, 1] ∈
      outcomes ⟨2, 1⟩ (List.replicate 2048 0) fun _ => ⟨List.replicate 256 0, List.length_replicate⟩ := by
  rw [outcomes_by_readers ⟨by decide, by decide, by decide⟩]
  exact ⟨[1, 2, 2, 2, 2, 2, 2, 1], by rw [length_blocks, List.length_replicate]; rfl, by decide, rfl⟩

end Racey.Readfile
