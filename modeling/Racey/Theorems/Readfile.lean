import Mathlib.Order.Interval.Finset.Nat
import Racey.Readfile

/-! racey-readfile hashes the whole file exactly when its size is a multiple of 4. The invariant counts, for each
    position of the file, the words folded that hold it and the threads that still have to fold one that does. -/

namespace Racey.Readfile
open Machine

variable {c : Config} {file : List UInt8} {buffer : ℕ → Buffer} {s s' : State} {t : ℕ}

/-! ### Steps -/

/-- The steps of a thread. -/
inductive Step (c : Config) (file : List UInt8) (t : ℕ) (s : State) : State → Prop
  | arrive : (s.thread t).pc = .barrier →
      Step c file t s { s.set t { s.thread t with pc := .waiting s.barrier.cycle } with
        barrier := s.barrier.wait c.numProcs }
  | pass (cycle : ℕ) : (s.thread t).pc = .waiting cycle → s.barrier.Released cycle →
      Step c file t s (s.set t { s.thread t with pc := .read })
  | read : (s.thread t).pc = .read →
      Step c file t s { s.set t ⟨.mixR (readAt file s.offset).length, (s.thread t).num,
        (s.thread t).buffer.fill (readAt file s.offset) (length_readAt_le _ _)⟩ with
        offset := s.offset + (readAt file s.offset).length }
  | mixR (r : ℕ) (pc : Pc) (num : ℤ) : (s.thread t).pc = .mixR r → pc = (if r > 0 then .fold 0 r else .setSig) →
      Step c file t s (s.set t ⟨pc, num, (s.thread t).buffer⟩)
  | word (k r : ℕ) (num : ℤ) : (s.thread t).pc = .fold k r → k < r / 4 →
      Step c file t s (s.set t ⟨.fold (k + 1) r, num, (s.thread t).buffer⟩)
  | next (k r : ℕ) : (s.thread t).pc = .fold k r → ¬ k < r / 4 →
      Step c file t s (s.set t { s.thread t with pc := .read })
  | setSig (sig : ℕ → ℕ) : (s.thread t).pc = .setSig →
      Step c file t s { s.set t { s.thread t with pc := .done } with sig := sig }

theorem step_cases (h : step c file t s = some s') : (1 ≤ t ∧ t ≤ c.numProcs) ∧ Step c file t s s' := by
  simp only [step] at h
  split at h
  · rename_i ht
    refine ⟨ht, ?_⟩
    split at h
    · rename_i hpc
      cases h
      exact .arrive hpc
    · rename_i cycle hpc
      split at h
      · rename_i hrel
        cases h
        exact .pass cycle hpc hrel
      · cases h
    · rename_i hpc
      cases h
      exact .read hpc
    · rename_i r hpc
      cases h
      exact .mixR r _ _ hpc rfl
    · rename_i k r hpc
      split at h
      · rename_i hk
        cases h
        exact .word k r _ hpc hk
      · rename_i hk
        cases h
        exact .next k r hpc hk
    · rename_i hpc
      cases h
      exact .setSig _ hpc
    · cases h
  · cases h

@[simp] theorem set_self (th : Thread) : (s.set t th).thread t = th := by simp [State.set]

@[simp] theorem set_of_ne {u : ℕ} (hu : u ≠ t) (th : Thread) : (s.set t th).thread u = s.thread u := by
  simp [State.set, hu]

theorem Step.other (h : Step c file t s s') {u : ℕ} (hu : u ≠ t) : s'.thread u = s.thread u := by
  cases h <;> simp [hu]

/-! ### Reads -/

theorem length_readAt (file : List UInt8) (offset : ℕ) : (readAt file offset).length = min 256 (file.length - offset) := by
  simp [readAt]

theorem take_fill (b : Buffer) (offset : ℕ) (h : (readAt file offset).length ≤ 256) :
    (b.fill (readAt file offset) h).bytes.take (readAt file offset).length =
      (file.drop offset).take (readAt file offset).length := by
  simp only [Buffer.fill, List.take_left]
  rw [length_readAt, readAt]
  exact (List.take_eq_take_min ..).trans (by simp)

/-- The bytes of a word that lies in what was read. -/
theorem word_eq {b : Buffer} {base r k : ℕ} (h : b.bytes.take r = (file.drop base).take r) (hk : 4 * k + 4 ≤ r) :
    b.word k = (file.drop (base + 4 * k)).take 4 := by
  have hcut : ∀ l : List UInt8, ((l.take r).drop (4 * k)).take 4 = (l.drop (4 * k)).take 4 := fun l => by
    rw [List.drop_take, List.take_take, min_eq_left (by omega)]
  rw [Buffer.word, ← hcut, h, hcut, List.drop_drop]

/-! ### The invariant -/

/-- The byte at position `p` is in a word that the thread has read and still has to fold. -/
def Pending (base p : ℕ) : Pc → Prop
  | .mixR r => base ≤ p ∧ p < base + 4 * (r / 4)
  | .fold k r => base + 4 * k ≤ p ∧ p < base + 4 * (r / 4)
  | _ => False

instance (base p : ℕ) (pc : Pc) : Decidable (Pending base p pc) := by
  cases pc <;> simp only [Pending] <;> infer_instance

/-- The buffer holds what was read at `base`. -/
def Holds (file : List UInt8) (base r : ℕ) (b : Buffer) : Prop :=
  base + r ≤ file.length ∧ b.bytes.take r = (file.drop base).take r

/-- A thread between its read and the end of the loop over it holds what it read; and a thread that has left
    its read loop has seen the end of the file. -/
def ThreadOk (file : List UInt8) (offset base : ℕ) (th : Thread) : Prop :=
  match th.pc with
  | .mixR r => Holds file base r th.buffer ∧ (r = 0 → file.length ≤ offset)
  | .fold _ r => Holds file base r th.buffer
  | .setSig | .done => file.length ≤ offset
  | _ => True

/-- How often a thread has called `pthread_barrier_wait`. -/
def Pc.calls : Pc → ℕ
  | .barrier => 0
  | _ => 1

def count (o : Log) (p : ℕ) : ℕ := (o.folds.filter fun f => f.Covers p).length

def pending (base : ℕ → ℕ) (s : State) (p t : ℕ) : ℕ := if Pending (base t) p (s.thread t).pc then 1 else 0

/-- How many words were folded, or are to be folded, that hold the byte at position `p`. -/
def total (c : Config) (s : State) (o : Log) (p : ℕ) : ℕ :=
  count o p + ∑ t ∈ Finset.Icc 1 c.numProcs, pending o.base s p t

/-- The byte at each position that has been read as part of a whole word is accounted for once. -/
structure Inv (c : Config) (file : List UInt8) (s : State) (o : Log) : Prop where
  thread : ∀ t, 1 ≤ t → t ≤ c.numProcs → ThreadOk file s.offset (o.base t) (s.thread t)
  offset : s.offset % 4 = 0 ∧ s.offset ≤ file.length ∨ s.offset = file.length
  total : ∀ p, total c s o p = if p < s.offset ∧ p < 4 * (file.length / 4) then 1 else 0
  within : ∀ f ∈ o.folds, f.Within file

theorem inv_start : Inv c file (start buffer) observer.start where
  thread _ _ _ := trivial
  offset := .inl ⟨rfl, Nat.zero_le _⟩
  total p := by simp [Readfile.total, count, pending, observer, start, Pending]
  within f hf := by simp [observer] at hf

/-- A step that folds nothing and reads nothing keeps the invariant if the thread is as it should be and has
    the same left to fold. -/
theorem Inv.same {o : Log} (h : Inv c file s o) (hs : Step c file t s s') (hoffset : s'.offset = s.offset)
    (hok : ThreadOk file s.offset (o.base t) (s'.thread t))
    (hpending : ∀ p, Pending (o.base t) p (s'.thread t).pc ↔ Pending (o.base t) p (s.thread t).pc) :
    Inv c file s' o where
  thread u h1 hn := by
    rw [hoffset]
    by_cases hu : u = t
    · subst hu
      exact hok
    · rw [hs.other hu]
      exact h.thread u h1 hn
  offset := by
    rw [hoffset]
    exact h.offset
  total p := by
    rw [hoffset, ← h.total p]
    refine congrArg (count o p + ·) (Finset.sum_congr rfl fun u _ => ?_)
    by_cases hu : u = t
    · subst hu
      simp only [pending, hpending]
    · rw [pending, pending, hs.other hu]
  within := h.within

theorem Inv.read {o : Log} (h : Inv c file s o) (ht : 1 ≤ t ∧ t ≤ c.numProcs) (hpc : (s.thread t).pc = .read)
    (hs : Step c file t s s') (hoffset : s'.offset = s.offset + (readAt file s.offset).length)
    (hth : s'.thread t = ⟨.mixR (readAt file s.offset).length, (s.thread t).num,
      (s.thread t).buffer.fill (readAt file s.offset) (length_readAt_le _ _)⟩) :
    Inv c file s' { o with base := Function.update o.base t s.offset } := by
  have hlen := length_readAt file s.offset
  have hle := h.offset
  refine ⟨fun u h1 hn => ?_, ?_, fun p => ?_, h.within⟩
  · by_cases hu : u = t
    · subst hu
      simp only [Function.update_self, ThreadOk, hth, Holds]
      exact ⟨⟨by omega, take_fill _ _ _⟩, by omega⟩
    · simp only [ne_eq, hu, not_false_eq_true, Function.update_of_ne, hs.other hu, hoffset]
      have hu' := h.thread u h1 hn
      unfold ThreadOk at hu' ⊢
      split at hu'
      · exact ⟨hu'.1, fun hr => (hu'.2 hr).trans (Nat.le_add_right _ _)⟩
      · exact hu'
      · exact hu'.trans (Nat.le_add_right _ _)
      · exact hu'.trans (Nat.le_add_right _ _)
      · trivial
  · rw [hoffset]
    omega
  · have hsum := sum_change (f := pending o.base s p) (g := pending (Function.update o.base t s.offset) s' p)
      (Finset.mem_Icc.mpr ht) fun u hu => by
        simp only [pending, ne_eq, hu, not_false_eq_true, Function.update_of_ne, hs.other hu]
    have hbefore : pending o.base s p t = 0 := by simp [pending, hpc, Pending]
    -- Before the end of the file the chunk starts at a whole word.
    have hafter : pending (Function.update o.base t s.offset) s' p t =
        if s.offset ≤ p ∧ p < s.offset + (readAt file s.offset).length ∧ p < 4 * (file.length / 4) then 1 else 0 := by
      simp only [pending, Function.update_self, hth, Pending]
      exact if_congr (by omega) rfl rfl
    have htotal := h.total p
    rw [hbefore, hafter] at hsum
    simp only [Readfile.total, count, hoffset] at htotal ⊢
    split at hsum <;> split at htotal <;> split <;> omega

theorem Inv.word {o : Log} (h : Inv c file s o) (ht : 1 ≤ t ∧ t ≤ c.numProcs) {k r : ℕ} (hpc : (s.thread t).pc = .fold k r)
    (hk : k < r / 4) (hs : Step c file t s s') (hoffset : s'.offset = s.offset) {num : ℤ}
    (hth : s'.thread t = ⟨.fold (k + 1) r, num, (s.thread t).buffer⟩) :
    Inv c file s' { o with folds := o.folds ++ [⟨t, o.base t, r, k, (s.thread t).buffer.word k⟩] } := by
  have hholds : Holds file (o.base t) r (s.thread t).buffer := by
    have := h.thread t ht.1 ht.2
    rwa [ThreadOk, hpc] at this
  refine ⟨fun u h1 hn => ?_, by rw [hoffset]; exact h.offset, fun p => ?_, fun f hf => ?_⟩
  · rw [hoffset]
    by_cases hu : u = t
    · subst hu
      simpa only [ThreadOk, hth] using hholds
    · rw [hs.other hu]
      exact h.thread u h1 hn
  · have hsum := sum_change (f := pending o.base s p) (g := pending o.base s' p) (Finset.mem_Icc.mpr ht) fun u hu => by
      rw [pending, pending, hs.other hu]
    have hbefore : pending o.base s p t = if o.base t + 4 * k ≤ p ∧ p < o.base t + 4 * (r / 4) then 1 else 0 := by
      simp only [pending, hpc, Pending]
    have hafter : pending o.base s' p t = if o.base t + 4 * (k + 1) ≤ p ∧ p < o.base t + 4 * (r / 4) then 1 else 0 := by
      simp only [pending, hth, Pending]
    have hone : (List.filter (fun f : Fold => decide (f.Covers p))
        [⟨t, o.base t, r, k, (s.thread t).buffer.word k⟩]).length =
        if o.base t + 4 * k ≤ p ∧ p < o.base t + 4 * k + 4 then 1 else 0 := by
      by_cases hp : o.base t + 4 * k ≤ p ∧ p < o.base t + 4 * k + 4 <;> simp [Fold.Covers, hp]
    rw [hoffset, ← h.total p]
    rw [hbefore, hafter] at hsum
    simp only [Readfile.total, count, List.filter_append, List.length_append, hone]
    split at hsum <;> split at hsum <;> split <;> omega
  · obtain hf | hf := List.mem_append.mp hf
    · exact h.within f hf
    · rw [List.mem_singleton.mp hf]
      have hkr : 4 * k + 4 ≤ r := by omega
      exact ⟨hkr, hholds.1, word_eq hholds.2 hkr⟩

theorem inv_step {o : Log} (h : Inv c file s o) (hs : step c file t s = some s') :
    Inv c file s' (observer.note t s o) := by
  obtain ⟨ht, hstep⟩ := step_cases hs
  have hok := h.thread t ht.1 ht.2
  cases hstep with
  | arrive hpc =>
    simp only [observer, hpc]
    exact h.same (.arrive hpc) rfl (by simp [ThreadOk]) (by simp [hpc, Pending])
  | pass cycle hpc hrel =>
    simp only [observer, hpc]
    exact h.same (.pass cycle hpc hrel) rfl (by simp [ThreadOk]) (by simp [hpc, Pending])
  | read hpc =>
    simp only [observer, hpc]
    exact h.read ht hpc (.read hpc) rfl (by simp)
  | mixR r pc num hpc heq =>
    simp only [observer, hpc]
    rw [ThreadOk, hpc] at hok
    refine h.same (.mixR r pc num hpc heq) rfl ?_ fun p => ?_
    · by_cases hr : r > 0
      · simpa [ThreadOk, heq, hr] using hok.1
      · simpa [ThreadOk, heq, hr] using hok.2 (by omega)
    · by_cases hr : r > 0
      · simp [heq, hr, hpc, Pending]
      · obtain rfl : r = 0 := by omega
        simp [heq, hpc, Pending]
  | word k r num hpc hk =>
    simp only [observer, hpc, if_pos hk]
    exact h.word ht hpc hk (.word k r num hpc hk) rfl (set_self _)
  | next k r hpc hk =>
    simp only [observer, hpc, if_neg hk]
    refine h.same (.next k r hpc hk) rfl (by simp [ThreadOk]) fun p => ?_
    simp only [set_self, hpc, Pending]
    exact iff_of_false id (by omega)
  | setSig sig hpc =>
    simp only [observer, hpc]
    rw [ThreadOk, hpc] at hok
    exact h.same (.setSig sig hpc) rfl (by simpa [ThreadOk] using hok) (by simp [hpc, Pending])

theorem inv_of_reach {o : Log} (h : ((machine c file buffer).watch observer).Reachable (s, o)) : Inv c file s o :=
  h.invariant (I := fun p => Inv c file p.1 p.2) inv_start fun a p q hp _ hs => by
    obtain ⟨hs, ho⟩ := watch_step_eq_some.mp hs
    rw [ho]
    exact inv_step hp hs

/-- Once the threads have stopped, the words folded hold each byte of the whole words of the file once, and no
    other byte. -/
theorem count_of_stopped {o : Log} (h : Inv c file s o) (hn : 0 < c.numProcs) (hstop : Stopped c s) (p : ℕ) :
    count o p = if p < 4 * (file.length / 4) then 1 else 0 := by
  have hoff : file.length ≤ s.offset := by
    have := h.thread 1 (Nat.le_refl 1) hn
    rwa [ThreadOk, hstop 1 (Nat.le_refl 1) hn] at this
  have hnone : ∑ t ∈ Finset.Icc 1 c.numProcs, pending o.base s p t = 0 := by
    refine Finset.sum_eq_zero fun t ht => ?_
    rw [pending, hstop t (Finset.mem_Icc.mp ht).1 (Finset.mem_Icc.mp ht).2]
    exact if_neg id
  have htotal := h.total p
  have hwhole : (p < s.offset ∧ p < 4 * (file.length / 4)) ↔ p < 4 * (file.length / 4) := by omega
  simpa only [Readfile.total, hnone, Nat.add_zero, hwhole] using htotal

/-! ### All threads stop -/

/-- Everyone has called `pthread_barrier_wait` as often as the barrier has counted, and who waits there waits for
    the first cycle. -/
def Parties (c : Config) (s : State) : Prop :=
  Barrier.Counts (Finset.Icc 1 c.numProcs) s.barrier (fun t => (s.thread t).pc.calls) ∧
    ∀ t cycle, (s.thread t).pc = .waiting cycle → cycle = 0

theorem Parties.step (h : Parties c s) (hs : step c file t s = some s') : Parties c s' := by
  obtain ⟨ht, hstep⟩ := step_cases hs
  have hmem : t ∈ Finset.Icc 1 c.numProcs := Finset.mem_Icc.mpr ht
  have hcycle : ∀ cycle, (s'.thread t).pc = .waiting cycle → cycle = 0 := by
    intro cycle hc
    cases hstep with
    | arrive hpc =>
      simp only [set_self, Pc.waiting.injEq] at hc
      have := h.1.calls_eq t hmem
      simp only [hpc, Pc.calls] at this
      omega
    | mixR r pc num hpc heq =>
      rw [set_self, heq] at hc
      split at hc <;> cases hc
    | _ => simp at hc
  refine ⟨?_, fun u cycle hc => ?_⟩
  · by_cases hpc : (s.thread t).pc = .barrier
    · have hcalls : (s.thread t).pc.calls = s.barrier.cycle := by
        have := h.1.calls_eq t hmem
        simp only [hpc, Pc.calls] at this ⊢
        omega
      have hwait := h.1.wait hmem hcalls
      rw [Nat.card_Icc, Nat.add_sub_cancel] at hwait
      cases hstep with
      | arrive =>
        have heq : (fun u => ((s.set t { s.thread t with pc := .waiting s.barrier.cycle }).thread u).pc.calls) =
            Function.update (fun u => (s.thread u).pc.calls) t ((s.thread t).pc.calls + 1) := by
          funext u
          by_cases hu : u = t
          · subst hu
            simp [hpc, Pc.calls]
          · simp [hu]
        simp only [heq]
        exact hwait
      | pass _ hpc' | read hpc' | mixR _ _ _ hpc' | word _ _ _ hpc' | next _ _ hpc' | setSig _ hpc' =>
        rw [hpc] at hpc'
        cases hpc'
    · have hbarrier : s'.barrier = s.barrier := by
        cases hstep with
        | arrive hpc' => exact (hpc hpc').elim
        | _ => rfl
      have hcalls : (fun u => (s'.thread u).pc.calls) = fun u => (s.thread u).pc.calls := by
        funext u
        by_cases hu : u = t
        · subst hu
          cases hstep with
          | arrive hpc' => exact (hpc hpc').elim
          | mixR r pc num hpc' heq =>
            rw [set_self, heq, hpc']
            split <;> rfl
          | pass _ hpc' | read hpc' | word _ _ _ hpc' | next _ _ hpc' | setSig _ hpc' => simp [hpc', Pc.calls]
        · rw [hstep.other hu]
      rw [hbarrier, hcalls]
      exact h.1
  · by_cases hu : u = t
    · subst hu
      exact hcycle cycle hc
    · rw [hstep.other hu] at hc
      exact h.2 u cycle hc

theorem parties_of_reach (hn : 0 < c.numProcs) (h : (machine c file buffer).Reachable s) : Parties c s :=
  h.invariant (I := Parties c) ⟨Barrier.Counts.init ⟨1, Finset.mem_Icc.mpr ⟨Nat.le_refl 1, hn⟩⟩, by simp [machine, start]⟩
    fun _ _ _ hp _ hs => hp.step hs

/-- A thread that has not stopped can go on, unless it waits in the barrier. -/
theorem canStep (file : List UInt8) (ht : 1 ≤ t ∧ t ≤ c.numProcs) (hdone : (s.thread t).pc ≠ .done)
    (hwait : ∀ cycle, (s.thread t).pc = .waiting cycle → s.barrier.Released cycle) : ∃ s', step c file t s = some s' := by
  cases hpc : (s.thread t).pc with
  | waiting cycle => simp [step, ht, hpc, hwait cycle hpc]
  | fold k r => by_cases hk : k < r / 4 <;> simp [step, ht, hpc, hk]
  | done => exact (hdone hpc).elim
  | barrier | read | mixR r | setSig => simp [step, ht, hpc]

theorem goes_on_of_parties (file : List UInt8) (h : Parties c s) : Stopped c s ∨ ∃ t s', step c file t s = some s' := by
  by_cases hstop : Stopped c s
  · exact .inl hstop
  refine .inr ?_
  obtain ⟨u, hu, hcalls⟩ := h.1.exists_absent
  by_cases hpc : (s.thread u).pc = .barrier
  · -- Someone has not come to the barrier yet.
    obtain ⟨s', hs⟩ := canStep file (s := s) (Finset.mem_Icc.mp hu) (by simp [hpc]) (by simp [hpc])
    exact ⟨u, s', hs⟩
  · have hcycle : s.barrier.cycle = 1 := by
      rw [← hcalls]
      cases hpc' : (s.thread u).pc with
      | barrier => exact (hpc hpc').elim
      | _ => rfl
    unfold Stopped at hstop
    push Not at hstop
    obtain ⟨t, h1, hn, hdone⟩ := hstop
    obtain ⟨s', hs⟩ := canStep file ⟨h1, hn⟩ hdone fun cycle hw => by
      have := h.2 t cycle hw
      unfold Barrier.Released
      omega
    exact ⟨t, s', hs⟩

/-- The steps that a thread has left, apart from those for bytes that are still to be read. -/
def Pc.left : Pc → ℕ
  | .barrier => 5
  | .waiting _ => 4
  | .read => 3
  | .mixR r => if r = 0 then 2 else r / 4 + 5
  | .fold k r => r / 4 - k + 4
  | .setSig => 1
  | .done => 0

def left (c : Config) (file : List UInt8) (s : State) : ℕ :=
  4 * (file.length - s.offset) + ∑ t ∈ Finset.Icc 1 c.numProcs, (s.thread t).pc.left

/-- A step takes one of the steps left, or at least one byte from the file. -/
theorem Step.left_lt (h : Step c file t s s') : 4 * (file.length - s'.offset) + (s'.thread t).pc.left <
    4 * (file.length - s.offset) + (s.thread t).pc.left := by
  cases h with
  | arrive hpc | pass _ hpc | setSig _ hpc => simp [State.set, hpc, Pc.left]
  | read hpc =>
    have hlen := length_readAt file s.offset
    simp only [State.set, Function.update_self, hpc, Pc.left]
    split <;> omega
  | mixR r pc num hpc heq =>
    by_cases hr : r = 0
    · simp [State.set, heq, hpc, hr, Pc.left]
    · simp [State.set, heq, hpc, hr, Nat.pos_of_ne_zero hr, Pc.left]
  | word k r num hpc hk =>
    simp only [State.set, Function.update_self, hpc, Pc.left]
    omega
  | next k r hpc hk =>
    simp only [State.set, Function.update_self, hpc, Pc.left]
    omega

theorem left_lt_of_step (hs : step c file t s = some s') : left c file s' < left c file s := by
  obtain ⟨ht, hstep⟩ := step_cases hs
  have hsum := sum_change (f := fun u => (s.thread u).pc.left) (g := fun u => (s'.thread u).pc.left)
    (Finset.mem_Icc.mpr ht) fun u hu => by rw [hstep.other hu]
  have := hstep.left_lt
  unfold left
  omega

theorem bounded {as : List ℕ} (hr : (machine c file buffer).run as (start buffer) = some s) :
    as.length ≤ left c file (start buffer) := by
  have := length_le_of_measure (I := fun _ => True) (μ := left c file) (fun _ _ _ _ _ => trivial)
    (fun _ _ _ _ hs => left_lt_of_step hs) trivial hr
  omega

/-- A run that goes on for as long as it can ends with all threads stopped. -/
theorem exists_stopped (file : List UInt8) (buffer : ℕ → Buffer) (hn : 0 < c.numProcs) :
    ∃ s o, ((machine c file buffer).watch observer).Reachable (s, o) ∧ Stopped c s := by
  suffices h : ∀ k s, (machine c file buffer).Reachable s → left c file s = k →
      ∃ s, (machine c file buffer).Reachable s ∧ Stopped c s by
    obtain ⟨s, hs, hstop⟩ := h _ (start buffer) .init rfl
    obtain ⟨o, ho⟩ := hs.watch observer
    exact ⟨s, o, ho, hstop⟩
  intro k
  induction k using Nat.strongRecOn with
  | ind k ih =>
    intro s hs hk
    obtain hstop | ⟨t, s', hstep⟩ := goes_on_of_parties file (parties_of_reach hn hs)
    · exact ⟨s, hs, hstop⟩
    · exact ih _ (hk ▸ left_lt_of_step hstep) s' (hs.step t trivial hstep) rfl

/-! ### The whole file -/

theorem hashesWhole_of_mod (hn : 0 < c.numProcs) (hmod : file.length % 4 = 0) : HashesWhole c file buffer where
  bounded := ⟨_, fun _ _ hr => bounded hr⟩
  goes_on _ hs := goes_on_of_parties file (parties_of_reach hn hs)
  once s o h hstop p hp := by
    have := count_of_stopped (inv_of_reach h) hn hstop p
    rwa [if_pos (by omega)] at this
  within _ _ h := (inv_of_reach h).within

/-- Otherwise the last byte of the file is in no word. -/
theorem mod_of_hashesWhole (hn : 0 < c.numProcs) (h : HashesWhole c file buffer) : file.length % 4 = 0 := by
  by_contra hmod
  obtain ⟨s, o, hs, hstop⟩ := exists_stopped file buffer hn
  have hcount := count_of_stopped (inv_of_reach hs) hn hstop (file.length - 1)
  rw [if_neg (by omega)] at hcount
  have := h.once s o hs hstop (file.length - 1) (by omega)
  unfold count at hcount
  omega

end Racey.Readfile
