import Racey.Start
import Racey.Theorems.Mix

/-! The values that the threads of racey-basic share: whatever the races between their loads and stores, each is the
    result of a mix, below `PRIME1`, and the same number as an `int` and as an `unsigned`. -/

namespace Racey

namespace Loop
variable {s : State} {o : List Mixed} {t : ℕ}

/-! ### The loops -/

/-- Some thread has made `num` by its second mix, from a number of the class of `k`. -/
def MixedFor (o : List Mixed) (k num : ℕ) : Prop := ∃ x ∈ o, x.num % maxElem = k ∧ x.result = num

/-- The locals of a thread that is about to store. -/
def Pc.Fits (o : List Mixed) : Pc → Prop
  | .write index2 num => num < prime1 ∧ index2 < maxElem ∧ MixedFor o index2 num
  | .setSig num => num < prime1
  | _ => True

/-- What the threads share comes from mixes, and so does what they are about to store. -/
structure Values (s : State) (o : List Mixed) : Prop where
  sig : ∀ t < 33, s.mem.sig t < prime1
  cells : ∀ k, Canonical (s.mem.m k)
  source : ∀ k, s.mem.m k = mix k k ∨ ∃ num, MixedFor o k num ∧ s.mem.m k = num
  fits : ∀ t, (s.thread t).pc.Fits o

theorem values_start : Values start [] where
  sig t ht := Nat.lt_trans ht (by decide)
  cells k := canonical_signed_mix k k
  source k := .inl (signed_eq (mix_lt k k))
  fits _ := trivial

theorem MixedFor.cons {k num : ℕ} (h : MixedFor o k num) (x : Mixed) : MixedFor (x :: o) k num := by
  obtain ⟨y, hy, hk, hnum⟩ := h
  exact ⟨y, List.mem_cons_of_mem x hy, hk, hnum⟩

theorem Pc.Fits.cons {pc : Pc} (h : pc.Fits o) (x : Mixed) : pc.Fits (x :: o) := by
  cases pc with
  | write index2 num =>
    obtain ⟨hnum, hindex, hmixed⟩ := h
    exact ⟨hnum, hindex, hmixed.cons x⟩
  | _ => exact h

theorem Pc.Fits.update {th : Thread} (h : ∀ u, (s.thread u).pc.Fits o) (hth : th.pc.Fits o) (u : ℕ) :
    (Function.update s.thread t th u).pc.Fits o := by
  rcases eq_or_ne u t with rfl | hu
  · rwa [Function.update_self]
  · rw [Function.update_of_ne hu]
    exact h u

/-- The accesses that store nothing in `m` or in `sig`. -/
theorem Values.load {th : Thread} (V : Values s o) (hth : th.pc.Fits o) : Values (s.update t (th, s.mem)) o :=
  ⟨V.sig, V.cells, V.source, Pc.Fits.update V.fits hth⟩

theorem Values.cons (V : Values s o) (x : Mixed) : Values s (x :: o) where
  sig := V.sig
  cells := V.cells
  source k := (V.source k).imp_right fun ⟨num, hmixed, heq⟩ => ⟨num, hmixed.cons x, heq⟩
  fits u := (V.fits u).cons x

theorem Values.step (V : Values s o) (t : ℕ) :
    Values (s.update t ((s.thread t).step t s.mem)) ((s.thread t).note s.mem o) := by
  have hfits := V.fits t
  unfold Thread.step Thread.note
  cases hpc : (s.thread t).pc with
  | head => exact V.load trivial
  | read1 num => exact V.load trivial
  | read2 num =>
    refine (V.cons _).load ⟨mix_lt _ _, Nat.mod_lt _ (by decide), ?_⟩
    exact ⟨_, List.mem_cons_self, rfl, rfl⟩
  | write index2 num =>
    rw [hpc] at hfits
    obtain ⟨hnum, -, hmixed⟩ := hfits
    refine ⟨V.sig, fun k => ?_, fun k => ?_, Pc.Fits.update V.fits hnum⟩
    · simp only [State.update]
      rcases eq_or_ne k index2 with rfl | hk
      · rw [Function.update_self]
        exact canonical_signed hnum
      · rw [Function.update_of_ne hk]
        exact V.cells k
    · simp only [State.update]
      rcases eq_or_ne k index2 with rfl | hk
      · rw [Function.update_self]
        exact .inr ⟨num, hmixed, signed_eq hnum⟩
      · rw [Function.update_of_ne hk]
        exact V.source k
  | setSig num =>
    rw [hpc] at hfits
    refine ⟨fun u hu => ?_, V.cells, V.source, Pc.Fits.update V.fits trivial⟩
    simp only [State.update]
    rcases eq_or_ne u t with rfl | hne
    · rw [Function.update_self]
      exact hfits
    · rw [Function.update_of_ne hne]
      exact V.sig u hu

end Loop

namespace Start
variable {p : Program} {c : Config} {s s' : State MainPc} {o : List Loop.Mixed} {t : ℕ}

/-! ### The programs -/

/-- What a step of a thread does to the loops. -/
theorem loops_of_step (h : stepThread c t s = some s') : s'.main = s.main ∧
    (s'.loops = s.loops ∧ (s.phase t = .loop → (s.thread t).pc = .head) ∨
      s.phase t = .loop ∧ s'.loops = s.loops.update t ((s.thread t).step t s.mem)) := by
  unfold stepThread at h
  split at h
  case h_1 | h_2 | h_3 => cases h
  case h_4 hp =>
    obtain ⟨-, ⟨⟩⟩ := Option.ite_none_right_eq_some.mp h
    exact ⟨rfl, .inl ⟨rfl, fun hloop => by rw [hp] at hloop; cases hloop⟩⟩
  case h_5 | h_6 | h_7 | h_8 =>
    rename_i hp
    cases h
    exact ⟨rfl, .inl ⟨rfl, fun hloop => by rw [hp] at hloop; cases hloop⟩⟩
  case h_9 hp =>
    cases h
    split
    · exact ⟨rfl, .inl ⟨rfl, fun hloop => by rw [hp] at hloop; cases hloop⟩⟩
    · exact ⟨rfl, .inl ⟨rfl, fun hloop => by rw [hp] at hloop; cases hloop⟩⟩
  case h_10 hp =>
    split at h
    · rename_i hover
      cases h
      exact ⟨rfl, .inl ⟨rfl, fun _ => hover.1⟩⟩
    · cases h
      exact ⟨rfl, .inr ⟨hp, rfl⟩⟩

/-- What `main` has computed so far. -/
def MainPc.Fits : MainPc → Prop
  | .result _ mix_sig | .printed mix_sig => Canonical mix_sig
  | _ => True

theorem main_fits (V : Loop.Values s.loops o) (hmain : s.main.Fits) (h : stepMain p c s = some s') :
    s'.loops = s.loops ∧ s'.main.Fits := by
  unfold stepMain at h
  split at h
  case h_1 i hm => split at h <;> cases h <;> exact ⟨rfl, trivial⟩
  case h_2 i hm =>
    split at h
    · obtain ⟨-, ⟨⟩⟩ := Option.ite_none_right_eq_some.mp h
      exact ⟨rfl, trivial⟩
    · cases h
      exact ⟨rfl, trivial⟩
  case h_3 hm =>
    cases h
    exact ⟨rfl, canonical_signed (V.sig 0 (by decide))⟩
  case h_4 i mix_sig hm =>
    rw [hm] at hmain
    split at h
    · cases h
      exact ⟨rfl, canonical_signed_mix _ _⟩
    · cases h
      exact ⟨rfl, hmain⟩
  case h_5 => cases h

theorem values_of_reachable (h : ((machine p c).watch mixes).Reachable (s, o)) : Loop.Values s.loops o ∧ s.main.Fits := by
  refine h.invariant (I := fun q => Loop.Values q.1.loops q.2 ∧ q.1.main.Fits) ⟨Loop.values_start, trivial⟩ ?_
  rintro a ⟨x, o⟩ ⟨y, o'⟩ ⟨V, hmain⟩ - hs
  obtain ⟨hs, ho⟩ := Machine.watch_step_eq_some.mp hs
  obtain rfl : o' = mixes.note a x o := ho
  cases a with
  | main =>
    obtain ⟨hloops, hmain⟩ := main_fits V hmain hs
    refine ⟨?_, hmain⟩
    change Loop.Values y.loops o
    rw [hloops]
    exact V
  | thread t =>
    obtain ⟨hsame, hstep⟩ := loops_of_step hs
    refine ⟨?_, hsame ▸ hmain⟩
    change Loop.Values y.loops (mixes.note (.thread t) x o)
    rcases hstep with ⟨hloops, hhead⟩ | ⟨hphase, hloops⟩
    · have hnote : mixes.note (.thread t) x o = o := by
        simp only [mixes]
        split
        · rename_i hphase
          rw [Loop.Thread.note, hhead hphase]
        · rfl
      rw [hloops, hnote]
      exact V
    · have hnote : mixes.note (.thread t) x o = (x.thread t).note x.mem o := if_pos hphase
      rw [hloops, hnote]
      exact V.step t

/-- In every state of every interleaving: `sig` and the cells of `m` lie in 0 to `PRIME1 - 1`, where the conversions between
    `int` and `unsigned` change nothing; indices into `m` are below `MAX_ELEM`; a cell holds what it was initialised with or
    the result of a second mix whose `num` chose that cell; and the signature printed is in the range too. -/
theorem values_canonical (h : ((machine p c).watch mixes).Reachable (s, o)) :
    (∀ t < 33, s.mem.sig t < prime1) ∧
      (∀ k, 0 ≤ s.mem.m k ∧ s.mem.m k < prime1 ∧ (unsigned (s.mem.m k) : ℤ) = s.mem.m k) ∧
      (∀ t k num, (s.thread t).pc = .write k num → signed num = num ∧ unsigned (signed num) = num) ∧
      (∀ t k, (s.thread t).pc.cell = some k → k < maxElem) ∧
      (∀ k, s.mem.m k = mix k k ∨ ∃ x ∈ o, x.num % maxElem = k ∧ s.mem.m k = x.result) ∧
      ∀ v, s.main = .printed v → 0 ≤ v ∧ v < prime1 := by
  obtain ⟨V, hmain⟩ := values_of_reachable h
  refine ⟨V.sig, fun k => ?_, fun t k num hpc => ?_, fun t k hcell => ?_, fun k => ?_, fun v hprinted => ?_⟩
  · obtain ⟨h0, hlt⟩ := V.cells k
    exact ⟨h0, hlt, unsigned_eq h0 hlt⟩
  · have hfits := V.fits t
    rw [show (s.loops.thread t).pc = .write k num from hpc] at hfits
    exact ⟨signed_eq hfits.1, unsigned_signed (hfits.1.trans (by decide))⟩
  · have hfits := V.fits t
    change (s.thread t).pc.Fits o at hfits
    cases hpc : (s.thread t).pc <;> rw [hpc] at hfits hcell
    case read1 num | read2 num =>
      cases hcell
      exact Nat.mod_lt num (by decide)
    case write index2 num =>
      cases hcell
      exact hfits.2.1
    all_goals cases hcell
  · rcases V.source k with hinit | ⟨num, ⟨x, hx, hk, rfl⟩, heq⟩
    · exact .inl hinit
    · exact .inr ⟨x, hx, hk, heq⟩
  · rw [hprinted] at hmain
    exact hmain

/-- The only thread has stored the result of its second mix in cell 8. -/
theorem values_canonical_one : ∃ s o, ((machine .basic ⟨1, 1⟩).watch mixes).Reachable (s, o) ∧ s.mem.m 8 ≠ mix 8 8 ∧
    ∃ x ∈ o, x.num % maxElem = 8 ∧ s.mem.m 8 = x.result := by
  obtain ⟨⟨s, o⟩, hs, hne⟩ := Machine.exists_reachable (M := (machine .basic ⟨1, 1⟩).watch mixes)
    (p := fun q => decide (q.1.mem.m 8 ≠ mix 8 8)) (.main :: List.replicate 10 (.thread 1)) (by decide +kernel)
  obtain ⟨-, -, -, -, hsource, -⟩ := values_canonical hs
  have hne : s.mem.m 8 ≠ mix 8 8 := of_decide_eq_true hne
  exact ⟨s, o, hs, hne, (hsource 8).resolve_left hne⟩

end Start

end Racey
