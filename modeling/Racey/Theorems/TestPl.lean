import Racey.TestPl

/-! What `testprog` returns is determined by the first `-n` outputs that it reads, which are those of the program's
    own runs only if nothing is left in the queue. -/

namespace Racey.TestPl

variable {nrep njobs l : ℕ} {runs f : ℕ → Output} {pipes : List Output}

/-! ### The queue -/

/-- The outputs that a call reads, in order, when it starts with the given queue. -/
def feed (pipes : List Output) (runs : ℕ → Output) (i : ℕ) : Output :=
  if h : i < pipes.length then pipes[i] else runs (i - pipes.length)

theorem feed_nil : feed [] runs = runs := funext fun _ => dif_neg (Nat.not_lt_zero _)

theorem feed_add (r : ℕ) : feed pipes runs (pipes.length + r) = runs r := by
  rw [feed, dif_neg (by omega), Nat.add_sub_cancel_left]

/-- The open pipes are those of the outputs from the `i`-th on. -/
def Ahead (f : ℕ → Output) (i : ℕ) (pipes : List Output) : Prop := pipes = (List.range' i pipes.length).map f

theorem Ahead.snoc {i : ℕ} (h : Ahead f i pipes) : Ahead f i (pipes ++ [f (i + pipes.length)]) := by
  unfold Ahead at h ⊢
  rw [List.length_append, List.length_singleton, List.range'_1_concat, List.map_append, ← h]
  rfl

theorem Ahead.cons {i : ℕ} {input : Output} (h : Ahead f i (input :: pipes)) : input = f i ∧ Ahead f (i + 1) pipes := by
  unfold Ahead at h ⊢
  rw [List.length_cons, List.range'_succ, List.map_cons, List.cons.injEq] at h
  exact h

theorem ahead_feed : Ahead (feed pipes runs) 0 pipes := by
  refine List.ext_getElem (by simp) fun i h _ => ?_
  simp [feed, h]

/-- Starting runs fills the queue up to `-j`, as far as there are runs left to start. -/
theorem startprogs_spec (njobs : ℕ) (hf : ∀ r, f (l + r) = runs r) (todo started : ℕ) {i : ℕ} (hp : Ahead f i pipes)
    (hi : i + pipes.length = l + started) :
    Ahead f i (startprogs njobs runs todo started pipes).2 ∧
    i + (startprogs njobs runs todo started pipes).2.length = l + (startprogs njobs runs todo started pipes).1 ∧
    (startprogs njobs runs todo started pipes).2.length = max pipes.length (min njobs (pipes.length + todo)) := by
  induction todo generalizing started pipes with
  | zero =>
    refine ⟨hp, hi, ?_⟩
    show pipes.length = _
    omega
  | succ todo ih =>
    unfold startprogs
    split
    · rename_i hlt
      have hnext : runs started = f (i + pipes.length) := by rw [hi, hf]
      have hsnoc : Ahead f i (pipes ++ [runs started]) := by
        rw [hnext]
        exact hp.snoc
      have hih := ih (started + 1) hsnoc (by simp; omega)
      rw [List.length_append, List.length_singleton] at hih
      refine ⟨hih.1, hih.2.1, hih.2.2.trans ?_⟩
      omega
    · refine ⟨hp, hi, ?_⟩
      show pipes.length = _
      omega

/-! ### The verdict -/

/-- The first `n` outputs all have a signature, and the same one. -/
def Agree (f : ℕ → Output) (n : ℕ) : Prop := ∃ s, ∀ i < n, signature (f i) = some s

theorem Agree.mono {m n : ℕ} (h : Agree f n) (hle : m ≤ n) : Agree f m := by
  obtain ⟨s, hs⟩ := h
  exact ⟨s, fun i hi => hs i (by omega)⟩

/-- `r` is what a call that started with `l` pipes returns after it has read `d` outputs. -/
structure Verdict (nrep njobs l : ℕ) (f : ℕ → Output) (d : ℕ) (r : Result) : Prop where
  read : 0 < d ∧ d ≤ nrep
  value : (r.value = 1 ∧ d = nrep ∧ Agree f nrep) ∨ (r.value = 0 ∧ Agree f (d - 1) ∧ ¬ Agree f d)
  count : d + r.pipes.length = l + r.started
  length : r.pipes.length = min njobs (l + nrep - (d - 1)) - 1

/-- What `$sig` says of the outputs read so far. -/
def Seen (f : ℕ → Output) (i : ℕ) (sig : Option (List Char)) : Prop :=
  (sig = none ∧ i = 0) ∨ ∃ s, sig = some s ∧ 0 < i ∧ ∀ j < i, signature (f j) = some s

theorem Seen.agree {i : ℕ} {sig : Option (List Char)} (h : Seen f i sig) : Agree f i := by
  rcases h with ⟨-, rfl⟩ | ⟨s, -, -, hs⟩
  · exact ⟨[], fun i hi => absurd hi (Nat.not_lt_zero i)⟩
  · exact ⟨s, hs⟩

theorem Seen.next {i : ℕ} {sig : Option (List Char)} {s : List Char} (h : Seen f i sig)
    (hs : signature (f i) = some s) (heq : s = sig.getD s) : Seen f (i + 1) (some (sig.getD s)) := by
  refine .inr ⟨s, by rw [← heq], Nat.succ_pos i, fun j hj => ?_⟩
  rcases h with ⟨-, rfl⟩ | ⟨s', rfl, -, hs'⟩
  · obtain rfl : j = 0 := by omega
    exact hs
  · rcases Nat.lt_succ_iff_lt_or_eq.mp hj with hj | rfl
    · rw [heq]
      exact hs' j hj
    · exact hs

theorem Seen.not_agree {i : ℕ} {sig : Option (List Char)} {s : List Char} (h : Seen f i sig)
    (hs : signature (f i) = some s) (hne : s ≠ sig.getD s) : ¬ Agree f (i + 1) := by
  rintro ⟨s₀, hs₀⟩
  rcases h with ⟨rfl, -⟩ | ⟨s', rfl, hi, hs'⟩
  · exact hne rfl
  · have h0 := hs₀ 0 (by omega)
    have hi := hs₀ i (by omega)
    rw [hs' 0 (by omega)] at h0
    rw [hs] at hi
    exact hne (Option.some.inj (hi.trans h0.symm))

theorem testLoop_spec (hf : ∀ r, f (l + r) = runs r) (hn : 0 < nrep) (left : ℕ) {i started : ℕ}
    {sig : Option (List Char)} (hleft : i + left = nrep) (hp : Ahead f i pipes) (hi : i + pipes.length = l + started)
    (hstarted : started ≤ nrep) (hlt : pipes.length < njobs) (hseen : Seen f i sig)
    (hlen : 0 < i → pipes.length = min njobs (l + nrep - (i - 1)) - 1) :
    ∃ d, Verdict nrep njobs l f d (testLoop nrep njobs runs left started sig pipes) := by
  induction left generalizing i started sig pipes with
  | zero =>
    obtain rfl : i = nrep := by omega
    exact ⟨i, ⟨hn, Nat.le_refl i⟩, .inl ⟨rfl, rfl, hseen.agree⟩, hi, hlen hn⟩
  | succ left ih =>
    obtain ⟨hp', hi', hlen'⟩ := startprogs_spec njobs hf (nrep - started) started hp hi
    have hfill : (startprogs njobs runs (nrep - started) started pipes).2.length = min njobs (l + nrep - i) := by
      omega
    unfold testLoop
    generalize startprogs njobs runs (nrep - started) started pipes = p at hp' hi' hfill
    obtain ⟨started', pipes'⟩ := p
    simp only at hp' hi' hfill ⊢
    cases pipes' with
    | nil =>
      -- There is always a run to wait for.
      simp only [List.length_nil] at hfill
      omega
    | cons input pipes' =>
      obtain ⟨rfl, hnext⟩ := hp'.cons
      simp only [List.length_cons] at hi' hfill
      have hstop : ¬ Agree f (i + 1) → Verdict nrep njobs l f (i + 1) ⟨0, started', pipes'⟩ := fun hnot =>
        ⟨⟨Nat.succ_pos i, by omega⟩, .inr ⟨rfl, hseen.agree, hnot⟩, by simp only; omega, by simp only; omega⟩
      simp only
      cases hs : signature (f i) with
      | none =>
        refine ⟨i + 1, hstop ?_⟩
        rintro ⟨s, h⟩
        have := h i (Nat.lt_succ_self i)
        rw [hs] at this
        cases this
      | some s =>
        simp only
        split
        · rename_i heq
          exact ih (by omega) hnext (by omega) (by omega) (by omega) (hseen.next hs heq) (by omega)
        · rename_i hne
          exact ⟨i + 1, hstop (hseen.not_agree hs hne)⟩

theorem testprog_spec (runs : ℕ → Output) (hn : 0 < nrep) (hlt : pipes.length < njobs) :
    ∃ d, Verdict nrep njobs pipes.length (feed pipes runs) d (testprog nrep njobs runs pipes) :=
  testLoop_spec feed_add hn nrep (Nat.zero_add nrep) ahead_feed (Nat.zero_add _) (Nat.zero_le _) hlt (.inl ⟨rfl, rfl⟩)
    fun h => absurd h (Nat.lt_irrefl 0)

theorem value_eq_one_iff (runs : ℕ → Output) (hn : 0 < nrep) (hlt : pipes.length < njobs) :
    (testprog nrep njobs runs pipes).value = 1 ↔ Agree (feed pipes runs) nrep := by
  obtain ⟨d, h⟩ := testprog_spec runs hn hlt
  rcases h.value with ⟨hv, -, hagree⟩ | ⟨hv, -, hnot⟩
  · exact iff_of_true hv hagree
  · exact iff_of_false (by omega) fun hagree => hnot (hagree.mono h.read.2)

theorem value_le_one (runs : ℕ → Output) (hn : 0 < nrep) (hlt : pipes.length < njobs) :
    (testprog nrep njobs runs pipes).value = 0 ∨ (testprog nrep njobs runs pipes).value = 1 := by
  obtain ⟨d, h⟩ := testprog_spec runs hn hlt
  rcases h.value with ⟨hv, -⟩ | ⟨hv, -⟩
  · exact .inr hv
  · exact .inl hv

/-! ### What is left in the queue -/

theorem length_pipes_lt (runs : ℕ → Output) (hn : 0 < nrep) (hlt : pipes.length < njobs) :
    (testprog nrep njobs runs pipes).pipes.length < njobs := by
  obtain ⟨d, h⟩ := testprog_spec runs hn hlt
  have := h.length
  omega

/-- A queue that is not empty when a program's test begins is not empty when it ends. -/
theorem pipes_ne_nil (runs : ℕ → Output) (hn : 0 < nrep) (hlt : pipes.length < njobs) (hne : pipes ≠ []) :
    (testprog nrep njobs runs pipes).pipes ≠ [] := by
  obtain ⟨d, h⟩ := testprog_spec runs hn hlt
  have hpos := List.length_pos_iff.mpr hne
  have hread := h.read
  have hlen := h.length
  exact List.length_pos_iff.mp (by omega)

/-- From an empty queue, `testprog` leaves none of its runs there if `-j` is 1, or if it has read them all. -/
theorem pipes_eq_nil_iff (runs : ℕ → Output) (hn : 0 < nrep) (hj : 0 < njobs) :
    (testprog nrep njobs runs []).pipes = [] ↔ njobs = 1 ∨ Settles nrep runs := by
  obtain ⟨d, h⟩ := testprog_spec runs hn (show ([] : List Output).length < njobs from hj)
  rw [feed_nil] at h
  have hread := h.read
  have hlen := h.length
  have hlast : d = nrep ↔ Settles nrep runs := by
    rcases h.value with ⟨-, hd, hagree⟩ | ⟨-, hagree, hnot⟩
    · exact iff_of_true hd (hagree.mono (Nat.sub_le _ _))
    · refine ⟨fun hd => hd ▸ hagree, fun hsettles => ?_⟩
      by_contra hd
      exact hnot (Agree.mono (n := nrep - 1) hsettles (by omega))
  rw [← List.length_eq_zero_iff, ← hlast]
  simp only [List.length_nil] at hlen
  omega

theorem pipesAfter_concat (before : List (ℕ → Output)) :
    pipesAfter nrep njobs (before ++ [runs]) = (testprog nrep njobs runs (pipesAfter nrep njobs before)).pipes := by
  simp [pipesAfter]

theorem length_pipesAfter_lt (hn : 0 < nrep) (hj : 0 < njobs) (before : List (ℕ → Output)) :
    (pipesAfter nrep njobs before).length < njobs := by
  induction before using List.reverseRecOn with
  | nil => exact hj
  | append_singleton before runs ih =>
    rw [pipesAfter_concat]
    exact length_pipes_lt runs hn ih

theorem pipesAfter_eq_nil_iff (hn : 0 < nrep) (hj : 0 < njobs) (before : List (ℕ → Output)) :
    pipesAfter nrep njobs before = [] ↔ njobs = 1 ∨ ∀ b ∈ before, Settles nrep b := by
  induction before using List.reverseRecOn with
  | nil => simp [pipesAfter]
  | append_singleton before runs ih =>
    rw [pipesAfter_concat]
    by_cases hnil : pipesAfter nrep njobs before = []
    · rw [hnil, pipes_eq_nil_iff runs hn hj]
      rcases ih.mp hnil with h1 | hall
      · simp [h1]
      · simp only [List.mem_append, List.mem_singleton]
        refine or_congr_right ⟨fun h b hb => ?_, fun h => h runs (.inr rfl)⟩
        rcases hb with hb | rfl
        · exact hall b hb
        · exact h
    · refine iff_of_false (pipes_ne_nil runs hn (length_pipesAfter_lt hn hj before) hnil) fun h => hnil (ih.mpr ?_)
      exact h.imp_right fun h b hb => h b (List.mem_append_left _ hb)

/-! ### Judged by its own runs -/

def goodOutput (s : List Char) : Output := marker ++ s

/-- Outputs that are left in the queue can turn a verdict round. -/
theorem exists_value_ne (hn : 0 < nrep) (hlt : pipes.length < njobs) (hne : pipes ≠ [])
    (hsig : ∃ x y s s', signature x = some s ∧ signature y = some s' ∧ s ≠ s') (hbad : ∃ z, signature z = none) :
    ∃ runs, (testprog nrep njobs runs pipes).value ≠ (testprog nrep njobs runs []).value := by
  have hpos := List.length_pos_iff.mpr hne
  have hj : 0 < njobs := by omega
  -- A program that passes on its own, and one that fails.
  have hpass : ∀ x s, signature x = some s → (testprog nrep njobs (fun _ => x) []).value = 1 := fun x s hx =>
    (value_eq_one_iff _ hn hj).mpr ⟨s, fun i _ => by simpa [feed] using hx⟩
  have hfail : ∀ z, signature z = none → (testprog nrep njobs (fun _ => z) []).value ≠ 1 := by
    rintro z hz hv
    obtain ⟨s, hs⟩ := (value_eq_one_iff _ hn hj).mp hv
    have := hs 0 hn
    simp [feed, hz] at this
  by_cases hfull : nrep ≤ pipes.length
  · -- The program's own runs are not looked at.
    by_cases hagree : Agree (fun i => pipes.getD i []) nrep
    · obtain ⟨z, hz⟩ := hbad
      refine ⟨fun _ => z, fun heq => hfail z hz (heq ▸ (value_eq_one_iff _ hn hlt).mpr ?_)⟩
      obtain ⟨s, hs⟩ := hagree
      refine ⟨s, fun i hi => ?_⟩
      have hi' : i < pipes.length := by omega
      simpa [feed, hi'] using hs i hi
    · obtain ⟨x, -, s, -, hx, -⟩ := hsig
      refine ⟨fun _ => x, fun heq => hagree ?_⟩
      obtain ⟨s', hs'⟩ := (value_eq_one_iff _ hn hlt).mp (heq.trans (hpass x s hx))
      refine ⟨s', fun i hi => ?_⟩
      have hi' : i < pipes.length := by omega
      simpa [feed, hi'] using hs' i hi
  · -- Its first run is compared with the first one left over.
    obtain ⟨x, y, s, s', hx, hy, hss⟩ := hsig
    have hfirst : ∀ w t, signature w = some t → signature pipes[0] ≠ some t →
        (testprog nrep njobs (fun _ => w) pipes).value ≠ 1 := by
      intro w t hw hne hv
      obtain ⟨u, hu⟩ := (value_eq_one_iff _ hn hlt).mp hv
      have h0 := hu 0 hn
      have hl := hu pipes.length (by omega)
      simp only [feed, hpos, dif_pos] at h0
      simp only [feed, Nat.lt_irrefl, dif_neg, not_false_eq_true, hw] at hl
      exact hne (h0.trans hl.symm)
    by_cases hpipe : signature pipes[0] = some s
    · exact ⟨fun _ => y, fun heq => hfirst y s' hy (by rw [hpipe]; simpa using hss) (heq.trans (hpass y s' hy))⟩
    · exact ⟨fun _ => x, fun heq => hfirst x s hx hpipe (heq.trans (hpass x s hx))⟩

/-- Every program is judged by its own runs alone if and only if `-j` is 1 or none of the programs tested before it
    failed earlier than at its last run. -/
theorem judged_by_own_runs_iff (hn : 2 ≤ nrep) (hj : 1 ≤ njobs) (before : List (ℕ → Output)) :
    (∀ runs, judged nrep njobs before runs = judged nrep njobs [] runs) ↔
      njobs = 1 ∨ ∀ b ∈ before, Settles nrep b := by
  have hpos : 0 < nrep := by omega
  rw [← pipesAfter_eq_nil_iff hpos hj]
  constructor
  · intro h
    by_contra hne
    obtain ⟨runs, hruns⟩ := exists_value_ne hpos (length_pipesAfter_lt hpos hj before) hne
      ⟨goodOutput ['0'], goodOutput ['1'], _, _, rfl, rfl, by decide +kernel⟩ ⟨[], by decide +kernel⟩
    exact hruns (h runs)
  · intro h runs
    unfold judged
    rw [h]
    rfl

/-- After a program whose runs agree the next one is judged by its own runs, and after one that prints nothing it is not. -/
theorem judged_by_own_runs_two : (∀ runs, judged 3 2 [fun _ => goodOutput ['0']] runs = judged 3 2 [] runs) ∧
    ¬ ∀ runs, judged 3 2 [fun _ => []] runs = judged 3 2 [] runs := by
  have hsettles : Settles 3 fun _ => goodOutput ['0'] := by
    obtain ⟨m, hm⟩ := Option.isSome_iff_exists.mp (by decide +kernel : (signature (goodOutput ['0'])).isSome = true)
    exact ⟨m, fun _ _ => hm⟩
  have hsilent : ¬ Settles 3 fun _ => [] := by
    rintro ⟨m, hm⟩
    have hnone : signature [] = none := by decide +kernel
    rw [hm 0 (by decide)] at hnone
    cases hnone
  refine ⟨(judged_by_own_runs_iff (by decide) (by decide) _).mpr (.inr fun b hb => ?_), fun h => ?_⟩
  · rw [List.mem_singleton.mp hb]
    exact hsettles
  · rcases (judged_by_own_runs_iff (by decide) (by decide) _).mp h with hone | hall
    · exact absurd hone (by decide)
    · exact hsilent (hall _ (List.mem_singleton_self _))

/-- Two runs of each program, two at a time. The first run of the first program prints nothing, so its second one is
    left in the queue; the second program, whose runs agree, fails because they differ from that. -/
theorem judged_by_leftover :
    judged 2 2 [fun r => if r = 0 then [] else goodOutput ['0']] (fun _ => goodOutput ['1']) = 0 ∧
      judged 2 2 [] (fun _ => goodOutput ['1']) = 1 := by
  decide +kernel

end Racey.TestPl
