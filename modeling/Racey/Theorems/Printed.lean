import Racey.Printed
import Racey.Theorems.TestPlRuns
import Mathlib.Data.List.Basic

/-! test.pl finds the results of a run in what it prints, whatever comes before them, and two runs agree for it if and only if
    their results are the same. -/

namespace Racey

variable {a b base n : ℕ} {l l' : List Char} {x : Char}

/-! ### Numerals -/

def digitValue (x : Char) : ℕ := if x.toNat < 58 then x.toNat - 48 else x.toNat - 87

theorem digitValue_digit : ∀ d < 16, digitValue (digit d) = d := by decide

/-- No digit is the letter by which the marker differs from the lines, or one that ends a line or parts fields. -/
theorem digit_ne : ∀ d < 16, digit d ≠ 'u' ∧ digit d ≠ '\n' ∧ digit d ≠ '@' := by decide

theorem digits_lt (h1 : 1 < base) (h16 : base ≤ 16) (n : ℕ) : ∀ d ∈ base.digits n, d < 16 :=
  fun _ hd => (Nat.digits_lt_base h1 hd).trans_le h16

theorem exists_digit (h1 : 1 < base) (h16 : base ≤ 16) (hx : x ∈ numeral base n) : ∃ d < 16, x = digit d := by
  unfold numeral at hx
  split at hx
  · exact ⟨0, by decide, List.mem_singleton.mp hx⟩
  · obtain ⟨d, hd, rfl⟩ := List.mem_map.mp hx
    exact ⟨d, digits_lt h1 h16 n d (List.mem_reverse.mp hd), rfl⟩

theorem map_digitValue {ds : List ℕ} (h : ∀ d ∈ ds, d < 16) : (ds.map digit).map digitValue = ds := by
  rw [List.map_map]
  exact (List.map_congr_left fun d hd => digitValue_digit d (h d hd)).trans (List.map_id ds)

theorem numeral_inj (h1 : 1 < base) (h16 : base ≤ 16) (ha : a ≠ 0) (hb : b ≠ 0) (h : numeral base a = numeral base b) :
    a = b := by
  unfold numeral at h
  rw [if_neg ha, if_neg hb] at h
  have hmap := congrArg (List.map digitValue) h
  rw [map_digitValue fun d hd => digits_lt h1 h16 a d (List.mem_reverse.mp hd),
    map_digitValue fun d hd => digits_lt h1 h16 b d (List.mem_reverse.mp hd)] at hmap
  exact Nat.digits_inj_iff.mp (List.reverse_injective hmap)

theorem pointer_inj (h : pointer a = pointer b) : a = b := by
  unfold pointer at h
  split at h <;> split at h
  · omega
  · simp at h
  · simp at h
  · exact numeral_inj (by decide) le_rfl ‹_› ‹_› (List.append_cancel_left h)

theorem length_hex8 (n : ℕ) : (hex8 n).length = 8 := by simp [hex8]

theorem hex8_inj (ha : a < 4294967296) (hb : b < 4294967296) (h : hex8 a = hex8 b) : a = b := by
  have hdigit : ∀ k < 8, a / 16 ^ (7 - k) % 16 = b / 16 ^ (7 - k) % 16 := fun k hk => by
    have hk := congrArg digitValue (List.map_inj_left.mp h k (List.mem_range.mpr hk))
    rwa [digitValue_digit _ (Nat.mod_lt _ (by decide)), digitValue_digit _ (Nat.mod_lt _ (by decide))] at hk
  have h0 := hdigit 0 (by decide)
  have h1 := hdigit 1 (by decide)
  have h2 := hdigit 2 (by decide)
  have h3 := hdigit 3 (by decide)
  have h4 := hdigit 4 (by decide)
  have h5 := hdigit 5 (by decide)
  have h6 := hdigit 6 (by decide)
  have h7 := hdigit 7 (by decide)
  norm_num at h0 h1 h2 h3 h4 h5 h6 h7
  omega

/-! ### Lines -/

/-- Without the letter `u` and without a newline: one line, and not one with the marker in it. -/
def Plain (l : List Char) : Prop := 'u' ∉ l ∧ '\n' ∉ l

instance (l : List Char) : Decidable (Plain l) := inferInstanceAs (Decidable (_ ∧ _))

theorem Plain.append (h : Plain l) (h' : Plain l') : Plain (l ++ l') :=
  ⟨fun hu => (List.mem_append.mp hu).elim h.1 h'.1, fun hn => (List.mem_append.mp hn).elim h.2 h'.2⟩

theorem plain_numeral (h1 : 1 < base) (h16 : base ≤ 16) : Plain (numeral base n) := by
  refine ⟨fun hu => ?_, fun hn => ?_⟩
  · obtain ⟨d, hd, hx⟩ := exists_digit h1 h16 hu
    exact (digit_ne d hd).1 hx.symm
  · obtain ⟨d, hd, hx⟩ := exists_digit h1 h16 hn
    exact (digit_ne d hd).2.1 hx.symm

theorem plain_decimal (n : ℕ) : Plain (decimal n) := plain_numeral (by decide) (by decide)

theorem plain_pointer (a : ℕ) : Plain (pointer a) := by
  unfold pointer
  split
  · decide
  · exact .append (by decide) (plain_numeral (by decide) le_rfl)

theorem Line.plain (l : Line) : Plain l.text := by
  cases l with
  | seizing t | waitForBarrier t | startingLoop t | doneWithLoop t | r t | spawnedThread t | joinedThread t =>
    exact .append (by decide) (plain_decimal _)
  | sharedA a | sharedZ a => exact .append (by decide) (plain_pointer _)
  | readerStart t | readerGo t | writerStart t | writerGo t =>
    exact .append (.append (by decide) (plain_decimal _)) (by decide)
  | spawningThread i t => exact .append (.append (.append (by decide) (plain_decimal _)) (by decide)) (plain_decimal _)
  | spawnThreads | waitingForJoin => exact (by decide)

theorem at_not_mem_pointer (a : ℕ) : '@' ∉ pointer a := by
  unfold pointer
  split
  · decide
  · rintro hx
    obtain hx | hx := List.mem_append.mp hx
    · exact absurd hx (by decide)
    · obtain ⟨d, hd, hx⟩ := exists_digit (by decide) le_rfl hx
      exact (digit_ne d hd).2.2 hx.symm

theorem newline_not_mem_hex8 (n : ℕ) : '\n' ∉ hex8 n := fun hx => by
  obtain ⟨k, -, hx⟩ := List.mem_map.mp hx
  exact (digit_ne _ (Nat.mod_lt _ (by decide))).2.1 hx

/-! ### What test.pl finds -/

theorem Results.line_eq (r : Results) : r.line = "Short signature: ".toList ++ (hex8 (unsigned r.mix_sig) ++
    (" @ ".toList ++ (pointer r.stack ++ (" @ ".toList ++ pointer r.heap)))) := by
  simp only [← List.append_assoc]
  rfl

theorem Results.newline_not_mem (r : Results) : '\n' ∉ r.line := by
  have hfields : '\n' ∉ "Short signature: ".toList ∧ '\n' ∉ " @ ".toList := by decide
  rw [r.line_eq]
  simp only [List.mem_append, not_or]
  exact ⟨hfields.1, newline_not_mem_hex8 _, hfields.2, (plain_pointer _).2, hfields.2, (plain_pointer _).2⟩

theorem unsigned_inj {x y : ℤ} (hx : Forkpipe.IsInt x) (hy : Forkpipe.IsInt y) (h : unsigned x = unsigned y) : x = y := by
  obtain ⟨hx1, hx2⟩ := hx
  obtain ⟨hy1, hy2⟩ := hy
  unfold unsigned at h
  omega

/-- The line tells all results. -/
theorem Results.line_inj {r r' : Results} (h : r.line = r'.line) : r = r' := by
  rw [r.line_eq, r'.line_eq] at h
  obtain ⟨hhex, h⟩ := List.append_inj (List.append_cancel_left h) (by rw [length_hex8, length_hex8])
  -- The fields are found by the `@` between them.
  have hat : ∀ a l, pointer a ++ (" @ ".toList ++ l) = (pointer a ++ [' ']) ++ '@' :: ' ' :: l := fun a l => by
    rw [List.append_assoc]
    rfl
  have hmem : ∀ a, '@' ∉ pointer a ++ [' '] := fun a hx =>
    (List.mem_append.mp hx).elim (at_not_mem_pointer a) fun hx => absurd hx (by decide)
  have hrest : ∀ a, '@' ∉ ' ' :: pointer a := fun a hx =>
    (List.mem_cons.mp hx).elim (fun hx => absurd hx (by decide)) (at_not_mem_pointer a)
  replace h := List.append_cancel_left h
  rw [hat, hat] at h
  obtain ⟨hstack, -, hheap⟩ := (List.append_cons_inj_of_notMem (hmem _) (hrest _)).mp h
  have hlt : ∀ x, unsigned x < 4294967296 := fun x => by
    unfold unsigned
    omega
  obtain ⟨sig, stack, heap, hint⟩ := r
  obtain ⟨sig', stack', heap', hint'⟩ := r'
  obtain rfl : sig = sig' := unsigned_inj hint hint' (hex8_inj (hlt _) (hlt _) hhex)
  obtain rfl : stack = stack' := pointer_inj (List.append_cancel_right hstack)
  obtain rfl : heap = heap' := pointer_inj (List.cons.inj hheap).2
  rfl

namespace TestPl

theorem splitOn_line {rest : List Char} (h : '\n' ∉ l) : (l ++ '\n' :: rest).splitOn '\n' = l :: rest.splitOn '\n' := by
  rw [List.splitOn_eq_splitOnP, List.splitOn_eq_splitOnP]
  refine List.splitOnP_append_cons_of_forall_mem (fun x hx => beq_eq_false_iff_ne.mpr ?_) _ (by decide) _
  rintro rfl
  exact h hx

/-- A line without the marker is passed over. -/
theorem signature_line {rest : List Char} (h : '\n' ∉ l) (hm : ¬ marker <:+: l) : signature (l ++ '\n' :: rest) = signature rest := by
  rw [signature, splitOn_line h, List.find?_cons_of_neg (by simpa using hm), signature]

theorem signature_plain {rest : List Char} (h : Plain l) : signature (l ++ '\n' :: rest) = signature rest :=
  signature_line h.2 fun hm => h.1 (hm.subset (by decide))

theorem signature_printed (lines : List Line) (r : Results) : signature (printed lines r) = some r.line := by
  unfold printed
  induction lines with
  | nil =>
    rw [List.flatMap_nil, List.nil_append, ← List.nil_append ('\n' :: _), signature_plain (by decide),
      ← List.nil_append ('\n' :: _), signature_plain (by decide), signature, splitOn_line r.newline_not_mem]
    refine List.find?_cons_of_pos (decide_eq_true ?_)
    have hmarker : "Short signature: ".toList = marker ++ [' '] := by decide
    rw [r.line_eq, hmarker, List.append_assoc]
    exact (List.prefix_append _ _).isInfix
  | cons l lines ih =>
    rw [List.flatMap_cons, List.append_assoc, List.append_assoc, List.singleton_append, signature_plain l.plain, ih]

variable {nrep njobs : ℕ}

/-- What `testprog` returns for runs with the given lines and results: 1 if and only if all results are the same, whatever
    the lines and however many runs are made at a time. -/
theorem testprog_printed (hn : 2 ≤ nrep) (hj : 1 ≤ njobs) (lines : ℕ → List Line) (results : ℕ → Results) :
    (testprog nrep njobs (fun r => printed (lines r) (results r)) []).value = 1 ↔ ∀ r < nrep, results r = results 0 := by
  have hpos : 0 < nrep := by omega
  rw [value_eq_one_iff_agree _ hpos hj]
  simp only [Agree, signature_printed, Option.some.injEq]
  constructor
  · rintro ⟨s, hs⟩ r hr
    exact Results.line_inj ((hs r hr).trans (hs 0 hpos).symm)
  · exact fun h => ⟨(results 0).line, fun r hr => by rw [h r hr]⟩

/-- Two runs of racey-forkpipe with the same results and another order of the children. -/
theorem testprog_printed_two :
    (testprog 2 1 (fun r => printed [.r r, .r (1 - r)] ⟨65156983, 4096, 8192, by decide, by decide⟩) []).value = 1 :=
  (testprog_printed le_rfl le_rfl (fun r => [.r r, .r (1 - r)]) fun _ => ⟨65156983, 4096, 8192, by decide, by decide⟩).mpr
    fun _ _ => rfl

end TestPl

end Racey
