import Racey.Theorems.SignalProgress
import Racey.Theorems.StartMain

/-! What racey-signal prints is what independent mixers compute. Each thread sends as many signals as its iterations call for,
    and no signal is handled twice. -/

namespace Racey.Signal
open Machine

variable {c : Config} {behind : ℕ} {s s' : State} {o o' : Tally} {t u : ℕ} {a : Move} {th : Thread}

/-! ### What is noted -/

theorem note_kill (hframe : (s.thread t).frame = none) (hp : s.phase t = .kill) : (tally c).note (.thread t) s o =
    { o with
      sent := Function.update o.sent t (o.sent t + 1)
      sentTo := Function.update o.sentTo (s.target c t) (o.sentTo (s.target c t) + 1) } := if_pos ⟨hframe, hp⟩

theorem note_frame {f : Loop.Thread} (hframe : (s.thread t).frame = some f) : (tally c).note (.thread t) s o = o :=
  if_neg fun h => by simp [hframe] at h

theorem note_body (hp : s.phase t ≠ .kill) : (tally c).note (.thread t) s o = o := if_neg fun h => hp h.2

/-- The tally of what is handled goes by itself. -/
theorem handled_of_reachable (h : ((machine c behind).watch (tally c)).Reachable (s, o)) :
    ((machine c behind).watch observer).Reachable (s, o.handled) := by
  refine h.forget (O := observer) Tally.handled rfl fun a s o => ?_
  cases a with
  | main | deliver t => rfl
  | thread t =>
    show (if _ then _ else o : Tally).handled = o.handled
    split <;> rfl

/-! ### How many signals a thread sends -/

/-- The signals that a thread sends in all. -/
def signals (c : Config) : ℕ := (c.maxLoop + npersig c - 1) / npersig c

theorem lt_signals_iff {n : ℕ} : n < signals c ↔ n * npersig c < c.maxLoop := by
  have hpos := npersig_pos c
  rw [signals, Nat.lt_div_iff_mul_lt hpos]
  omega

/-- How many signals a thread has sent, by where it is. -/
def Thread.Sent (c : Config) (n : ℕ) (th : Thread) : Prop :=
  match th.phase with
  | .outer => th.loop.i = min c.maxLoop (n * npersig c) ∧ n ≤ signals c
  | .inner => th.loop.i = n * npersig c + th.k ∧ th.k ≤ npersig c ∧ (th.loop.pc ≠ .head → th.k < npersig c) ∧ n < signals c
  | .kill => th.loop.i = min c.maxLoop ((n + 1) * npersig c) ∧ n < signals c
  | .arriveLast | .inBarrierLast _ | .returned => n = signals c
  | _ => n = 0 ∧ th.loop.i = 0

variable {n : ℕ}

/-- Between the phases before the loop, and between those after it. -/
theorem Thread.Sent.goto {p q : Phase} (h : th.Sent c n) (hp : th.phase = p)
    (hpq : Thread.Sent c n { th with phase := p } → Thread.Sent c n { th with phase := q }) :
    Thread.Sent c n { th with phase := q } := by
  subst hp
  exact hpq h

theorem Thread.Sent.enter (h : th.Sent c n) (hp : th.phase = .outer) (hi : th.loop.i < c.maxLoop) (hhead : th.loop.pc = .head) :
    Thread.Sent c n { th with phase := .inner, k := 0 } := by
  simp only [Thread.Sent, hp] at h
  obtain ⟨heq, -⟩ := h
  have hle : n * npersig c < c.maxLoop := by omega
  refine ⟨?_, Nat.zero_le _, fun hne => absurd hhead hne, lt_signals_iff.mpr hle⟩
  show th.loop.i = n * npersig c + 0
  omega

theorem Thread.Sent.leave (h : th.Sent c n) (hp : th.phase = .outer) (hi : ¬ th.loop.i < c.maxLoop) :
    Thread.Sent c n { th with phase := .arriveLast } := by
  simp only [Thread.Sent, hp] at h
  obtain ⟨heq, hle⟩ := h
  have hnot : ¬ n < signals c := fun hlt => by
    have := lt_signals_iff.mp hlt
    omega
  exact le_antisymm hle (not_lt.mp hnot)

theorem Thread.Sent.exit (h : th.Sent c n) (hp : th.phase = .inner) (hle : th.loop.i ≤ c.maxLoop)
    (hexit : ¬ (th.k < npersig c ∧ th.loop.i < c.maxLoop)) : Thread.Sent c n { th with phase := .kill } := by
  simp only [Thread.Sent, hp] at h
  obtain ⟨heq, hk, -, hlt⟩ := h
  have hn : (n + 1) * npersig c = n * npersig c + npersig c := Nat.succ_mul _ _
  refine ⟨?_, hlt⟩
  show th.loop.i = _
  omega

theorem Thread.Sent.access {mem : Memory} {r : Loop.Thread × Memory} (h : th.Sent c n) (hp : th.phase = .inner)
    (hgoes : ¬ (th.loop.pc = .head ∧ ¬ (th.k < npersig c ∧ th.loop.i < c.maxLoop))) (hr : th.loop.step t mem = r) :
    Thread.Sent c n { th with k := if r.1.i = th.loop.i then th.k else th.k + 1, loop := r.1 } := by
  simp only [Thread.Sent, hp] at h ⊢
  obtain ⟨heq, hk, hhead, hlt⟩ := h
  have hk : th.k < npersig c := by
    by_cases hpc : th.loop.pc = .head
    · exact (not_not.mp (not_and.mp hgoes hpc)).1
    · exact hhead hpc
  subst hr
  rcases i_step (t := t) mem th.loop with ⟨hi, -⟩ | ⟨hi, hpc, -⟩
  · rw [if_pos hi, hi]
    exact ⟨heq, hk.le, fun _ => hk, hlt⟩
  · rw [hi, if_neg (Nat.succ_ne_self _)]
    exact ⟨by omega, hk, fun hne => absurd hpc hne, hlt⟩

theorem Thread.Sent.kill (h : th.Sent c n) (hp : th.phase = .kill) : Thread.Sent c (n + 1) { th with phase := .outer } := by
  simp only [Thread.Sent, hp] at h
  exact h

/-! ### The tally -/

/-- What is noted agrees with where the threads are: a signal that is pending has been sent and not been handled. -/
structure Tallied (c : Config) (s : State) (o : Tally) : Prop where
  sent : ∀ t, (s.thread t).Sent c (o.sent t)
  once : ∀ t, o.handled t + (s.thread t).pending.toNat ≤ o.sentTo t
  sum : ∑ t ∈ Finset.Icc 1 c.numProcs, o.sentTo t = ∑ t ∈ Finset.Icc 1 c.numProcs, o.sent t

theorem tallied_start : Tallied c (start behind) (tally c).start := ⟨fun _ => ⟨rfl, rfl⟩, fun _ => le_rfl, rfl⟩

/-- Thread `t` goes on, and no signal is sent or delivered. -/
theorem Tallied.update (h : Tallied c s o) (hthread : s'.thread = Function.update s.thread t th) (hsent : th.Sent c (o.sent t))
    (hpending : th.pending = (s.thread t).pending) : Tallied c s' o where
  sent u := by
    rw [hthread]
    rcases eq_or_ne u t with rfl | hu
    · rwa [Function.update_self]
    · rw [Function.update_of_ne hu]
      exact h.sent u
  once u := by
    rw [hthread]
    rcases eq_or_ne u t with rfl | hu
    · rw [Function.update_self, hpending]
      exact h.once u
    · rw [Function.update_of_ne hu]
      exact h.once u
  sum := h.sum

theorem Tallied.same (h : Tallied c s o) (hthread : s'.thread = s.thread) : Tallied c s' o :=
  ⟨by rw [hthread]; exact h.sent, by rw [hthread]; exact h.once, h.sum⟩

theorem Tallied.deliver (h : Tallied c s o) (hpending : (s.thread t).pending = true) :
    Tallied c (s.setThread t { s.thread t with frame := some ⟨0, .head⟩, pending := false })
      { o with handled := Function.update o.handled t (o.handled t + 1) } where
  sent u := by
    simp only [State.setThread]
    rcases eq_or_ne u t with rfl | hu
    · rw [Function.update_self]
      exact h.sent u
    · rw [Function.update_of_ne hu]
      exact h.sent u
  once u := by
    simp only [State.setThread]
    rcases eq_or_ne u t with rfl | hu
    · have honce := h.once u
      rw [hpending] at honce
      rw [Function.update_self, Function.update_self]
      exact honce
    · rw [Function.update_of_ne hu, Function.update_of_ne hu]
      exact h.once u
  sum := h.sum

theorem sum_note {f : ℕ → ℕ} (ht : t ∈ Finset.Icc 1 c.numProcs) :
    ∑ u ∈ Finset.Icc 1 c.numProcs, Function.update f t (f t + 1) u = ∑ u ∈ Finset.Icc 1 c.numProcs, f u + 1 := by
  have hrest : ∑ u ∈ (Finset.Icc 1 c.numProcs).erase t, Function.update f t (f t + 1) u =
      ∑ u ∈ (Finset.Icc 1 c.numProcs).erase t, f u :=
    Finset.sum_congr rfl fun u hu => Function.update_of_ne (Finset.ne_of_mem_erase hu) _ _
  rw [← Finset.add_sum_erase _ _ ht, ← Finset.add_sum_erase _ f ht, hrest, Function.update_self]
  omega

theorem kill_thread (y u : ℕ) (s : State) : (kill y s).thread u = s.thread u ∨
    u = y ∧ (kill y s).thread u = { s.thread u with pending := true } := by
  unfold kill
  split
  · exact .inl rfl
  · rcases eq_or_ne u y with rfl | hu
    · exact .inr ⟨rfl, Function.update_self _ _ _⟩
    · exact .inl (Function.update_of_ne hu _ _)

theorem Tallied.kill (h : Tallied c s o) {y : ℕ} (hp : s.phase t = .kill) (ht : t ∈ Finset.Icc 1 c.numProcs)
    (hy : y ∈ Finset.Icc 1 c.numProcs) : Tallied c (kill y (s.goto t .outer))
      { o with sent := Function.update o.sent t (o.sent t + 1), sentTo := Function.update o.sentTo y (o.sentTo y + 1) } where
  sent u := by
    have hsent : ((s.goto t .outer).thread u).Sent c (Function.update o.sent t (o.sent t + 1) u) := by
      simp only [State.goto, State.setThread]
      rcases eq_or_ne u t with rfl | hu
      · rw [Function.update_self, Function.update_self]
        exact (h.sent u).kill hp
      · rw [Function.update_of_ne hu, Function.update_of_ne hu]
        exact h.sent u
    rcases kill_thread y u (s.goto t .outer) with heq | ⟨-, heq⟩
    · rwa [heq]
    · rw [heq]
      exact hsent
  once u := by
    have honce : o.handled u + ((s.goto t .outer).thread u).pending.toNat ≤ o.sentTo u := by
      simp only [State.goto, State.setThread]
      rcases eq_or_ne u t with rfl | hu
      · rw [Function.update_self]
        exact h.once u
      · rw [Function.update_of_ne hu]
        exact h.once u
    rcases eq_or_ne u y with rfl | hu
    · have hle : o.handled u ≤ o.sentTo u := (Nat.le_add_right _ _).trans honce
      show o.handled u + _ ≤ Function.update o.sentTo u (o.sentTo u + 1) u
      rw [Function.update_self]
      exact Nat.add_le_add hle (Bool.toNat_le _)
    · show o.handled u + _ ≤ Function.update o.sentTo y (o.sentTo y + 1) u
      rw [Function.update_of_ne hu, (kill_thread y u (s.goto t .outer)).resolve_right fun heq => hu heq.1]
      exact honce
  sum := (sum_note hy).trans ((congrArg (· + 1) h.sum).trans (sum_note ht).symm)

theorem Tallied.step (h : Tallied c s o) (I : Inv c s) (hok : ∀ t, ∃ n, (s.thread t).Ok c n) (hs : step c a s = some s') :
    Tallied c s' ((tally c).note a s o) := by
  have hgoto : ∀ {t p q}, s.phase t = p → (∀ n, Thread.Sent c n { s.thread t with phase := p } →
      Thread.Sent c n { s.thread t with phase := q }) → Thread.Sent c (o.sent t) { s.thread t with phase := q } :=
    fun hp hpq => (h.sent _).goto hp (hpq _)
  cases step_cases hs with
  | create i hmain hi =>
    have hunborn := I.fresh i hmain (i + 1) (Nat.lt_succ_self i)
    exact h.update rfl (hgoto (q := .setSelf) hunborn fun _ h => h) rfl
  | main => exact h.same rfl
  | setSelf t _ hp =>
    rw [note_body (by simp [hp])]
    exact h.update rfl (hgoto (q := .sigaction) hp fun _ h => h) rfl
  | sigaction t _ hp =>
    rw [note_body (by simp [hp])]
    exact h.update rfl (hgoto (q := .arrive) hp fun _ h => h) rfl
  | arrive t _ hp =>
    rw [note_body (by simp [hp])]
    exact h.update rfl (hgoto (q := .inBarrier _) hp fun _ h => h) rfl
  | pass t _ _ hp =>
    rw [note_body (by simp [hp])]
    refine h.update rfl (hgoto (q := .outer) hp fun n h => ?_) rfl
    obtain ⟨rfl, hi⟩ := h
    exact ⟨by simpa using hi, Nat.zero_le _⟩
  | enter t _ hp hi =>
    rw [note_body (by simp [hp])]
    obtain ⟨n, hok⟩ := hok t
    have hp' : (s.thread t).phase = .outer := hp
    exact h.update rfl ((h.sent t).enter hp hi (hok.head (by simp [hp']))) rfl
  | leave t _ hp hi =>
    rw [note_body (by simp [hp])]
    exact h.update rfl ((h.sent t).leave hp hi) rfl
  | exit t _ hp hexit =>
    rw [note_body (by simp [hp])]
    obtain ⟨n, hok⟩ := hok t
    exact h.update rfl ((h.sent t).exit hp hok.le hexit.2) rfl
  | access t r _ hp hgoes hr =>
    rw [note_body (by simp [hp])]
    exact h.update rfl ((h.sent t).access hp hgoes hr) rfl
  | kill t y hframe hp hself =>
    have ht : t ∈ Finset.Icc 1 c.numProcs := I.born t (by simp [hp])
    have htarget : s.target c t ∈ Finset.Icc 1 c.numProcs := target_mem ht
    rw [(I.ready hp htarget).1] at hself
    cases hself
    rw [note_kill hframe hp]
    exact h.kill hp ht htarget
  | arriveLast t _ hp =>
    rw [note_body (by simp [hp])]
    exact h.update rfl (hgoto (q := .inBarrierLast _) hp fun _ h => h) rfl
  | passLast t _ _ hp =>
    rw [note_body (by simp [hp])]
    exact h.update rfl (hgoto (q := .returned) hp fun _ h => h) rfl
  | handlerReturns t f hframe | handlerAccess t f _ hframe =>
    rw [note_frame hframe]
    exact h.update rfl (h.sent t) rfl
  | deliver t =>
    have hdeliver : Signal.deliver t s = some _ := hs
    obtain ⟨⟨hpending, -⟩, -⟩ := Option.ite_none_right_eq_some.mp hdeliver
    exact h.deliver hpending

theorem tallied_of_reachable (h : ((machine c behind).watch (tally c)).Reachable (s, o)) :
    (machine c behind).Reachable s ∧ Tallied c s o := by
  refine h.invariant (I := fun p => (machine c behind).Reachable p.1 ∧ Tallied c p.1 p.2) ⟨.init, tallied_start⟩
    fun a p q ⟨hp, hT⟩ _ hs => ?_
  obtain ⟨hstep, ho⟩ := watch_step_eq_some.mp hs
  rw [ho]
  exact ⟨hp.step a trivial hstep, hT.step (inv_of_reach hp) (ok_of_reachable hp) hstep⟩

/-! ### What is printed -/

theorem foldSig_succ {i : ℕ} (hi : 1 ≤ i) (sig : ℕ → ℕ) (v : ℤ) :
    foldSig (i + 1) sig v = signed (mix (sig i) (unsigned (foldSig i sig v))) := by
  obtain ⟨n, rfl⟩ := Nat.exists_eq_add_of_le hi
  rw [foldSig, show 1 + n + 1 - 1 = n + 1 by omega, List.range'_1_concat, List.foldl_concat, foldSig,
    Nat.add_sub_cancel_left]

theorem foldSig_end {i : ℕ} (hle : i = 1 ∨ i ≤ n) (hn : ¬ i < n) (sig : ℕ → ℕ) (v : ℤ) : foldSig i sig v = foldSig n sig v := by
  rcases hle with rfl | hle
  · simp only [foldSig, Nat.sub_self, show n - 1 = 0 by omega]
  · rw [show i = n by omega]

/-- All threads have returned. -/
def Over (c : Config) (s : State) : Prop := ∀ t, 1 ≤ t → t ≤ c.numProcs → s.phase t = .returned

/-- How far `main` has come. -/
def Printing (c : Config) (s : State) : Prop :=
  match s.main with
  | .create _ => True
  | .join i => ∀ t, 1 ≤ t → t ≤ i → s.phase t = .returned
  | .first => Over c s
  | .result i v => Over c s ∧ (1 ≤ i ∧ (i = 1 ∨ i ≤ c.numProcs)) ∧ v = foldSig i s.sig (signed (s.sig 0))
  | .result2 i v => Over c s ∧ (1 ≤ i ∧ (i = 1 ∨ i ≤ c.numProcs)) ∧
      v = foldSig i s.sig2 (foldSig c.numProcs s.sig (signed (s.sig 0)))
  | .printed v => Over c s ∧ v = signature c.numProcs s.sig s.sig2

theorem Printing.main (h : Printing c s) (hs : stepMain c s = some s') : Printing c s' := by
  unfold Printing at h
  unfold stepMain at hs
  split at hs
  case h_1 i hmain =>
    split at hs
    · cases hs
      trivial
    · cases hs
      exact fun t h1 h0 => absurd (h1.trans h0) (by decide)
  case h_2 i hmain =>
    rw [hmain] at h
    split at hs
    · obtain ⟨hreturned, ⟨⟩⟩ := Option.ite_none_right_eq_some.mp hs
      intro t h1 ht
      rcases Nat.le_succ_iff.mp ht with ht | rfl
      · exact h t h1 ht
      · exact hreturned
    · rename_i hi
      cases hs
      exact fun t h1 ht => h t h1 (ht.trans (not_lt.mp hi))
  case h_3 hmain =>
    rw [hmain] at h
    cases hs
    exact ⟨h, ⟨le_rfl, .inl rfl⟩, rfl⟩
  case h_4 i v hmain =>
    rw [hmain] at h
    obtain ⟨hover, ⟨h1, hle⟩, rfl⟩ := h
    split at hs
    · rename_i hi
      cases hs
      exact ⟨hover, ⟨Nat.le_add_left 1 i, .inr hi⟩, (foldSig_succ h1 _ _).symm⟩
    · rename_i hi
      cases hs
      exact ⟨hover, ⟨le_rfl, .inl rfl⟩, foldSig_end hle hi _ _⟩
  case h_5 i v hmain =>
    rw [hmain] at h
    obtain ⟨hover, ⟨h1, hle⟩, rfl⟩ := h
    split at hs
    · rename_i hi
      cases hs
      exact ⟨hover, ⟨Nat.le_add_left 1 i, .inr hi⟩, (foldSig_succ h1 _ _).symm⟩
    · rename_i hi
      cases hs
      exact ⟨hover, foldSig_end hle hi _ _⟩
  case h_6 => cases hs

/-- Only a thread that has been created and has not returned goes on. -/
theorem phase_step (hok : ∀ t, ∃ n, (s.thread t).Ok c n) (h : step c a s = some s') (ha : a ≠ .main) :
    ∃ t p, s.phase t ≠ .unborn ∧ s.phase t ≠ .returned ∧ s'.phase = Function.update s.phase t p := by
  cases step_cases h with
  | create | main => exact absurd rfl ha
  | setSelf t _ hp | sigaction t _ hp | arrive t _ hp | pass t _ _ hp | enter t _ hp | leave t _ hp | exit t _ hp
  | access t _ _ hp | arriveLast t _ hp | passLast t _ _ hp =>
    exact ⟨t, _, by simp [hp], by simp [hp], phase_update rfl⟩
  | kill t y _ hp => exact ⟨t, _, by simp [hp], by simp [hp], (phase_kill y).trans (phase_update rfl)⟩
  | handlerReturns t f hf | handlerAccess t f _ hf =>
    obtain ⟨n, hok⟩ := hok t
    exact ⟨t, _, (hok.running hf).1, (hok.running hf).2, phase_update rfl⟩
  | deliver t _ _ hborn hreturned => exact ⟨t, _, hborn, hreturned, phase_update rfl⟩

theorem Printing.step (h : Printing c s) (I : Inv c s) (hok : ∀ t, ∃ n, (s.thread t).Ok c n) (hs : step c a s = some s') :
    Printing c s' := by
  by_cases ha : a = .main
  · subst ha
    exact h.main hs
  · obtain ⟨t, p, hborn, hlive, hphase⟩ := phase_step hok hs ha
    have hnot : ¬ Over c s := fun hover => by
      obtain ⟨h1, hn⟩ := Finset.mem_Icc.mp (I.born t hborn)
      exact hlive (hover t h1 hn)
    unfold Printing at h ⊢
    rw [main_step hs ha]
    cases hmain : s.main with
    | create i => trivial
    | join i =>
      rw [hmain] at h
      intro u h1 hu
      have hreturned := h u h1 hu
      have hne : u ≠ t := fun heq => hlive (heq ▸ hreturned)
      rw [hphase, Function.update_of_ne hne]
      exact hreturned
    | first =>
      rw [hmain] at h
      exact absurd h hnot
    | result i v | result2 i v | printed v =>
      rw [hmain] at h
      exact absurd h.1 hnot

theorem printing_of_reachable (h : (machine c behind).Reachable s) : Printing c s := by
  refine (h.invariant (I := fun s => (machine c behind).Reachable s ∧ Printing c s) ⟨.init, trivial⟩
    fun a s s' ⟨hs, hP⟩ _ hstep => ?_).2
  exact ⟨hs.step a trivial hstep, hP.step (inv_of_reach hs) (ok_of_reachable hs) hstep⟩

/-- Whatever is printed, each thread has sent as many signals as its iterations call for; and it is the signature of what
    independent mixers compute, one for the iterations of each thread and one for those of its handlers. At all times as
    many signals have been sent to the threads as by them, and no signal is handled twice, or without having been sent. -/
theorem signals_accounted (h : ((machine c behind).watch (tally c)).Reachable (s, o)) :
    ∑ t ∈ Finset.Icc 1 c.numProcs, o.sentTo t = ∑ t ∈ Finset.Icc 1 c.numProcs, o.sent t ∧
      (∀ t, o.handled t + (s.thread t).pending.toNat ≤ o.sentTo t) ∧
      ∀ v, s.main = .printed v → (∀ t, 1 ≤ t → t ≤ c.numProcs → o.sent t = signals c) ∧
        ∃ a, (mixers (quota c o.handled) behind).Reachable a ∧ (∀ x, a.thread x = ⟨quota c o.handled x, .head⟩) ∧
          v = signature c.numProcs a.sig a.sig2 := by
  obtain ⟨hs, hT⟩ := tallied_of_reachable h
  refine ⟨hT.sum, hT.once, fun v hv => ?_⟩
  obtain ⟨I, S⟩ := sim_of_reach (handled_of_reachable h)
  have hP := printing_of_reachable hs
  unfold Printing at hP
  rw [hv] at hP
  obtain ⟨hover, rfl⟩ := hP
  have hthread := S.thread_eq I hover
  refine ⟨fun t h1 hn => ?_, s.mixers o.handled, reachable_of_endless S.reach fun x => ?_, hthread, rfl⟩
  · have hsent := hT.sent t
    have hreturned : (s.thread t).phase = .returned := hover t h1 hn
    simpa only [Thread.Sent, hreturned] using hsent
  · rw [hthread x, accesses, Nat.add_zero]

/-- Thread 2 handles the signal that thread 1 has sent; thread 1 returns before it handles the one of thread 2. -/
theorem signals_accounted_two : ∃ (s : State) (o : Tally), s.main = .printed 101760914 ∧ o.handled 1 = 0 ∧ o.handled 2 = 1 ∧
    o.sentTo 1 + o.sentTo 2 = o.sent 1 + o.sent 2 ∧ o.sent 1 = signals ⟨2, 1⟩ ∧
      ∃ a, (mixers (quota ⟨2, 1⟩ o.handled) 0).Reachable a ∧ (∀ x, a.thread x = ⟨quota ⟨2, 1⟩ o.handled x, .head⟩) ∧
        101760914 = signature 2 a.sig a.sig2 := by
  obtain ⟨⟨s, o⟩, hs, hp⟩ := exists_reachable (M := (machine ⟨2, 1⟩ 0).watch (tally ⟨2, 1⟩))
    (p := fun p => decide (p.1.main = .printed 101760914 ∧ p.2.handled 1 = 0 ∧ p.2.handled 2 = 1))
    (interrupted ++ List.replicate 8 .main) (by decide +kernel)
  obtain ⟨hmain, h1, h2⟩ := of_decide_eq_true hp
  obtain ⟨hsum, -, hprinted⟩ := signals_accounted hs
  obtain ⟨hsent, ha⟩ := hprinted 101760914 hmain
  exact ⟨s, o, hmain, h1, h2, hsum, hsent 1 le_rfl (by decide), ha⟩

end Racey.Signal
