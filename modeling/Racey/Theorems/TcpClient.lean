import Racey.Lib.Holders
import Racey.TcpClient

/-! The threads of racey-tcp-client send the quotes in order, each on a connection of its own, and close what they have
    connected. The invariant goes back and forth between the threads and the connections: a thread that writes or closes has a
    connection, and a connection that is not closed has a thread. -/

namespace Racey.TcpClient
open Machine Holders

variable {s s' : State} {d : List (ℕ × ℕ)} {a : Move} {w n k : ℕ}

/-! ### Steps -/

inductive Step (s : State) : Move → State → Prop
  | create (i : ℕ) : s.main = .creating i → i < workerNum →
      Step s .main { s.setWorker i (.socket 0) with main := .creating (i + 1) }
  | created (i : ℕ) : s.main = .creating i → workerNum ≤ i → Step s .main { s with main := .joining 0 }
  | join (i n : ℕ) (lost : Option ℤ) : s.main = .joining i → i < workerNum → s.worker i = .returned n lost →
      Step s .main { s with main := .joining (i + 1) }
  | joined (i : ℕ) : s.main = .joining i → workerNum ≤ i → Step s .main { s with main := .returned }
  | socket (w n : ℕ) (fd : ℤ) : s.worker w = .socket n → quote n ≠ [] → s.conn fd = none →
      Step s (.socket w fd) ((s.setWorker w (.connect n fd)).setConn fd (some none))
  | socketFails (w n : ℕ) : s.worker w = .socket n → Step s (.socketFails w) (s.setWorker w (.returned n none))
  | connect (w n : ℕ) (fd : ℤ) : s.worker w = .connect n fd → Step s (.connect w)
      { (s.setWorker w (.write n fd)).setConn fd (some (some s.connected)) with connected := s.connected + 1 }
  | connectFails (w n : ℕ) (fd : ℤ) : s.worker w = .connect n fd →
      Step s (.connectFails w) (s.setWorker w (.returned n (some fd)))
  | write (w n k : ℕ) (fd : ℤ) : s.worker w = .write n fd → s.conn fd = some (some k) → Step s (.write w)
      { s.setWorker w (.close (n + 1) fd) with sent := Function.update s.sent k (s.sent k ++ message n) }
  | close (w n k : ℕ) (fd : ℤ) : s.worker w = .close n fd → s.conn fd = some (some k) → Step s (.close w)
      { (s.setWorker w (.socket n)).setConn fd none with closed := Function.update s.closed k true }
  | leave (w n : ℕ) : s.worker w = .socket n → quote n = [] → Step s (.leave w) (s.setWorker w (.returned n none))

theorem main_cases (h : stepMain s = some s') : Step s .main s' := by
  unfold stepMain at h
  split at h
  · rename_i i hmain
    split at h
    · rename_i hi
      cases h
      exact .create i hmain hi
    · rename_i hi
      cases h
      exact .created i hmain (not_lt.mp hi)
  · rename_i i hmain
    split at h
    · rename_i hi
      split at h
      · rename_i n lost hw
        cases h
        exact .join i n lost hmain hi hw
      · cases h
    · rename_i hi
      cases h
      exact .joined i hmain (not_lt.mp hi)
  · cases h

theorem step_cases (h : step a s = some s') : Step s a s' := by
  cases a with
  | main => exact main_cases h
  | socket w fd =>
    simp only [step] at h
    split at h
    · rename_i n hw
      obtain ⟨⟨hquote, -, hfd⟩, h⟩ := Option.ite_none_right_eq_some.mp h
      cases h
      exact .socket w n fd hw hquote hfd
    · cases h
  | socketFails w =>
    simp only [step] at h
    split at h
    · rename_i n hw
      obtain ⟨-, h⟩ := Option.ite_none_right_eq_some.mp h
      cases h
      exact .socketFails w n hw
    · cases h
  | connect w =>
    simp only [step] at h
    split at h
    · rename_i n fd hw
      cases h
      exact .connect w n fd hw
    · cases h
  | connectFails w =>
    simp only [step] at h
    split at h
    · rename_i n fd hw
      cases h
      exact .connectFails w n fd hw
    · cases h
  | write w =>
    simp only [step] at h
    split at h
    · rename_i n fd hw
      split at h
      · rename_i k hk
        cases h
        exact .write w n k fd hw hk
      · cases h
    · cases h
  | close w =>
    simp only [step] at h
    split at h
    · rename_i n fd hw
      split at h
      · rename_i k hk
        cases h
        exact .close w n k fd hw hk
      · cases h
    · cases h
  | leave w =>
    simp only [step] at h
    split at h
    · rename_i n hw
      obtain ⟨hquote, h⟩ := Option.ite_none_right_eq_some.mp h
      cases h
      exact .leave w n hw hquote
    · cases h

@[simp] theorem setWorker_self (pc : Pc) : (s.setWorker w pc).worker w = pc := by simp [State.setWorker]

@[simp] theorem setWorker_of_ne {v : ℕ} (h : v ≠ w) (pc : Pc) : (s.setWorker w pc).worker v = s.worker v := by
  simp [State.setWorker, h]

@[simp] theorem setConn_self (fd : ℤ) (x : Option (Option ℕ)) : (s.setConn fd x).conn fd = x := by simp [State.setConn]

theorem setConn_of_ne {fd fd' : ℤ} (h : fd' ≠ fd) (x : Option (Option ℕ)) : (s.setConn fd x).conn fd' = s.conn fd' :=
  Function.update_of_ne h _ _

theorem length_le_of_quote (h : quote n = []) : quotes.length ≤ n := by
  have hall : ∀ m < quotes.length, quote m ≠ [] := by decide +kernel
  exact not_lt.mp fun hn => hall n hn h

theorem lt_length_of_quote (h : quote n ≠ []) : n < quotes.length := by
  refine not_le.mp fun hn => h ?_
  rw [quote, List.getD_eq_getElem?_getD, List.getElem?_eq_none hn]
  rfl

/-! ### The invariant -/

/-- The socket that a thread has. -/
def Pc.fd : Pc → Option ℤ
  | .connect _ fd | .write _ fd | .close _ fd => some fd
  | .returned _ lost => lost
  | _ => none

/-- The socket that a thread has not connected. -/
def Pc.unconnected : Pc → Option ℤ
  | .connect _ fd => some fd
  | .returned _ lost => lost
  | _ => none

/-- The quote for which a thread has a connection, and what it has sent on it. -/
def Pc.carries : Pc → Option (ℕ × ℤ × List UInt8)
  | .write n fd => some (n, fd, [])
  | .close n fd => some (n - 1, fd, message (n - 1))
  | _ => none

/-- A thread that is going to connect a socket has a quote to send. -/
def Pc.Bounded : Pc → Prop
  | .connect n _ => n < quotes.length
  | pc => pc.made ≤ quotes.length

/-- What holds of a thread and of its connections. -/
structure Party (s : State) (d : List (ℕ × ℕ)) (w : ℕ) : Prop where
  in_order : Interleave.of w d = List.range (s.worker w).made
  bounded : (s.worker w).Bounded
  born : s.worker w ≠ .unborn → w < workerNum
  unconnected : ∀ fd, (s.worker w).unconnected = some fd → s.conn fd = some none
  carries : ∀ n fd bytes, (s.worker w).carries = some (n, fd, bytes) →
    ∃ k, d[k]? = some (w, n) ∧ s.conn fd = some (some k) ∧ s.closed k = false ∧ s.sent k = bytes
  live : ∀ k n, d[k]? = some (w, n) → s.closed k = false →
    ∃ fd bytes, (s.worker w).carries = some (n, fd, bytes) ∧ s.conn fd = some (some k)
  done : ∀ k n, d[k]? = some (w, n) → s.closed k = true → s.sent k = message n

structure Inv (s : State) (d : List (ℕ × ℕ)) : Prop where
  length : d.length = s.connected
  party : ∀ w, Party s d w
  owned : Owned (fun w => (s.worker w).fd) fun fd => s.conn fd ≠ none
  fresh : ∀ k, s.connected ≤ k → s.closed k = false ∧ s.sent k = []

theorem inv_start : Inv start [] where
  length := rfl
  party w := by
    refine ⟨rfl, Nat.zero_le _, fun h => absurd rfl h, ?_, ?_, ?_, ?_⟩
    · rintro fd ⟨⟩
    · rintro n fd bytes ⟨⟩
    · rintro k n ⟨⟩
    · rintro k n ⟨⟩
  owned := by
    have hlive : (fun fd => start.conn fd ≠ none) = fun _ => False := by
      funext fd
      simp [start]
    rw [hlive]
    exact Owned.empty
  fresh k _ := ⟨rfl, rfl⟩

theorem Pc.fd_of_unconnected {pc : Pc} {fd : ℤ} (h : pc.unconnected = some fd) : pc.fd = some fd := by
  cases pc <;> first | exact h | cases h

theorem Pc.fd_of_carries {pc : Pc} {fd : ℤ} {bytes : List UInt8} (h : pc.carries = some (n, fd, bytes)) : pc.fd = some fd := by
  cases pc with
  | write | close =>
    cases h
    rfl
  | _ => cases h

/-- A step that changes nothing about what a thread has of the sockets, and nothing about these. -/
theorem Party.keep (P : Party s d w) {d' : List (ℕ × ℕ)} (hmade : (s'.worker w).made = (s.worker w).made)
    (hun : (s'.worker w).unconnected = (s.worker w).unconnected) (hcarries : (s'.worker w).carries = (s.worker w).carries)
    (hbounded : (s'.worker w).Bounded) (hborn : s'.worker w ≠ .unborn → w < workerNum)
    (hconn : ∀ fd, (s.worker w).fd = some fd → s'.conn fd = s.conn fd) (hof : Interleave.of w d' = Interleave.of w d)
    (hc : ∀ (k n : ℕ), d'[k]? = some (w, n) ↔ d[k]? = some (w, n))
    (hk : ∀ k n, d[k]? = some (w, n) → s'.closed k = s.closed k ∧ s'.sent k = s.sent k) : Party s' d' w where
  in_order := by rw [hof, hmade, P.in_order]
  bounded := hbounded
  born := hborn
  unconnected fd h := by
    rw [hun] at h
    rw [hconn fd (Pc.fd_of_unconnected h)]
    exact P.unconnected fd h
  carries n fd bytes h := by
    rw [hcarries] at h
    obtain ⟨k, hck, hfd, hclosed, hsent⟩ := P.carries n fd bytes h
    refine ⟨k, (hc k n).mpr hck, ?_, ?_, ?_⟩
    · rw [hconn fd (Pc.fd_of_carries h), hfd]
    · rw [(hk k n hck).1, hclosed]
    · rw [(hk k n hck).2, hsent]
  live k n hck hclosed := by
    rw [hc] at hck
    rw [(hk k n hck).1] at hclosed
    obtain ⟨fd, bytes, h, hfd⟩ := P.live k n hck hclosed
    refine ⟨fd, bytes, hcarries.trans h, ?_⟩
    rw [hconn fd (Pc.fd_of_carries h), hfd]
  done k n hck hclosed := by
    rw [hc] at hck
    rw [(hk k n hck).1] at hclosed
    rw [(hk k n hck).2]
    exact P.done k n hck hclosed

/-- A step of another thread. -/
theorem Party.other (P : Party s d w) {d' : List (ℕ × ℕ)} (hworker : s'.worker w = s.worker w)
    (hconn : ∀ fd, (s.worker w).fd = some fd → s'.conn fd = s.conn fd) (hof : Interleave.of w d' = Interleave.of w d)
    (hc : ∀ (k n : ℕ), d'[k]? = some (w, n) ↔ d[k]? = some (w, n))
    (hk : ∀ k n, d[k]? = some (w, n) → s'.closed k = s.closed k ∧ s'.sent k = s.sent k) : Party s' d' w :=
  P.keep (by rw [hworker]) (by rw [hworker]) (by rw [hworker]) (by rw [hworker]; exact P.bounded)
    (by rw [hworker]; exact P.born) hconn hof hc hk

/-- What there is to show of a thread that has gone to `pc`. -/
theorem Party.of_pc (pc : Pc) (hself : s'.worker w = pc) (hw : w < workerNum) (hbounded : pc.Bounded)
    (hof : Interleave.of w d = List.range pc.made) (hun : ∀ fd, pc.unconnected = some fd → s'.conn fd = some none)
    (hcarries : ∀ n fd bytes, pc.carries = some (n, fd, bytes) →
      ∃ k, d[k]? = some (w, n) ∧ s'.conn fd = some (some k) ∧ s'.closed k = false ∧ s'.sent k = bytes)
    (hlive : ∀ (k n : ℕ), d[k]? = some (w, n) → s'.closed k = false →
      ∃ fd bytes, pc.carries = some (n, fd, bytes) ∧ s'.conn fd = some (some k))
    (hdone : ∀ (k n : ℕ), d[k]? = some (w, n) → s'.closed k = true → s'.sent k = message n) : Party s' d w := by
  subst hself
  exact ⟨hof, hbounded, fun _ => hw, hun, hcarries, hlive, hdone⟩

theorem fds_setWorker (pc : Pc) :
    (fun v => ((s.setWorker w pc).worker v).fd) = Function.update (fun v => (s.worker v).fd) w pc.fd := by
  funext v
  by_cases hv : v = w
  · subst hv
    simp
  · simp [hv]

/-- A thread goes on with what it has. -/
theorem Inv.goto (I : Inv s d) (pc : Pc) (hw : w < workerNum) (hmade : pc.made = (s.worker w).made)
    (hfd : pc.fd = (s.worker w).fd) (hun : pc.unconnected = (s.worker w).unconnected)
    (hcarries : pc.carries = (s.worker w).carries) (hbounded : pc.Bounded) : Inv (s.setWorker w pc) d where
  length := I.length
  party v := by
    by_cases hv : v = w
    · subst hv
      refine (I.party v).keep ?_ ?_ ?_ ?_ (fun _ => hw) (fun _ _ => rfl) rfl (fun _ _ => Iff.rfl) fun _ _ _ => ⟨rfl, rfl⟩
      · rw [setWorker_self, hmade]
      · rw [setWorker_self, hun]
      · rw [setWorker_self, hcarries]
      · rwa [setWorker_self]
    · exact (I.party v).other (setWorker_of_ne hv pc) (fun _ _ => rfl) rfl (fun _ _ => Iff.rfl) fun _ _ _ => ⟨rfl, rfl⟩
  owned := by
    rw [fds_setWorker, hfd, Function.update_eq_self]
    exact I.owned
  fresh := I.fresh

/-- A step of `main` that creates no thread. -/
theorem Inv.wait (I : Inv s d) (pc : MainPc) : Inv { s with main := pc } d where
  length := I.length
  party v := (I.party v).other rfl (fun _ _ => rfl) rfl (fun _ _ => Iff.rfl) fun _ _ _ => ⟨rfl, rfl⟩
  owned := I.owned
  fresh := I.fresh

/-- The connections of a thread that has none at the moment are closed. -/
theorem Party.closed (P : Party s d w) (h : (s.worker w).carries = none) (hk : d[k]? = some (w, n)) : s.closed k = true := by
  by_contra hopen
  obtain ⟨fd, bytes, hcarries, -⟩ := P.live k n hk (eq_false_of_ne_true hopen)
  rw [h] at hcarries
  cases hcarries

theorem opened (fd : ℤ) (x : Option ℕ) :
    (fun fd' => (s.setConn fd (some x)).conn fd' ≠ none) = fun fd' => fd' = fd ∨ s.conn fd' ≠ none := by
  funext fd'
  by_cases h : fd' = fd <;> simp [State.setConn, h]

theorem shut (fd : ℤ) : (fun fd' => (s.setConn fd none).conn fd' ≠ none) = fun fd' => fd' ≠ fd ∧ s.conn fd' ≠ none := by
  funext fd'
  by_cases h : fd' = fd <;> simp [State.setConn, h]

/-- Another thread has other sockets. -/
theorem Inv.fd_ne (I : Inv s d) {v : ℕ} {fd fd' : ℤ} (hv : v ≠ w) (hfd : (s.worker w).fd = some fd)
    (hfd' : (s.worker v).fd = some fd') : fd' ≠ fd := by
  rintro rfl
  exact hv (I.owned.unique v w fd' hfd' hfd)

theorem Inv.socket (I : Inv s d) {fd : ℤ} (hpc : s.worker w = .socket n) (hn : n < quotes.length) (hfd : s.conn fd = none) :
    Inv ((s.setWorker w (.connect n fd)).setConn fd (some none)) d where
  length := I.length
  party v := by
    by_cases hv : v = w
    · subst hv
      have P := I.party v
      refine .of_pc (.connect n fd) (setWorker_self _) (P.born (by simp [hpc])) hn ?_ ?_ (by rintro m fd' bytes ⟨⟩) ?_ P.done
      · rw [P.in_order, hpc]
        rfl
      · rintro fd' ⟨⟩
        exact setConn_self _ _
      · exact fun k m hk h => absurd (P.closed (by rw [hpc]; rfl) hk) (ne_true_of_eq_false h)
    · refine (I.party v).other (setWorker_of_ne hv _) (fun fd' hfd' => setConn_of_ne ?_ _) rfl (fun _ _ => Iff.rfl)
        fun _ _ _ => ⟨rfl, rfl⟩
      rintro rfl
      exact (I.owned.live_iff fd').mpr ⟨v, hfd'⟩ hfd
  owned := by
    have hgive := I.owned.give (r := fd) (h := w) (by simp [hfd]) (by rw [hpc]; rfl)
    rw [opened]
    show Owned (fun v => ((s.setWorker w (.connect n fd)).worker v).fd) _
    rw [fds_setWorker]
    exact hgive
  fresh := I.fresh

theorem getElem?_snoc_of_ne {p q : ℕ × ℕ} (h : p ≠ q) : (d ++ [p])[k]? = some q ↔ d[k]? = some q := by
  rcases lt_or_ge k d.length with hk | hk
  · rw [List.getElem?_append_left hk]
  · rw [List.getElem?_append_right hk, List.getElem?_eq_none hk]
    cases k - d.length <;> simp [h]

theorem Inv.connect (I : Inv s d) {fd : ℤ} (hpc : s.worker w = .connect n fd) :
    Inv { (s.setWorker w (.write n fd)).setConn fd (some (some s.connected)) with connected := s.connected + 1 }
      (d ++ [(w, n)]) where
  length := by rw [List.length_append, I.length, List.length_singleton]
  party v := by
    have hlast : (d ++ [(w, n)])[s.connected]? = some (w, n) := by
      rw [← I.length]
      exact List.getElem?_concat_length
    have hfd : (s.worker w).fd = some fd := by rw [hpc]; rfl
    by_cases hv : v = w
    · subst hv
      have P := I.party v
      have hbounded := P.bounded
      rw [hpc] at hbounded
      -- The connections before the new one are closed.
      have hk : ∀ {k m}, (d ++ [(v, n)])[k]? = some (v, m) →
          d[k]? = some (v, m) ∧ s.closed k = true ∨ k = s.connected ∧ m = n := by
        intro k m hk
        rcases lt_or_ge k d.length with hlt | hge
        · rw [List.getElem?_append_left hlt] at hk
          exact .inl ⟨hk, P.closed (by rw [hpc]; rfl) hk⟩
        · have heq : k = s.connected := by
            have hlt := (List.getElem?_eq_some_iff.mp hk).1
            rw [List.length_append, List.length_singleton] at hlt
            have := I.length
            omega
          rw [heq, hlast] at hk
          cases hk
          exact .inr ⟨heq, rfl⟩
      obtain ⟨hclosed, hsent⟩ := I.fresh s.connected (le_refl _)
      refine .of_pc (.write n fd) (setWorker_self _) (P.born (by simp [hpc])) hbounded ?_ (by rintro fd' ⟨⟩) ?_ ?_ ?_
      · rw [Interleave.of_snoc, if_pos rfl, P.in_order, hpc]
        exact List.range_succ.symm
      · rintro m fd' bytes ⟨⟩
        exact ⟨s.connected, hlast, setConn_self _ _, hclosed, hsent⟩
      · intro k m hkm h
        rcases hk hkm with ⟨-, hk⟩ | ⟨rfl, rfl⟩
        · exact absurd hk (ne_true_of_eq_false h)
        · exact ⟨fd, [], rfl, setConn_self _ _⟩
      · intro k m hkm h
        rcases hk hkm with ⟨hkm, -⟩ | ⟨rfl, -⟩
        · exact P.done k m hkm h
        · exact absurd h (ne_true_of_eq_false hclosed)
    · refine (I.party v).other (setWorker_of_ne hv _) (fun fd' hfd' => setConn_of_ne (I.fd_ne hv hfd hfd') _) ?_ (fun k m => ?_)
        fun _ _ _ => ⟨rfl, rfl⟩
      · rw [Interleave.of_snoc, if_neg (Ne.symm hv)]
      · exact getElem?_snoc_of_ne fun heq => hv (Prod.mk.inj heq).1.symm
  owned := by
    rw [show (fun fd' => State.conn _ fd' ≠ none) = _ from opened (s := s.setWorker w (.write n fd)) fd _]
    show Owned (fun v => ((s.setWorker w (.write n fd)).worker v).fd) _
    have hlive : (fun fd' => fd' = fd ∨ s.conn fd' ≠ none) = fun fd' => s.conn fd' ≠ none := by
      funext fd'
      refine propext (or_iff_right_of_imp ?_)
      rintro rfl
      exact (I.owned.live_iff fd').mpr ⟨w, by rw [hpc]; rfl⟩
    rw [fds_setWorker, show (Pc.write n fd).fd = (s.worker w).fd by rw [hpc]; rfl, Function.update_eq_self]
    exact hlive ▸ I.owned
  fresh k hk := I.fresh k (Nat.le_of_succ_le hk)

theorem Inv.write (I : Inv s d) {fd : ℤ} (hpc : s.worker w = .write n fd) (hfd : s.conn fd = some (some k)) :
    Inv { s.setWorker w (.close (n + 1) fd) with sent := Function.update s.sent k (s.sent k ++ message n) } d where
  length := I.length
  party v := by
    obtain ⟨j, hk, hj, hclosed, hsent⟩ := (I.party w).carries n fd [] (by rw [hpc]; rfl)
    rw [hfd] at hj
    cases hj
    by_cases hv : v = w
    · subst hv
      have P := I.party v
      have hbounded := P.bounded
      rw [hpc] at hbounded
      refine .of_pc (.close (n + 1) fd) (setWorker_self _) (P.born (by simp [hpc])) hbounded ?_ (by rintro fd' ⟨⟩) ?_ ?_ ?_
      · rw [P.in_order, hpc]
        rfl
      · rintro m fd' bytes ⟨⟩
        refine ⟨k, hk, hfd, hclosed, (Function.update_self ..).trans ?_⟩
        rw [hsent]
        rfl
      · intro j m hj h
        obtain ⟨fd', bytes, hcarries, hfd'⟩ := P.live j m hj h
        rw [hpc] at hcarries
        cases hcarries
        exact ⟨fd, message n, rfl, hfd'⟩
      · intro j m hj h
        have hjk : j ≠ k := by
          rintro rfl
          exact absurd h (ne_true_of_eq_false hclosed)
        exact (Function.update_of_ne hjk _ _).trans (P.done j m hj h)
    · refine (I.party v).other (setWorker_of_ne hv _) (fun _ _ => rfl) rfl (fun _ _ => Iff.rfl) fun j m hj =>
        ⟨rfl, Function.update_of_ne ?_ _ _⟩
      rintro rfl
      rw [hk] at hj
      cases hj
      exact hv rfl
  owned := by
    show Owned (fun v => ((s.setWorker w (.close (n + 1) fd)).worker v).fd) _
    rw [fds_setWorker, show (Pc.close (n + 1) fd).fd = (s.worker w).fd by rw [hpc]; rfl, Function.update_eq_self]
    exact I.owned
  fresh j hj := by
    obtain ⟨i, hk, hi, -⟩ := (I.party w).carries n fd [] (by rw [hpc]; rfl)
    rw [hfd] at hi
    cases hi
    have hlt := (List.getElem?_eq_some_iff.mp hk).1
    have hlength := I.length
    have hjk : j ≠ k := by
      have hj : s.connected ≤ j := hj
      omega
    exact ⟨(I.fresh j hj).1, (Function.update_of_ne hjk _ _).trans (I.fresh j hj).2⟩

theorem Inv.close (I : Inv s d) {fd : ℤ} (hpc : s.worker w = .close n fd) (hfd : s.conn fd = some (some k)) :
    Inv { (s.setWorker w (.socket n)).setConn fd none with closed := Function.update s.closed k true } d where
  length := I.length
  party v := by
    have hw : (s.worker w).fd = some fd := by rw [hpc]; rfl
    obtain ⟨j, hk, hj, hclosed, hsent⟩ := (I.party w).carries (n - 1) fd (message (n - 1)) (by rw [hpc]; rfl)
    rw [hfd] at hj
    cases hj
    by_cases hv : v = w
    · subst hv
      have P := I.party v
      have hbounded := P.bounded
      rw [hpc] at hbounded
      refine .of_pc (.socket n) (setWorker_self _) (P.born (by simp [hpc])) hbounded ?_ (by rintro fd' ⟨⟩)
        (by rintro m fd' bytes ⟨⟩) (fun j m hj h => ?_) fun j m hj h => ?_
      · rw [P.in_order, hpc]
        rfl
      · have hjk : j ≠ k := by
          rintro rfl
          exact absurd (Function.update_self ..) (ne_true_of_eq_false h)
        obtain ⟨fd', bytes, hcarries, hfd'⟩ := P.live j m hj ((Function.update_of_ne hjk _ _).symm.trans h)
        rw [hpc] at hcarries
        cases hcarries
        rw [hfd] at hfd'
        cases hfd'
        exact absurd rfl hjk
      · by_cases hjk : j = k
        · subst hjk
          rw [hk] at hj
          cases hj
          exact hsent
        · exact P.done j m hj ((Function.update_of_ne hjk _ _).symm.trans h)
    · refine (I.party v).other (setWorker_of_ne hv _) (fun fd' hfd' => setConn_of_ne (I.fd_ne hv hw hfd') _) rfl
        (fun _ _ => Iff.rfl) fun j m hj => ⟨Function.update_of_ne ?_ _ _, rfl⟩
      rintro rfl
      rw [hk] at hj
      cases hj
      exact hv rfl
  owned := by
    rw [show (fun fd' => State.conn _ fd' ≠ none) = _ from shut (s := s.setWorker w (.socket n)) fd]
    show Owned (fun v => ((s.setWorker w (.socket n)).worker v).fd) _
    rw [fds_setWorker]
    exact I.owned.drop (h := w) (r := fd) (by rw [hpc]; rfl)
  fresh j hj := by
    obtain ⟨i, hk, hi, -⟩ := (I.party w).carries (n - 1) fd (message (n - 1)) (by rw [hpc]; rfl)
    rw [hfd] at hi
    cases hi
    have hlt := (List.getElem?_eq_some_iff.mp hk).1
    have hlength := I.length
    have hjk : j ≠ k := by
      have hj : s.connected ≤ j := hj
      omega
    exact ⟨(Function.update_of_ne hjk _ _).trans (I.fresh j hj).1, (I.fresh j hj).2⟩

/-! ### `main` -/

def MainPc.created : MainPc → ℕ
  | .creating i => i
  | _ => workerNum

def MainPc.joined : MainPc → ℕ
  | .creating _ => 0
  | .joining i => i
  | .returned => workerNum

/-- The threads that `main` has created are there, and those that it has joined have returned. -/
structure Phase (s : State) : Prop where
  created_le : s.main.created ≤ workerNum
  unborn_iff : ∀ w, s.worker w = .unborn ↔ s.main.created ≤ w
  joined : ∀ w < s.main.joined, ∃ n lost, s.worker w = .returned n lost

theorem phase_start : Phase start where
  created_le := Nat.zero_le _
  unborn_iff w := iff_of_true rfl (Nat.zero_le w)
  joined w hw := absurd hw (Nat.not_lt_zero w)

/-- The thread has not been created, or has returned. -/
def Pc.Still (pc : Pc) : Prop := pc = .unborn ∨ ∃ n lost, pc = .returned n lost

/-- A thread that moves is there before and after, and has not returned before. -/
theorem Step.still (h : Step s a s') (ha : a ≠ .main) : s'.main = s.main ∧
    (∀ v, (s.worker v).Still → s'.worker v = s.worker v) ∧ ∀ v, s.worker v ≠ .unborn → s'.worker v ≠ .unborn := by
  have hother : ∀ {w pc} {v : ℕ}, ¬ (s.worker w).Still → (s.worker v).Still →
      Function.update s.worker w pc v = s.worker v := fun hw hv => by
    refine Function.update_of_ne ?_ _ _
    rintro rfl
    exact hw hv
  have hthere : ∀ {w pc} {v : ℕ}, pc ≠ .unborn → s.worker v ≠ .unborn → Function.update s.worker w pc v ≠ .unborn := by
    intro w pc v hpc hv
    by_cases heq : v = w
    · rwa [heq, Function.update_self]
    · rwa [Function.update_of_ne heq]
  cases h with
  | create | created | join | joined => exact absurd rfl ha
  | socket w n fd hpc | connect w n fd hpc | connectFails w n fd hpc | write w n k fd hpc | close w n k fd hpc
  | socketFails w n hpc | leave w n hpc =>
    exact ⟨rfl, fun v => hother (by simp [hpc, Pc.Still]), fun v => hthere (by simp)⟩

theorem Phase.create (H : Phase s) {i : ℕ} (hmain : s.main = .creating i) (hi : i < workerNum) :
    Phase { s.setWorker i (.socket 0) with main := .creating (i + 1) } where
  created_le := hi
  unborn_iff w := by
    have h := H.unborn_iff w
    rw [hmain] at h
    show (s.setWorker i (.socket 0)).worker w = .unborn ↔ i + 1 ≤ w
    by_cases hw : w = i
    · subst hw
      simp
    · rw [setWorker_of_ne hw, h]
      show i ≤ w ↔ i + 1 ≤ w
      omega
  joined w hw := absurd hw (Nat.not_lt_zero w)

theorem Phase.step (H : Phase s) (h : Step s a s') : Phase s' := by
  have hunborn := H.unborn_iff
  have hjoined := H.joined
  rcases eq_or_ne a .main with rfl | ha
  · cases h with
    | create i hmain hi => exact H.create hmain hi
    | created i hmain hi =>
      have hle := H.created_le
      rw [hmain] at hunborn hle
      obtain rfl : i = workerNum := le_antisymm hle hi
      exact ⟨le_refl _, hunborn, fun w hw => absurd hw (Nat.not_lt_zero w)⟩
    | join i n lost hmain hi hw =>
      rw [hmain] at hunborn hjoined
      refine ⟨le_refl _, hunborn, fun v hv => ?_⟩
      rcases Nat.lt_succ_iff_lt_or_eq.mp hv with hv | rfl
      · exact hjoined v hv
      · exact ⟨n, lost, hw⟩
    | joined i hmain hi =>
      rw [hmain] at hunborn hjoined
      exact ⟨le_refl _, hunborn, fun w hw => hjoined w (lt_of_lt_of_le hw hi)⟩
  · obtain ⟨hmain, hstill, hmoved⟩ := h.still ha
    refine ⟨hmain ▸ H.created_le, fun w => ?_, fun w hw => ?_⟩
    · rw [hmain, ← hunborn w]
      refine ⟨fun h => ?_, fun h => (hstill w (.inl h)).trans h⟩
      by_contra hne
      exact hmoved w hne h
    · rw [hmain] at hw
      rw [hstill w (.inr (hjoined w hw))]
      exact hjoined w hw

/-! ### Runs -/

theorem Inv.step (I : Inv s d) (H : Phase s) (h : Step s a s') : Inv s' (connections.note a s d) := by
  cases h with
  | create i hmain hi =>
    have hpc := (H.unborn_iff i).mpr (by rw [hmain]; exact le_refl i)
    refine (I.goto (.socket 0) hi ?_ ?_ ?_ ?_ (Nat.zero_le _)).wait _ <;> rw [hpc] <;> rfl
  | created i hmain hi | join i n lost hmain hi hw | joined i hmain hi => exact I.wait _
  | socket w n fd hpc hquote hfd => exact I.socket hpc (lt_length_of_quote hquote) hfd
  | socketFails w n hpc | leave w n hpc =>
    have P := I.party w
    have hbounded := P.bounded
    rw [hpc] at hbounded
    refine I.goto (.returned n none) (P.born (by simp [hpc])) ?_ ?_ ?_ ?_ hbounded <;> rw [hpc] <;> rfl
  | connectFails w n fd hpc =>
    have P := I.party w
    have hbounded := P.bounded
    rw [hpc] at hbounded
    refine I.goto (.returned n (some fd)) (P.born (by simp [hpc])) ?_ ?_ ?_ ?_ (Nat.le_of_lt hbounded) <;> rw [hpc] <;> rfl
  | connect w n fd hpc =>
    simp only [connections, hpc]
    exact I.connect hpc
  | write w n k fd hpc hfd => exact I.write hpc hfd
  | close w n k fd hpc hfd => exact I.close hpc hfd

theorem inv_of_reachable (h : (machine.watch connections).Reachable (s, d)) : Inv s d ∧ Phase s :=
  h.invariant (I := fun p => Inv p.1 p.2 ∧ Phase p.1) ⟨inv_start, phase_start⟩ fun a p q ⟨I, H⟩ _ hs => by
    obtain ⟨hs, ho⟩ := watch_step_eq_some.mp hs
    exact ⟨ho ▸ I.step H (step_cases hs), H.step (step_cases hs)⟩

theorem Pc.made_le {pc : Pc} (h : pc.Bounded) : pc.made ≤ quotes.length := by
  cases pc with
  | connect n fd => exact Nat.le_of_lt h
  | _ => exact h

theorem Inv.lt_made (I : Inv s d) {p : ℕ × ℕ} (h : p ∈ d) : p.2 < (s.worker p.1).made := by
  rw [← Interleave.mem_of, (I.party p.1).in_order, List.mem_range] at h
  exact h

theorem Inv.born (I : Inv s d) {p : ℕ × ℕ} (h : p ∈ d) : p.1 < workerNum :=
  (I.party p.1).born fun hpc => by
    have hlt := I.lt_made h
    rw [hpc] at hlt
    exact absurd hlt (Nat.not_lt_zero p.2)

/-- On a connection its quote has been sent; or nothing, and then it is open. -/
theorem Inv.sent (I : Inv s d) {p : ℕ × ℕ} (hk : d[k]? = some p) :
    s.sent k = message p.2 ∨ s.sent k = [] ∧ s.closed k = false := by
  obtain ⟨w, n⟩ := p
  cases hclosed : s.closed k with
  | true => exact .inl ((I.party w).done k n hk hclosed)
  | false =>
    obtain ⟨fd, bytes, hcarries, hfd⟩ := (I.party w).live k n hk hclosed
    obtain ⟨j, -, hj, -, hsent⟩ := (I.party w).carries n fd bytes hcarries
    rw [hfd] at hj
    cases hj
    rw [hsent]
    cases hpc : s.worker w with
    | write m fd' =>
      rw [hpc] at hcarries
      cases hcarries
      exact .inr ⟨rfl, rfl⟩
    | close m fd' =>
      rw [hpc] at hcarries
      cases hcarries
      exact .inl rfl
    | _ =>
      rw [hpc] at hcarries
      cases hcarries

/-- Once `main` has returned, no thread has a connection. -/
theorem carries_of_returned (hmain : s.main = .returned) (H : Phase s) (hw : w < workerNum) : (s.worker w).carries = none := by
  obtain ⟨n, lost, hpc⟩ := H.joined w (by rwa [hmain])
  rw [hpc]
  rfl

/-- Whatever the order of their steps and whichever calls fail, the threads send the quotes in order, each on a connection
    that is closed afterwards. -/
theorem sends_of_reachable (h : (machine.watch connections).Reachable (s, d)) : Sends s d := by
  obtain ⟨I, H⟩ := inv_of_reachable h
  refine ⟨fun w => ⟨(I.party w).in_order, Pc.made_le (I.party w).bounded⟩, fun p hp => I.born hp, fun k p hk => I.sent hk, ?_,
    fun hmain => ⟨?_, ?_⟩⟩
  · exact fun k hk => (I.fresh k (I.length ▸ hk)).2
  · intro k hk
    have hmem : d[k]? = some d[k] := List.getElem?_eq_getElem hk
    exact (I.party d[k].1).closed (carries_of_returned hmain H (I.born (List.getElem_mem hk))) hmem
  · intro fd
    rw [I.owned.live_iff fd]
    constructor
    · rintro ⟨w, hw⟩
      have hlt := (I.party w).born fun hpc => by
        rw [hpc] at hw
        cases hw
      obtain ⟨n, lost, hpc⟩ := H.joined w (by rwa [hmain])
      rw [hpc] at hw
      exact ⟨w, n, hpc.trans (congrArg _ hw)⟩
    · rintro ⟨w, n, hpc⟩
      exact ⟨w, by rw [hpc]; rfl⟩

/-- Two threads, of which the second connects first and has sent nothing yet. -/
theorem sends_of_reachable_two : ∃ s d, Sends s d ∧ d = [(1, 0), (0, 0)] ∧ s.sent 0 = [] ∧ s.sent 1 = message 0 := by
  obtain ⟨⟨s, d⟩, hs, hp⟩ := exists_reachable (M := machine.watch connections)
    (p := fun p => decide (p.2 = [(1, 0), (0, 0)] ∧ p.1.sent 0 = [] ∧ p.1.sent 1 = message 0))
    [.main, .main, .socket 0 3, .socket 1 4, .connect 1, .connect 0, .write 0, .close 0] (by decide +kernel)
  exact ⟨s, d, sends_of_reachable hs, of_decide_eq_true hp⟩

end Racey.TcpClient
