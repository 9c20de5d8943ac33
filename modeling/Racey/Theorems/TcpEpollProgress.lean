import Mathlib.Algebra.BigOperators.Ring.Finset
import Racey.Theorems.TcpEpollFds

/-! racey-tcp-server-epoll goes on for ever, and comes back to `epoll_wait` whenever nothing new reaches it: an event for the
    listening socket finds somebody to accept, and each step of the server lowers what is left to do. -/

namespace Racey.TcpEpoll
open Machine

variable {streams : ℕ → List UInt8} {old : List UInt8} {s s' : State} {o : Fds} {a : Move}

/-! ### The server does not return -/

/-- An event for the listening socket is an event of somebody who waits to be accepted. -/
structure Attended (s : State) : Prop where
  backlog : .server ∈ s.pc.sources → s.backlog ≠ []
  good : ∀ e ∈ s.pc.batch, e.source = .server → ¬ e.Bad
  running : s.pc ≠ .returned

theorem attended_start : Attended (start streams old) where
  backlog h := absurd h List.not_mem_nil
  good _ he := absurd he List.not_mem_nil
  running := nofun

/-- The server goes on with events that it has, and nobody is accepted. -/
theorem Attended.goto (A : Attended s) (hbacklog : s.backlog.length ≤ s'.backlog.length)
    (hbatch : ∀ e ∈ s'.pc.batch, e ∈ s.pc.batch) (hrunning : s'.pc ≠ .returned) : Attended s' where
  backlog h := by
    obtain ⟨e, he, hsource⟩ := List.mem_map.mp h
    have hne := List.length_pos_iff.mpr (A.backlog (List.mem_map.mpr ⟨e, hbatch e he, hsource⟩))
    exact List.length_pos_iff.mp (hne.trans_le hbacklog)
  good e he := A.good e (hbatch e he)
  running := hrunning

theorem mem_sources_of_mem {e : Event} {x : Source} (he : e ∈ s.pc.batch) (hx : e.source = x) : x ∈ s.pc.sources :=
  List.mem_map.mpr ⟨e, he, hx⟩

theorem Attended.step (A : Attended s) (T : Tracked s o) (h : step a s = some s') : Attended s' := by
  cases step_cases h with
  | connect => exact A.goto (by simp) (fun _ he => he) A.running
  | arrive | finish | reset => exact A.goto (le_refl _) (fun _ he => he) A.running
  | wait sources hpc hevents =>
    have hsource : ∀ x, (s.event x).source = x := fun x => by cases x <;> rfl
    refine ⟨fun h => ?_, fun e he heq => ?_, Pc.noConfusion⟩
    · obtain ⟨e, he, heq⟩ := List.mem_map.mp h
      obtain ⟨x, hx, rfl⟩ := List.mem_map.mp he
      rw [hsource] at heq
      exact hevents .server (heq ▸ hx)
    · obtain ⟨x, -, rfl⟩ := List.mem_map.mp he
      rw [hsource] at heq
      subst heq
      rintro (herr | hin)
      · cases herr
      · cases hin
  | again hpc => exact A.goto (le_refl _) (fun _ he => absurd he List.not_mem_nil) Pc.noConfusion
  | close e events hpc =>
    refine A.goto ?_ (fun e' he' => by rw [hpc]; exact List.mem_cons_of_mem e he') Pc.noConfusion
    cases e.source <;> exact le_refl _
  | readable e events k hpc =>
    exact A.goto (le_refl _) (fun e' he' => by rw [hpc]; exact List.mem_cons_of_mem e he') Pc.noConfusion
  | register k events hpc | read k events hpc | writeFails k events hpc | del k events hpc =>
    exact A.goto (le_refl _) (fun e he => by rw [hpc]; exact he) Pc.noConfusion
  | write k chunk events hpc =>
    refine A.goto (le_refl _) (fun e he => ?_) ?_
    · rw [hpc]
      show e ∈ events
      simp only [State.goto] at he
      split at he <;> exact he
    · simp only [State.goto]
      split <;> simp
  | acceptFails e events hpc =>
    rcases handle_cases hpc h with ⟨-, heq⟩ | ⟨-, hsource, hempty, -⟩ | ⟨-, -, k, backlog, -, heq⟩ | ⟨-, k, -, heq⟩
    · cases e.source <;> cases congrArg State.pc heq
    · exact absurd hempty (A.backlog (mem_sources_of_mem (by rw [hpc]; exact List.mem_cons_self) hsource))
    · cases congrArg State.pc heq
    · cases congrArg State.pc heq
  | accept e events k backlog hpc hbacklog hsource =>
    have hserver : e.source = .server := by
      cases hx : e.source with
      | server => rfl
      | client j => exact absurd hx (hsource j)
    have hnodup := T.nodup
    rw [hpc, show (Pc.handle (e :: events)).sources = e.source :: events.map Event.source from rfl, hserver,
      List.nodup_cons] at hnodup
    exact ⟨fun h => absurd h hnodup.1, fun e' he' => A.good e' (by rw [hpc]; exact List.mem_cons_of_mem e he'), Pc.noConfusion⟩

/-! ### What is left to do -/

def Event.left (e : Event) : ℕ :=
  match e.source with
  | .server => 8
  | .client _ => 4

def batchLeft (events : List Event) : ℕ := (events.map Event.left).sum

/-- How many steps the server makes before it is back in `epoll_wait`, with those to come for a connection that it registers. -/
def Pc.left : Pc → ℕ
  | .wait | .returned => 0
  | .handle events => 1 + batchLeft events
  | .register _ events => 8 + batchLeft events
  | .read _ events => 4 + batchLeft events
  | .write _ none events => 3 + batchLeft events
  | .write _ (some chunk) events => (if chunk.length > 0 then 5 else 3) + batchLeft events
  | .del _ events => 2 + batchLeft events

def Socket.left (x : Socket) : ℕ := 2 * x.received.length + if x.ready then 6 else 0

def socketsLeft (connected : ℕ) (socket : ℕ → Socket) : ℕ := ∑ k ∈ Finset.range connected, (socket k).left

/-- Those who wait to be accepted and for whom there is no event yet. -/
def State.unheard (s : State) : ℕ := s.backlog.length - if .server ∈ s.pc.sources then 1 else 0

def left (s : State) : ℕ := socketsLeft s.connected s.socket + 10 * s.unheard + s.pc.left

theorem socketsLeft_update {n k : ℕ} (socket : ℕ → Socket) (hk : k < n) (x : Socket) :
    socketsLeft n (Function.update socket k x) + (socket k).left = socketsLeft n socket + x.left := by
  have hsum := sum_change (S := Finset.range n) (f := fun j => (socket j).left)
    (g := fun j => (Function.update socket k x j).left) (i := k) (Finset.mem_range.mpr hk) fun j hj => by
      simp only [Function.update_of_ne hj]
  simp only [Function.update_self] at hsum
  exact hsum

/-- What is not left to do any more once an event for the source has been stored. -/
def Source.left : Source → ℕ
  | .server => 0
  | .client _ => 6

theorem reported_cons_server (sources : List Source) : s.reported (.server :: sources) = s.reported sources := by
  funext k
  simp [State.reported]

theorem reported_cons_client {k : ℕ} (sources : List Source) : s.reported (.client k :: sources) =
    Function.update (s.reported sources) k { s.socket k with ready := false } := by
  funext j
  by_cases hj : j = k
  · subst hj
    simp [State.reported]
  · simp [State.reported, hj]

theorem socketsLeft_reported {sources : List Source} (hnodup : sources.Nodup)
    (hready : ∀ k, .client k ∈ sources → k < s.connected ∧ (s.socket k).ready = true) :
    socketsLeft s.connected (s.reported sources) + (sources.map Source.left).sum = socketsLeft s.connected s.socket := by
  induction sources with
  | nil => rfl
  | cons x sources ih =>
    obtain ⟨hx, hnodup⟩ := List.nodup_cons.mp hnodup
    have ih := ih hnodup fun k hk => hready k (List.mem_cons_of_mem x hk)
    cases x with
    | server => rwa [reported_cons_server, List.map_cons, List.sum_cons, Source.left, Nat.zero_add]
    | client j =>
      obtain ⟨hj, hjready⟩ := hready j List.mem_cons_self
      have hsum := socketsLeft_update (s.reported sources) hj { s.socket j with ready := false }
      rw [← reported_cons_client, show s.reported sources j = s.socket j from if_neg hx] at hsum
      simp only [Socket.left, hjready, if_true, Bool.false_eq_true, if_false] at hsum
      simp only [List.map_cons, List.sum_cons, Source.left]
      omega

/-- An event costs less than what the server hears of it is worth. -/
theorem batchLeft_event {sources : List Source} (hnodup : sources.Nodup) :
    batchLeft (sources.map s.event) + 2 * sources.length =
      (sources.map Source.left).sum + 10 * if .server ∈ sources then 1 else 0 := by
  induction sources with
  | nil => rfl
  | cons x sources ih =>
    obtain ⟨hx, hnodup⟩ := List.nodup_cons.mp hnodup
    have ih := ih hnodup
    cases x with
    | server =>
      rw [if_neg hx] at ih
      simp only [batchLeft, List.map_cons, List.sum_cons, List.length_cons, State.event, Event.left, Source.left,
        List.mem_cons_self, if_true] at ih ⊢
      omega
    | client j =>
      simp only [batchLeft, List.map_cons, List.sum_cons, List.length_cons, State.event, Event.left, Source.left, List.mem_cons,
        reduceCtorEq, false_or] at ih ⊢
      omega

theorem Tracked.lt_connected (T : Tracked s o) {k : ℕ} (h : s.status k ≠ .unaccepted) : k < s.connected :=
  not_le.mp fun hle => h (T.fresh k (.inr (.inl hle)))

theorem left_wait (T : Tracked s o) {sources : List Source} (hpc : s.pc = .wait) (hne : sources ≠ [])
    (hnodup : sources.Nodup) (hevents : ∀ x ∈ sources, s.HasEvent x) :
    left { s.goto (.handle (sources.map s.event)) with socket := s.reported sources } < left s := by
  have hsockets := socketsLeft_reported (s := s) hnodup fun k hk => by
    obtain ⟨hstatus, hready⟩ := hevents _ hk
    exact ⟨T.lt_connected (by simp [State.status, hstatus]), hready⟩
  have hbatch := batchLeft_event (s := s) hnodup
  have hlength := List.length_pos_iff.mpr hne
  have hold : s.unheard = s.backlog.length := by
    rw [State.unheard, hpc]
    rfl
  have hsources : (Pc.handle (sources.map s.event)).sources = sources := by
    have hsource (x : Source) : (s.event x).source = x := by cases x <;> rfl
    rw [Pc.sources, Pc.batch, List.map_map]
    exact List.map_id'' hsource sources
  have hserver : .server ∈ sources → 0 < s.backlog.length := fun h => List.length_pos_iff.mpr (hevents _ h)
  simp only [left, hold, hpc, Pc.left]
  simp only [State.unheard, State.goto, hsources]
  by_cases hmem : .server ∈ sources
  · have := hserver hmem
    simp only [if_pos hmem] at hbatch ⊢
    omega
  · simp only [if_neg hmem] at hbatch ⊢
    omega

/-- A step of the server that deals with connection `k`. -/
theorem left_serve {k : ℕ} {x : Socket} {pc : Pc} (hk : k < s.connected)
    (hserver : .server ∈ pc.sources ↔ .server ∈ s.pc.sources)
    (hdown : x.left + pc.left < (s.socket k).left + s.pc.left) : left ((s.setSocket k x).goto pc) < left s := by
  have hsum := socketsLeft_update s.socket hk x
  simp only [left, State.unheard, State.goto, State.setSocket, hserver]
  omega

/-- A step of the server that leaves the sockets. -/
theorem left_goto {pc : Pc} (file : File UInt8) (hserver : .server ∈ pc.sources ↔ .server ∈ s.pc.sources)
    (hdown : pc.left < s.pc.left) : left { s.goto pc with file := file } < left s := by
  simp only [left, State.unheard, State.goto, hserver]
  omega

theorem left_accept (T : Tracked s o) {e : Event} {events : List Event} {k : ℕ} {backlog : List ℕ}
    (hpc : s.pc = .handle (e :: events)) (hbacklog : s.backlog = k :: backlog) (hsource : e.source = .server) :
    left { s.goto (.register k events) with backlog := backlog } < left s := by
  have hsources : s.pc.sources = .server :: events.map Event.source := by
    rw [hpc, Pc.sources, Pc.batch, List.map_cons, hsource]
  have hnodup := T.nodup
  rw [hsources, List.nodup_cons] at hnodup
  have hregister : (Pc.register k events).sources = events.map Event.source := rfl
  simp only [left, State.unheard, State.goto, hregister, if_neg hnodup.1, hsources, List.mem_cons_self, if_true, hbacklog,
    List.length_cons]
  rw [hpc]
  simp only [Pc.left, batchLeft, List.map_cons, List.sum_cons, Event.left, hsource]
  omega

/-- The next event is one for a connection. -/
theorem client_of_head {e : Event} {events : List Event} {k : ℕ} (hpc : s.pc = .handle (e :: events))
    (hsource : e.source = .client k) : (.server ∈ events.map Event.source ↔ .server ∈ s.pc.sources) ∧
      .client k ∈ s.pc.sources ∧ s.pc.left = 5 + batchLeft events := by
  have hsources : s.pc.sources = .client k :: events.map Event.source := by
    rw [hpc, Pc.sources, Pc.batch, List.map_cons, hsource]
  refine ⟨by simp [hsources], by simp [hsources], ?_⟩
  rw [hpc]
  simp only [Pc.left, batchLeft, List.map_cons, List.sum_cons, Event.left, hsource]
  omega

theorem left_read {k : ℕ} {events : List Event} : ({ s.socket k with received := (s.socket k).received.drop 256 } : Socket).left +
    (Pc.write k (s.readResult k) events).left < (s.socket k).left + (Pc.read k events).left := by
  simp only [Socket.left, List.length_drop]
  by_cases hne : (s.socket k).received = []
  · have hresult : s.readResult k = some [] ∨ s.readResult k = none := by
      unfold State.readResult
      rw [if_neg (not_not.mpr hne)]
      split <;> simp
    rcases hresult with hresult | hresult <;> rw [hresult, hne] <;> simp [Pc.left]
  · have hlength := List.length_pos_iff.mpr hne
    have hmin : min 256 (s.socket k).received.length > 0 := Nat.lt_min.mpr ⟨by decide, hlength⟩
    rw [State.readResult, if_pos hne]
    simp only [Pc.left, List.length_take, if_pos hmin]
    omega

/-- Every step of the server, and every return of `epoll_wait`, lowers what is left to do. -/
theorem left_step (A : Attended s) (T : Tracked s o) (ha : a = .server ∨ ∃ sources, a = .wait sources)
    (h : step a s = some s') : left s' < left s := by
  cases step_cases h with
  | connect | arrive | finish | reset => rcases ha with ha | ⟨sources, ha⟩ <;> cases ha
  | wait sources hpc hevents =>
    obtain ⟨hw, -⟩ := Option.ite_none_right_eq_some.mp h
    exact left_wait T hpc hw.2.1 hw.2.2.1 hevents
  | again hpc =>
    refine left_goto s.file (by rw [hpc]; rfl) ?_
    rw [hpc]
    exact Nat.one_pos
  | close e events hpc hbad =>
    cases hsource : e.source with
    | server => exact absurd hbad (A.good e (by rw [hpc]; exact List.mem_cons_self) hsource)
    | client k =>
      obtain ⟨hserver, hmem, hleft⟩ := client_of_head hpc hsource
      refine left_serve (T.lt_connected (by rw [T.batch k hmem]; nofun)) hserver ?_
      rw [hleft]
      simp only [Socket.left, Pc.left, Bool.false_eq_true, if_false]
      omega
  | acceptFails e events hpc => exact absurd rfl (A.step T h).running
  | accept e events k backlog hpc hbacklog hsource =>
    refine left_accept T hpc hbacklog ?_
    cases hx : e.source with
    | server => rfl
    | client j => exact absurd hx (hsource j)
  | readable e events k hpc hsource =>
    obtain ⟨hserver, -, hleft⟩ := client_of_head hpc hsource
    refine left_goto s.file hserver ?_
    rw [hleft]
    simp only [Pc.left]
    omega
  | register k events hpc =>
    refine left_serve (T.register k (by rw [hpc]; rfl)).1 (by rw [hpc]; rfl) ?_
    rw [hpc]
    simp only [Socket.left, Pc.left]
    split <;> split <;> omega
  | read k events hpc =>
    refine left_serve (T.lt_connected (by rw [(T.current k (by rw [hpc]; rfl)).1]; nofun)) (by rw [hpc]; rfl) ?_
    rw [hpc]
    exact left_read
  | write k chunk events hpc =>
    have hdown : (if chunk.length > 0 then Pc.read k events else .del k events).left < s.pc.left := by
      rw [hpc]
      by_cases hlen : chunk.length > 0
      · simp only [if_pos hlen, Pc.left]
        omega
      · simp only [if_neg hlen, Pc.left]
        omega
    refine left_goto _ ?_ hdown
    rw [hpc]
    split <;> rfl
  | writeFails k events hpc =>
    refine left_goto s.file (by rw [hpc]; rfl) ?_
    rw [hpc]
    simp only [Pc.left]
    omega
  | del k events hpc =>
    refine left_serve (T.lt_connected (by rw [(T.current k (by rw [hpc]; rfl)).1]; nofun)) (by rw [hpc]; rfl) ?_
    rw [hpc]
    simp only [Socket.left, Pc.left, Bool.false_eq_true, if_false]
    omega

/-! ### Back to `epoll_wait` -/

theorem own_iff : a.Own ↔ a = .server ∨ ∃ sources, a = .wait sources := by
  cases a <;> simp [Move.Own]

theorem own_of_reachable (h : (machine streams old).Reachable s) : ∃ o, Attended s ∧ Tracked s o := by
  refine h.invariant (I := fun s => ∃ o, Attended s ∧ Tracked s o) ⟨fdObserver.start, attended_start, tracked_start⟩ ?_
  rintro a s t ⟨o, A, T⟩ - hs
  exact ⟨_, A.step T hs, T.step hs⟩

/-- Outside `epoll_wait` the server goes on; and `epoll_wait` returns if there is an event. -/
theorem exists_own (A : Attended s) (hidle : ¬ (s.pc = .wait ∧ ∀ x, ¬ s.HasEvent x)) : ∃ a, a.Own ∧ (step a s).isSome := by
  cases hpc : s.pc with
  | returned => exact absurd hpc A.running
  | wait =>
    obtain ⟨x, hx⟩ : ∃ x, s.HasEvent x := by
      by_contra hnone
      exact hidle ⟨hpc, fun x hx => hnone ⟨x, hx⟩⟩
    refine ⟨.wait [x], trivial, ?_⟩
    have hmax : 1 ≤ maxEvents := by decide
    simp [step, hpc, hx, hmax]
  | handle events =>
    refine ⟨.server, trivial, ?_⟩
    cases events with
    | nil => simp [step, stepServer, hpc]
    | cons e events =>
      simp only [step, stepServer, hpc]
      split
      · rfl
      · split
        · split <;> rfl
        · rfl
  | register k events => exact ⟨.server, trivial, by simp [step, stepServer, hpc]⟩
  | read k events => exact ⟨.server, trivial, by simp [step, stepServer, hpc]⟩
  | write k chunk events => exact ⟨.server, trivial, by cases chunk <;> simp [step, stepServer, hpc]⟩
  | del k events => exact ⟨.server, trivial, by simp [step, stepServer, hpc]⟩

/-- Whatever reaches it, the server does not return. Of itself it makes a bounded number of steps, and when it cannot go on it
    is in `epoll_wait` and has heard of everything. -/
theorem back_to_wait (h : (machine streams old).Reachable s) {as : List Move} {t : State}
    (hr : (machine streams old).runIf (fun a _ => decide a.Own) as s = some t) :
    as.length + left t ≤ left s ∧ t.pc ≠ .returned ∧ ((∀ a, a.Own → step a t = none) → Idle t) := by
  obtain ⟨hlength, o, A, -⟩ := length_le_of_runIf (μ := left) (I := fun s => ∃ o, Attended s ∧ Tracked s o)
    (fun a s t ⟨o, A, T⟩ (_ : a.Own) hs => ⟨_, A.step T hs, T.step hs⟩)
    (fun a s t ⟨o, A, T⟩ ha hs => left_step A T (own_iff.mp ha) hs) (own_of_reachable h) hr
  refine ⟨hlength, A.running, fun hstuck => ?_⟩
  have hidle : t.pc = .wait ∧ ∀ x, ¬ t.HasEvent x := by
    by_contra hnot
    obtain ⟨a, ha, hs⟩ := exists_own A hnot
    rw [hstuck a ha] at hs
    cases hs
  exact ⟨hidle.1, hidle.2 .server, fun k _ => hidle.2 (.client k)⟩

/-- A connection with two bytes; `epoll_wait` returns for the listening socket, and then for the connection. -/
theorem back_to_wait_one : ∃ (s t : State) (as : List Move), as.length + left t ≤ left s ∧ t.pc ≠ .returned ∧ Idle t ∧
    as.length = 12 := by
  obtain ⟨s, hs, hp⟩ := (Option.any_eq_true (fun s => ((machine (fun _ => [1, 2]) []).runIf (fun a _ => decide a.Own)
    ([.wait [.server], .server, .server, .server, .wait [.client 0]] ++ List.replicate 7 .server) s).any fun t =>
      decide (Idle t)) ((machine (fun _ => [1, 2]) []).run [.connect, .arrive 0 2] (start (fun _ => [1, 2]) []))).mp
    (by decide +kernel)
  obtain ⟨t, hr, ht⟩ := (Option.any_eq_true _ _).mp hp
  obtain ⟨hlength, hrunning, -⟩ := back_to_wait (reachable_of_run hs) hr
  exact ⟨s, t, _, hlength, hrunning, of_decide_eq_true ht, rfl⟩

/-! ### A run that serves any number of connections -/

variable {q : State × Log}

theorem unsent_of_own (ha : a.Own) (h : step a s = some s') (k : ℕ) : (s'.socket k).unsent = (s.socket k).unsent := by
  have hset : ∀ {j : ℕ} {x : Socket}, x.unsent = (s.socket j).unsent →
      (Function.update s.socket j x k).unsent = (s.socket k).unsent := fun {j x} hx => by
    rcases eq_or_ne k j with rfl | hk
    · rw [Function.update_self, hx]
    · rw [Function.update_of_ne hk]
  cases step_cases h with
  | connect | arrive | finish | reset => exact ha.elim
  | wait sources =>
    simp only [State.reported]
    split <;> rfl
  | close e => cases e.source with
    | server => rfl
    | client j => exact hset rfl
  | register | read | del => exact hset rfl
  | again | acceptFails | accept | readable | write | writeFails => rfl

/-- Of itself the server comes back to `epoll_wait`. -/
theorem exists_idle (h : ((machine streams old).watch observer).Reach (fun a p => InOnePiece a p.1) q) :
    ∃ q', ((machine streams old).watch observer).Reach (fun a p => InOnePiece a p.1) q' ∧ Idle q'.1 ∧
      ∀ k, (q'.1.socket k).unsent = (q.1.socket k).unsent := by
  obtain ⟨q', hq, hunsent, hidle⟩ := h.exists_within (P := fun p => ∀ k, (p.1.socket k).unsent = (q.1.socket k).unsent)
    (Q := fun p => p.1.pc = .wait ∧ ∀ x, ¬ p.1.HasEvent x) (μ := fun p => left p.1) (fun p hp hunsent hnot => by
      have hreach : (machine streams old).Reachable p.1 :=
        hp.invariant (I := fun p => (machine streams old).Reachable p.1) .init fun a p q hp _ hs =>
          hp.step a trivial (watch_step_eq_some.mp hs).1
      obtain ⟨o, A, T⟩ := own_of_reachable hreach
      obtain ⟨a, ha, hs⟩ := exists_own A hnot
      obtain ⟨t, hs⟩ := Option.isSome_iff_exists.mp hs
      have hok : InOnePiece a p.1 := by
        rcases own_iff.mp ha with rfl | ⟨sources, rfl⟩ <;> trivial
      exact ⟨a, (t, observer.note a p.1 p.2), hok, watch_step_eq_some.mpr ⟨hs, rfl⟩,
        fun k => (unsent_of_own ha hs k).trans (hunsent k), left_step A T (own_iff.mp ha) hs⟩) fun _ => rfl
  exact ⟨q', hq, ⟨hidle.1, hidle.2 .server, fun k _ => hidle.2 (.client k)⟩, hunsent⟩

theorem step_arrive {k : ℕ} {bytes : List UInt8} (hk : k < s.connected)
    (hsocket : s.socket k = ⟨.unaccepted, [], bytes, false, false, false⟩) (hne : bytes ≠ []) :
    step (.arrive k bytes.length) s = some (s.notify k ⟨.unaccepted, bytes, [], false, false, false⟩) := by
  simp [step, hsocket, hk, hne]

/-- The first connections are made, and what is sent on them arrives before the server is told of it. -/
theorem exists_arrived (streams : ℕ → List UInt8) (old : List UInt8) (n : ℕ) (hne : ∀ k < n, streams k ≠ []) :
    ∃ q, ((machine streams old).watch observer).Reach (fun a p => InOnePiece a p.1) q ∧ q.1.connected = n ∧
      (∀ k < n, (q.1.socket k).unsent = []) ∧ ∀ k, n ≤ k → q.1.socket k = ⟨.unaccepted, [], streams k, false, false, false⟩ := by
  induction n with
  | zero => exact ⟨_, .init, rfl, fun k hk => absurd hk (Nat.not_lt_zero k), fun _ _ => rfl⟩
  | succ n ih =>
    obtain ⟨⟨s, o⟩, hq, hconnected, hbefore, hafter⟩ := ih fun k hk => hne k (Nat.lt_succ_of_lt hk)
    have hsocket : s.socket n = ⟨.unaccepted, [], streams n, false, false, false⟩ := hafter n (le_refl n)
    have hlt : n < s.connected + 1 := by
      rw [show s.connected = n from hconnected]
      exact Nat.lt_succ_self n
    let p : State := { s with connected := s.connected + 1, backlog := s.backlog ++ [s.connected] }
    have hconnect : ((machine streams old).watch observer).step .connect (s, o) = some (p, o) :=
      watch_step_eq_some.mpr ⟨rfl, rfl⟩
    have harrive : ((machine streams old).watch observer).step (.arrive n (streams n).length) (p, o) =
        some (p.notify n ⟨.unaccepted, streams n, [], false, false, false⟩, observer.note (.arrive n (streams n).length) p o) :=
      watch_step_eq_some.mpr ⟨step_arrive hlt hsocket (hne n (Nat.lt_succ_self n)), rfl⟩
    have hpiece : InOnePiece (.arrive n (streams n).length) p := by
      show _ = (s.socket n).unsent.length
      rw [hsocket]
    have hconnected' : p.connected = n + 1 := congrArg (· + 1) hconnected
    refine ⟨_, (hq.step .connect (show InOnePiece .connect s from trivial) hconnect).step _ hpiece harrive, hconnected',
      fun k hk => ?_, fun k hk => ?_⟩
    · rcases eq_or_ne k n with rfl | hkn
      · simp [State.notify]
      · rw [State.notify, setSocket_of_ne hkn]
        exact hbefore k (by omega)
    · rw [State.notify, setSocket_of_ne (by omega)]
      exact hafter k (Nat.le_of_succ_le hk)

end Racey.TcpEpoll
