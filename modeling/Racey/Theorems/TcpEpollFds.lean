import Racey.Theorems.TcpEpoll

/-! racey-tcp-server-epoll closes the connections that it has an error event for, each of them once. A connection that
    it reads from it takes out of the interest list and does not close: it stays open, and nothing will be reported
    for it again. -/

namespace Racey.TcpEpoll
open Machine

variable {streams : ℕ → List UInt8} {old : List UInt8} {s s' : State} {o : Fds} {a : Move}

/-! ### The invariant -/

def State.status (s : State) (k : ℕ) : Status := (s.socket k).status

/-- The sources of the events that are still to be looked at. -/
def Pc.sources (pc : Pc) : List Source := pc.batch.map Event.source

/-- The connection that has been accepted and not registered yet. -/
def Pc.registering : Pc → Option ℕ
  | .register k _ => some k
  | _ => none

/-- The connections in the backlog and the one that is being registered have not been registered before, the events
    and the branch that the server is in are for registered ones, and what has been done to a connection tells its
    status. -/
structure Tracked (s : State) (o : Fds) : Prop where
  backlog : s.backlog.Nodup
  bound : ∀ k ∈ s.backlog, k < s.connected
  fresh : ∀ k, k ∈ s.backlog ∨ s.connected ≤ k ∨ s.pc.registering = some k → s.status k = .unaccepted
  register : ∀ k, s.pc.registering = some k → k < s.connected ∧ k ∉ s.backlog
  batch : ∀ k, .client k ∈ s.pc.sources → s.status k = .registered
  nodup : s.pc.sources.Nodup
  current : ∀ k, s.pc.current = some k → s.status k = .registered ∧ .client k ∉ s.pc.sources
  accepted : ∀ k, k ∈ o.accepted ↔ s.status k ≠ .unaccepted ∨ s.pc.registering = some k
  closes : ∀ k, o.closes k = if s.status k = .closed then 1 else 0
  dels : ∀ k, 0 < o.dels k ↔ s.status k = .removed

theorem tracked_start : Tracked (start streams old) fdObserver.start where
  backlog := List.nodup_nil
  bound k hk := absurd hk List.not_mem_nil
  fresh k _ := rfl
  register k hk := by cases hk
  batch k hk := absurd hk List.not_mem_nil
  nodup := List.nodup_nil
  current k hk := by cases hk
  accepted k := by
    refine ⟨fun hk => absurd hk List.not_mem_nil, fun hk => ?_⟩
    rcases hk with hk | hk
    · exact absurd rfl hk
    · cases hk
  closes k := rfl
  dels k := ⟨fun hk => absurd hk (lt_irrefl 0), fun hk => by cases hk⟩

/-- The server goes to another place, for which there are the same events or fewer; no connection changes its status,
    and none is accepted or registered. -/
theorem Tracked.goto (T : Tracked s o) (hstatus : s'.status = s.status) (hbacklog : s'.backlog = s.backlog)
    (hconnected : s'.connected = s.connected) (hreg : s'.pc.registering = s.pc.registering)
    (hbatch : s'.pc.sources.Sublist s.pc.sources)
    (hcurrent : ∀ k, s'.pc.current = some k → s.status k = .registered ∧ .client k ∉ s'.pc.sources) : Tracked s' o where
  backlog := by rw [hbacklog]; exact T.backlog
  bound := by rw [hbacklog, hconnected]; exact T.bound
  fresh := by rw [hbacklog, hconnected, hreg, hstatus]; exact T.fresh
  register := by rw [hbacklog, hconnected, hreg]; exact T.register
  batch k hk := by rw [hstatus]; exact T.batch k (hbatch.subset hk)
  nodup := T.nodup.sublist hbatch
  current k hk := by rw [hstatus]; exact hcurrent k hk
  accepted := by rw [hreg, hstatus]; exact T.accepted
  closes := by rw [hstatus]; exact T.closes
  dels := by rw [hstatus]; exact T.dels

theorem Tracked.same (T : Tracked s o) (hstatus : s'.status = s.status) (hbacklog : s'.backlog = s.backlog)
    (hconnected : s'.connected = s.connected) (hpc : s'.pc = s.pc) : Tracked s' o := by
  refine T.goto hstatus hbacklog hconnected (by rw [hpc]) (by rw [hpc]) fun k hk => ?_
  rw [hpc] at hk ⊢
  exact T.current k hk

theorem status_setSocket {k : ℕ} {x : Socket} : (s.setSocket k x).status = Function.update s.status k x.status := by
  funext j
  rcases eq_or_ne j k with rfl | hne
  · simp [State.status]
  · simp [State.status, hne]

/-- Something reaches a socket. -/
theorem Tracked.notify (T : Tracked s o) {k : ℕ} {x : Socket} (hx : x.status = s.status k) :
    Tracked (s.notify k x) o := by
  refine T.same ?_ rfl rfl rfl
  rw [State.notify, status_setSocket]
  exact hx ▸ Function.update_eq_self k _

theorem Tracked.connect (T : Tracked s o) :
    Tracked { s with connected := s.connected + 1, backlog := s.backlog ++ [s.connected] } o where
  backlog := by
    refine List.nodup_append.mpr ⟨T.backlog, List.nodup_singleton _, fun j hj k hk => ?_⟩
    rw [List.mem_singleton.mp hk]
    exact (T.bound j hj).ne
  bound k hk := by
    rcases List.mem_append.mp hk with hk | hk
    · exact Nat.lt_succ_of_lt (T.bound k hk)
    · exact List.mem_singleton.mp hk ▸ Nat.lt_succ_self _
  fresh k hk := by
    rcases hk with hk | hk | hk
    · rcases List.mem_append.mp hk with hk | hk
      · exact T.fresh k (.inl hk)
      · exact T.fresh k (.inr (.inl (List.mem_singleton.mp hk).ge))
    · exact T.fresh k (.inr (.inl (Nat.le_of_succ_le hk)))
    · exact T.fresh k (.inr (.inr hk))
  register k hk := by
    obtain ⟨hlt, hmem⟩ := T.register k hk
    refine ⟨Nat.lt_succ_of_lt hlt, fun hk => ?_⟩
    rcases List.mem_append.mp hk with hk | hk
    · exact hmem hk
    · exact hlt.ne (List.mem_singleton.mp hk)
  batch := T.batch
  nodup := T.nodup
  current := T.current
  accepted := T.accepted
  closes := T.closes
  dels := T.dels

theorem Tracked.wait (T : Tracked s o) {sources : List Source} (hpc : s.pc = .wait) (hnodup : sources.Nodup)
    (hevents : ∀ x ∈ sources, s.HasEvent x) :
    Tracked { s.goto (.handle (sources.map s.event)) with socket := s.reported sources } o := by
  generalize hs' : { s.goto (.handle (sources.map s.event)) with socket := s.reported sources } = s'
  have hpc' : s'.pc = .handle (sources.map s.event) := by rw [← hs']; rfl
  have hstatus : s'.status = s.status := by
    funext k
    rw [← hs']
    simp only [State.status, State.reported]
    split <;> rfl
  have hconnected : s'.connected = s.connected := by rw [← hs']; rfl
  have hbacklog : s'.backlog = s.backlog := by rw [← hs']; rfl
  have hreg : s'.pc.registering = s.pc.registering := by rw [hpc, hpc']; rfl
  have hsources : s'.pc.sources = sources := by
    have hsource (x : Source) : (s.event x).source = x := by cases x <;> rfl
    rw [hpc', Pc.sources, Pc.batch, List.map_map]
    exact List.map_id'' hsource sources
  refine ⟨by rw [hbacklog]; exact T.backlog, by rw [hbacklog, hconnected]; exact T.bound, ?_, ?_, fun k hk => ?_, ?_,
    fun k hk => ?_, ?_, by rw [hstatus]; exact T.closes, by rw [hstatus]; exact T.dels⟩
  · rw [hbacklog, hconnected, hreg, hstatus]
    exact T.fresh
  · rw [hbacklog, hconnected, hreg]
    exact T.register
  · rw [hsources] at hk
    rw [hstatus]
    exact (hevents _ hk).1
  · rw [hsources]
    exact hnodup
  · rw [hpc'] at hk
    cases hk
  · rw [hreg, hstatus]
    exact T.accepted

/-- The server is done with a registered connection `k`, which it closes or only takes out of the interest list. -/
theorem Tracked.settle (T : Tracked s o) {k : ℕ} {x : Status} {events : List Event} (hk : s.status k = .registered)
    (hs' : s'.status = Function.update s.status k x) (hbacklog : s'.backlog = s.backlog)
    (hconnected : s'.connected = s.connected) (hpc : s'.pc = .handle events)
    (hbatch : (events.map Event.source).Sublist s.pc.sources) (hmem : .client k ∉ events.map Event.source)
    (hreg : s.pc.registering = none) {p : Fds} (haccepted : p.accepted = o.accepted)
    (hx : (x = .closed ∧ p.closes = Function.update o.closes k (o.closes k + 1) ∧ p.dels = o.dels) ∨
      (x = .removed ∧ p.closes = o.closes ∧ p.dels = Function.update o.dels k (o.dels k + 1))) :
    Tracked s' p := by
  have hne : x ≠ .unaccepted := by rcases hx with ⟨rfl, -⟩ | ⟨rfl, -⟩ <;> exact fun h => by cases h
  have hsources : s'.pc.sources = events.map Event.source := by rw [hpc]; rfl
  have hfresh : ∀ j, j ∈ s.backlog ∨ s.connected ≤ j ∨ s'.pc.registering = some j → j ≠ k := by
    rintro j hj rfl
    have hunaccepted : s.status j = .unaccepted := by
      refine T.fresh j (hj.imp_right fun hj => hj.imp_right fun hj => ?_)
      rw [hpc] at hj
      cases hj
    rw [hk] at hunaccepted
    cases hunaccepted
  refine ⟨by rw [hbacklog]; exact T.backlog, by rw [hbacklog, hconnected]; exact T.bound, fun j hj => ?_, fun j hj => ?_,
    fun j hj => ?_, by rw [hsources]; exact T.nodup.sublist hbatch, fun j hj => ?_, fun j => ?_, fun j => ?_, fun j => ?_⟩
  · rw [hbacklog, hconnected] at hj
    rw [hs', Function.update_of_ne (hfresh j hj)]
    refine T.fresh j (hj.imp_right fun hj => hj.imp_right fun hj => ?_)
    rw [hpc] at hj
    cases hj
  · rw [hpc] at hj
    cases hj
  · rw [hsources] at hj
    rw [hs', Function.update_of_ne fun heq => hmem (by rwa [← heq])]
    exact T.batch j (hbatch.subset hj)
  · rw [hpc] at hj
    cases hj
  · have hold := T.accepted j
    rw [hreg] at hold
    rw [haccepted, hs', hpc, hold]
    rcases eq_or_ne j k with rfl | hj
    · simp [hk, hne]
    · simp [hj, Pc.registering]
  · have hold := T.closes j
    rcases hx with ⟨rfl, hcloses, -⟩ | ⟨rfl, hcloses, -⟩ <;> rw [hcloses, hs']
    · rcases eq_or_ne j k with rfl | hj
      · simp [hold, hk]
      · simp [hj, hold]
    · rcases eq_or_ne j k with rfl | hj
      · simp [hold, hk]
      · simp [hj, hold]
  · have hold := T.dels j
    rcases hx with ⟨rfl, -, hdels⟩ | ⟨rfl, -, hdels⟩ <;> rw [hdels, hs']
    · rcases eq_or_ne j k with rfl | hj
      · simp [hold, hk]
      · simp [hj, hold]
    · rcases eq_or_ne j k with rfl | hj
      · simp
      · simp [hj, hold]

theorem Tracked.accept (T : Tracked s o) {events : List Event} {e : Event} {k : ℕ} {backlog : List ℕ}
    (hpc : s.pc = .handle (e :: events)) (hbacklog : s.backlog = k :: backlog) :
    Tracked { s.goto (.register k events) with backlog := backlog } { o with accepted := o.accepted ++ [k] } := by
  have hnodup := T.backlog
  rw [hbacklog] at hnodup
  obtain ⟨hk, hnodup⟩ := List.nodup_cons.mp hnodup
  have hmem : ∀ j ∈ backlog, j ∈ s.backlog := fun j hj => hbacklog ▸ List.mem_cons_of_mem k hj
  have hhead : k ∈ s.backlog := hbacklog ▸ List.mem_cons_self
  have hsub : (events.map Event.source).Sublist s.pc.sources := by
    rw [hpc]
    exact List.sublist_cons_self _ _
  refine ⟨hnodup, fun j hj => T.bound j (hmem j hj), fun j hj => ?_, fun j hj => ?_, fun j hj => T.batch j (hsub.subset hj),
    T.nodup.sublist hsub, fun j hj => (by cases hj), fun j => ?_, T.closes, T.dels⟩
  · rcases hj with hj | hj | hj
    · exact T.fresh j (.inl (hmem j hj))
    · exact T.fresh j (.inr (.inl hj))
    · cases hj
      exact T.fresh k (.inl hhead)
  · cases hj
    exact ⟨T.bound k hhead, hk⟩
  · have hold := T.accepted j
    rw [hpc] at hold
    rw [List.mem_append, List.mem_singleton, hold]
    show (s.status j ≠ .unaccepted ∨ none = some j) ∨ j = k ↔ s.status j ≠ .unaccepted ∨ some k = some j
    simp [eq_comm]

theorem Tracked.register_step (T : Tracked s o) {k : ℕ} {events : List Event} (hpc : s.pc = .register k events) {x : Socket}
    (hx : x.status = .registered) : Tracked ((s.setSocket k x).goto (.handle events)) o := by
  have hreg : s.pc.registering = some k := by rw [hpc]; rfl
  have hk := T.fresh k (.inr (.inr hreg))
  obtain ⟨hlt, hmem⟩ := T.register k hreg
  have hstatus : ((s.setSocket k x).goto (.handle events)).status = Function.update s.status k .registered := by
    rw [← hx]
    exact status_setSocket
  have hsources : s.pc.sources = events.map Event.source := by rw [hpc]; rfl
  have hnodup := T.nodup
  rw [hsources] at hnodup
  refine ⟨T.backlog, T.bound, fun j hj => ?_, fun j hj => (by cases hj), fun j hj => ?_, hnodup,
    fun j hj => (by cases hj), fun j => ?_, fun j => ?_, fun j => ?_⟩ <;> rw [hstatus]
  · have hne : j ≠ k := by
      rintro rfl
      rcases hj with hj | hj | hj
      · exact hmem hj
      · exact absurd hlt (not_lt.mpr hj)
      · cases hj
    rw [Function.update_of_ne hne]
    rcases hj with hj | hj | hj
    · exact T.fresh j (.inl hj)
    · exact T.fresh j (.inr (.inl hj))
    · cases hj
  · rcases eq_or_ne j k with rfl | hne
    · simp
    · rw [Function.update_of_ne hne]
      exact T.batch j (hsources ▸ hj)
  · have hold := T.accepted j
    rw [hreg] at hold
    rw [hold]
    rcases eq_or_ne j k with rfl | hne
    · simp
    · have hkj : k ≠ j := hne.symm
      simp [hne, hkj, Pc.registering, State.goto]
  · have hold := T.closes j
    rcases eq_or_ne j k with rfl | hne
    · simp [hold, hk]
    · simp [hne, hold]
  · have hold := T.dels j
    rcases eq_or_ne j k with rfl | hne
    · simp [hold, hk]
    · simp [hne, hold]

/-! ### Steps -/

/-- What the server makes of the next event. -/
theorem handle_cases {e : Event} {events : List Event} (hpc : s.pc = .handle (e :: events))
    (h : step .server s = some s') :
    (e.Bad ∧ s' = (s.close e.source).goto (.handle events)) ∨
    (¬e.Bad ∧ e.source = .server ∧ s.backlog = [] ∧ s' = s.goto .returned) ∨
    (¬e.Bad ∧ e.source = .server ∧ ∃ k backlog, s.backlog = k :: backlog ∧
      s' = { s.goto (.register k events) with backlog := backlog }) ∨
    (¬e.Bad ∧ ∃ k, e.source = .client k ∧ s' = s.goto (.read k events)) := by
  simp only [step, stepServer, hpc] at h
  split at h
  · rename_i hbad
    cases h
    exact .inl ⟨hbad, rfl⟩
  · rename_i hgood
    split at h
    · rename_i hsource
      split at h
      · rename_i hempty
        cases h
        exact .inr (.inl ⟨hgood, hsource, hempty, rfl⟩)
      · rename_i k backlog hbacklog
        cases h
        exact .inr (.inr (.inl ⟨hgood, hsource, k, backlog, hbacklog, rfl⟩))
    · rename_i k hsource
      cases h
      exact .inr (.inr (.inr ⟨hgood, k, hsource, rfl⟩))

theorem Tracked.handle (T : Tracked s o) {e : Event} {events : List Event} (hpc : s.pc = .handle (e :: events))
    (h : step .server s = some s') : Tracked s' (fdObserver.note .server s o) := by
  have hreg : s.pc.registering = none := by rw [hpc]; rfl
  have hsources : s.pc.sources = e.source :: events.map Event.source := by rw [hpc]; rfl
  have hsub : (events.map Event.source).Sublist s.pc.sources := by
    rw [hsources]
    exact List.sublist_cons_self _ _
  have hnodup := T.nodup
  rw [hsources, List.nodup_cons] at hnodup
  rcases handle_cases hpc h with ⟨hbad, rfl⟩ | ⟨hgood, hsource, hempty, rfl⟩ | ⟨hgood, hsource, k, backlog, hbacklog, rfl⟩ |
      ⟨hgood, k, hsource, rfl⟩
  · cases hsource : e.source with
    | server =>
      simp only [fdObserver, hpc, hsource, hbad, if_true]
      exact T.goto rfl rfl rfl hreg.symm hsub fun k hk => by cases hk
    | client k =>
      rw [hsource] at hnodup hsources
      simp only [fdObserver, hpc, hsource, hbad, if_true]
      have hstatus : ((s.close (.client k)).goto (.handle events)).status = Function.update s.status k .closed :=
        status_setSocket
      exact T.settle (T.batch k (hsources ▸ List.mem_cons_self)) hstatus rfl rfl rfl hsub hnodup.1 hreg rfl
        (.inl ⟨rfl, rfl, rfl⟩)
  · simp only [fdObserver, hpc, hsource, hgood, if_false, hempty, List.head?_nil, Option.toList_none, List.append_nil]
    exact T.goto rfl rfl rfl hreg.symm (List.nil_sublist _) fun k hk => by cases hk
  · simp only [fdObserver, hpc, hsource, hgood, if_false, hbacklog, List.head?_cons, Option.toList_some]
    exact T.accept hpc hbacklog
  · rw [hsource] at hnodup hsources
    simp only [fdObserver, hpc, hsource, hgood, if_false]
    refine T.goto rfl rfl rfl hreg.symm hsub fun j hj => ?_
    cases hj
    exact ⟨T.batch k (hsources ▸ List.mem_cons_self), hnodup.1⟩

/-- Within the read branch the server stays with its connection. -/
theorem Tracked.stay (T : Tracked s o) {pc : Pc} (hstatus : s'.status = s.status) (hbacklog : s'.backlog = s.backlog)
    (hconnected : s'.connected = s.connected) (hpc : s'.pc = pc) (hreg : pc.registering = s.pc.registering)
    (hcurrent : pc.current = s.pc.current) (hsources : pc.sources = s.pc.sources) : Tracked s' o := by
  subst hpc
  refine T.goto hstatus hbacklog hconnected hreg (by rw [hsources]) fun k hk => ?_
  rw [hsources]
  exact T.current k (hcurrent ▸ hk)

theorem Tracked.step (T : Tracked s o) (h : step a s = some s') : Tracked s' (fdObserver.note a s o) := by
  cases step_cases h with
  | connect => exact T.connect
  | arrive | finish | reset => exact T.notify rfl
  | wait sources hpc hevents =>
    obtain ⟨hw, -⟩ := Option.ite_none_right_eq_some.mp h
    exact T.wait hpc hw.2.2.1 hevents
  | again hpc =>
    simp only [fdObserver, hpc]
    exact T.goto rfl rfl rfl (by rw [hpc]; rfl) (List.nil_sublist _) fun k hk => by cases hk
  | close _ _ hpc | acceptFails _ _ hpc | accept _ _ _ _ hpc | readable _ _ _ hpc => exact T.handle hpc h
  | register k events hpc =>
    simp only [fdObserver, hpc]
    exact T.register_step hpc rfl
  | read k events hpc =>
    simp only [fdObserver, hpc]
    refine T.stay ?_ rfl rfl rfl (by rw [hpc]; rfl) (by rw [hpc]; rfl) (by rw [hpc]; rfl)
    exact status_setSocket.trans (Function.update_eq_self k s.status)
  | write k chunk events hpc =>
    simp only [fdObserver, hpc]
    refine T.stay rfl rfl rfl rfl ?_ ?_ ?_ <;> rw [hpc] <;> split <;> rfl
  | writeFails k events hpc =>
    simp only [fdObserver, hpc]
    exact T.stay rfl rfl rfl rfl (by rw [hpc]; rfl) (by rw [hpc]; rfl) (by rw [hpc]; rfl)
  | del k events hpc =>
    simp only [fdObserver, hpc]
    have hcurrent := T.current k (by rw [hpc]; rfl)
    rw [hpc] at hcurrent
    have hsub : (events.map Event.source).Sublist s.pc.sources := by
      rw [hpc]
      exact List.Sublist.refl _
    have hstatus : State.status ((s.setSocket k { s.socket k with status := .removed, ready := false }).goto
        (.handle events)) = Function.update s.status k .removed := status_setSocket
    exact T.settle hcurrent.1 hstatus rfl rfl rfl hsub hcurrent.2 (by rw [hpc]; rfl) rfl (.inr ⟨rfl, rfl, rfl⟩)

theorem tracked_of_reachable (h : ((machine streams old).watch fdObserver).Reachable (s, o)) : Tracked s o :=
  h.invariant (I := fun p => Tracked p.1 p.2) tracked_start fun a p q T _ hs => by
    obtain ⟨hs, ho⟩ := watch_step_eq_some.mp hs
    rw [ho]
    exact T.step hs

/-! ### Orphans -/

/-- Where the server waits, what it has accepted is registered, or it has been closed, or it was only taken out of the
    interest list. -/
theorem Tracked.noOrphans_iff (T : Tracked s o) (hwait : s.pc = .wait) : NoOrphans s o ↔ ∀ k, o.dels k = 0 := by
  have haccepted (k : ℕ) : k ∈ o.accepted ↔ s.status k ≠ .unaccepted := by
    have hold := T.accepted k
    rw [hwait] at hold
    simpa [Pc.registering] using hold
  constructor
  · intro hno k
    by_contra hne
    have hremoved : s.status k = .removed := (T.dels k).mp (Nat.pos_of_ne_zero hne)
    have hcloses := T.closes k
    rcases hno k ((haccepted k).mpr (by rw [hremoved]; exact fun h => by cases h)) with ⟨hreg, -⟩ | ⟨-, hone⟩
    · exact absurd (hremoved.symm.trans hreg) fun h => by cases h
    · rw [hremoved, hone] at hcloses
      cases hcloses
  · intro hdels k hk
    have hcloses := T.closes k
    have hdel := T.dels k
    have hnot := (haccepted k).mp hk
    rw [hdels k] at hdel
    show (s.status k = _ ∧ _) ∨ (s.status k ≠ _ ∧ _)
    cases hstatus : s.status k with
    | unaccepted => exact absurd hstatus hnot
    | registered => exact .inl ⟨rfl, by rw [hcloses, hstatus]; rfl⟩
    | removed => exact absurd (hdel.mpr hstatus) (lt_irrefl 0)
    | closed => exact .inr ⟨fun h => (by cases h), by rw [hcloses, hstatus]; rfl⟩

theorem note_dels (hok : KeepsRegistered a s) : (fdObserver.note a s o).dels = o.dels := by
  cases a with
  | server =>
    cases hpc : s.pc with
    | del k events => exact absurd hok (by simp [KeepsRegistered, hpc])
    | handle events =>
      cases events with
      | nil => simp only [fdObserver, hpc]
      | cons e events =>
        simp only [fdObserver, hpc]
        split <;> split <;> rfl
    | _ => simp only [fdObserver, hpc]
  | _ => rfl

theorem dels_of_reach (k : ℕ)
    (h : ((machine streams old).watch fdObserver).Reach (fun a p => KeepsRegistered a p.1) (s, o)) : o.dels k = 0 :=
  h.invariant (I := fun p => p.2.dels k = 0) rfl fun a p q hp hok hs => by
    obtain ⟨-, ho⟩ := watch_step_eq_some.mp hs
    rw [ho, note_dels hok]
    exact hp

/-- In every run in which the read branch is not run to its end, there is no orphan whenever the server waits; and in
    every run, there is none exactly if it has not been so far. -/
theorem no_orphans_of_keeps :
    (∀ s o, ((machine streams old).watch fdObserver).Reach (fun a p => KeepsRegistered a p.1) (s, o) → s.pc = .wait →
      NoOrphans s o) ∧
    ∀ s o, ((machine streams old).watch fdObserver).Reachable (s, o) → s.pc = .wait →
      (NoOrphans s o ↔ ∀ k, o.dels k = 0) := by
  have hiff : ∀ s o, ((machine streams old).watch fdObserver).Reachable (s, o) → s.pc = .wait →
      (NoOrphans s o ↔ ∀ k, o.dels k = 0) := fun s o h hwait => (tracked_of_reachable h).noOrphans_iff hwait
  refine ⟨fun s o h hwait => ?_, hiff⟩
  exact (hiff s o (h.mono fun _ _ _ => trivial) hwait).mpr fun k => dels_of_reach k h

/-- A connection that was reset is closed once; the server has not read from it. -/
theorem no_orphans_of_keeps_reset : ∃ (s : State) (o : Fds), NoOrphans s o ∧ o.accepted = [0] ∧ o.closes 0 = 1 := by
  obtain ⟨⟨s, o⟩, hs, hp⟩ := exists_reach (M := (machine (fun _ => []) []).watch fdObserver)
    (c := fun a p => KeepsRegistered a p.1)
    (p := fun p => decide (p.1.pc = .wait ∧ p.2.accepted = [0] ∧ p.2.closes 0 = 1))
    [.connect, .wait [.server], .server, .server, .server, .reset 0, .wait [.client 0], .server, .server] (by decide +kernel)
  obtain ⟨hwait, haccepted, hcloses⟩ := of_decide_eq_true hp
  exact ⟨s, o, no_orphans_of_keeps.1 s o hs hwait, haccepted, hcloses⟩

/-- A client that sends one byte and finishes: the server reads it all, and waits with the connection still open and not
    registered any more. -/
theorem orphan_after_read : ∃ (s : State) (o : Fds),
    ((machine (fun _ => [1]) []).watch fdObserver).Reachable (s, o) ∧ s.pc = .wait ∧ ¬NoOrphans s o ∧
      o.accepted = [0] ∧ o.closes 0 = 0 ∧ (s.socket 0).status = .removed := by
  obtain ⟨⟨s, o⟩, hs, hp⟩ := exists_reachable (M := (machine (fun _ => [1]) []).watch fdObserver)
    (p := fun p => decide (p.1.pc = .wait ∧ ¬NoOrphans p.1 p.2 ∧ p.2.accepted = [0] ∧ p.2.closes 0 = 0 ∧
      (p.1.socket 0).status = .removed))
    ([.connect, .wait [.server], .server, .server, .server, .arrive 0 1, .finish 0, .wait [.client 0]] ++
      List.replicate 7 .server) (by decide +kernel)
  exact ⟨s, o, hs, of_decide_eq_true hp⟩

end Racey.TcpEpoll
