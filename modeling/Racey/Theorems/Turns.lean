import Mathlib.Tactic.Linarith
import Racey.Turns

/-! The invariant of the scheduling protocol, and what it gives: one turn at a time, a barrier that is left only
    when it is full, and one scheduler for each round. -/

namespace Racey.Turns

variable {V V' : View} {l : Log} {t u : ℕ} {f : Round → Round}

/-! ### The record -/

theorem tick_self (f : ℕ → ℕ) : tick f t t = f t + 1 := Function.update_self _ _ _

theorem tick_of_ne (f : ℕ → ℕ) (h : u ≠ t) : tick f t u = f u := Function.update_of_ne h _ _

namespace Log

@[simp] theorem note_gen : (l.note t f).gen = l.gen := rfl

@[simp] theorem note_joined : (l.note t f).joined = l.joined := rfl

theorem note_round (j : ℕ) : (l.note t f).round j = if j = l.joined t then f (l.round j) else l.round j := by
  by_cases h : j = l.joined t
  · subst h
    simp [note]
  · simp [note, h]

theorem note_cur (h : l.joined t = l.gen) : (l.note t f).cur = f l.cur := by
  simp only [cur, note_gen, note_round, h, if_true]

theorem note_cur_of_ne (h : l.joined t ≠ l.gen) : (l.note t f).cur = l.cur := by
  simp only [cur, note_gen, note_round, h.symm, if_false]

/-- A later record: the rounds opened so far have their values and members still, and no store to `owner` is forgotten. -/
structure Later (l l' : Log) : Prop where
  gen : l.gen ≤ l'.gen
  value : ∀ j ≤ l.gen, (l'.round j).value = (l.round j).value
  members : ∀ j ≤ l.gen, (l'.round j).members = (l.round j).members
  owners : ∀ j ≤ l.gen, ∀ t, (l.round j).owners t ≤ (l'.round j).owners t

theorem Later.refl (l : Log) : Later l l := ⟨le_rfl, fun _ _ => rfl, fun _ _ => rfl, fun _ _ _ => le_rfl⟩

theorem Later.trans {l' l'' : Log} (h : Later l l') (h' : Later l' l'') : Later l l'' where
  gen := h.gen.trans h'.gen
  value := fun j hj => (h'.value j (hj.trans h.gen)).trans (h.value j hj)
  members := fun j hj => (h'.members j (hj.trans h.gen)).trans (h.members j hj)
  owners := fun j hj t => (h.owners j hj t).trans (h'.owners j (hj.trans h.gen) t)

theorem later_note (hvalue : ∀ r, (f r).value = r.value) (hmembers : ∀ r, (f r).members = r.members)
    (howners : ∀ r t, r.owners t ≤ (f r).owners t) : Later l (l.note t f) := by
  refine ⟨le_rfl, fun j _ => ?_, fun j _ => ?_, fun j _ u => ?_⟩ <;> rw [note_round]
  · split
    · exact hvalue _
    · rfl
  · split
    · exact hmembers _
    · rfl
  · split
    · exact howners _ u
    · exact le_rfl

end Log

theorem act_role (role : Role) (o : ℤ) (l : Log) : (V.act t role o l).role t = role := Function.update_self _ _ _

/-- While a thread is between its two stores nobody relies on `round`. -/
theorem View.not_quiet {all : Bool} {x : Option ℤ} (hr : V.role t = .window all x) : ¬ V.Quiet := by
  intro hq
  have hwindow := hq t
  rw [hr] at hwindow
  cases hwindow

/-! ### The invariant -/

namespace View
variable (V : View)

/-- Thread `t` has taken its turn in the current round, which everybody takes part in. -/
structure Joined (t : ℕ) : Prop where
  value : V.cur.value < 0
  joined : V.log.joined t = V.log.gen
  member : t ∈ V.cur.members

/-- The members that have not added themselves to `owner` in the current round. -/
def left : Finset ℕ := V.cur.members.filter fun u => V.cur.adds u = 0

structure OwnerOk : Prop where
  single : 0 < V.cur.value → V.owner = V.cur.value ∧ ∃ u ∈ V.cur.members, V.cur.value = u
  all : V.cur.value < 0 → V.owner = -V.left.card ∧ V.cur.value = -V.cur.members.card
  none : V.cur.value = 0 → V.owner = 0 ∧ V.live = ∅

/-- What a thread's role says about the round. -/
def RoleOk (t : ℕ) : Role → Prop
  | .own => V.cur.value = t ∧ V.log.joined t = V.log.gen
  | .pre b => V.Joined t ∧ V.cur.adds t = 0 ∧ V.cur.batches t = 0 ∧ t ∈ V.live ∧
      ∀ x, b = some x → (x = true ↔ V.Least t)
  | .work b r => V.Joined t ∧ V.cur.adds t = 0 ∧ V.cur.batches t = 1 ∧ r = V.round ∧ V.Quiet ∧ (b = true ↔ V.Least t)
  | .spin b r => (V.Joined t ∧ V.cur.adds t = 1 ∧ r = V.round ∧ V.Quiet ∧ (b = true ↔ V.Least t)) ∨
      (V.log.joined t < V.log.gen ∧ b = false ∧ V.cur.adds t = 0)
  | .lead => V.Joined t ∧ V.Least t ∧ V.Full ∧ V.Quiet
  | .window _ _ => V.log.joined t < V.log.gen ∧ (V.log.round (V.log.joined t)).owners t = 1
  | _ => True

/-- How far a thread is in a round that everybody takes part in. -/
def CountOk (t : ℕ) : Prop :=
  (t ∉ V.cur.members ∧ V.cur.batches t = 0 ∧ V.cur.adds t = 0) ∨
  (t ∈ V.cur.members ∧
    ((V.cur.batches t = 0 ∧ V.cur.adds t = 0) ∨
     (V.cur.batches t = 1 ∧ V.cur.adds t = 0 ∧ ∃ b r, V.role t = .work b r) ∨
     (V.cur.batches t = 1 ∧ V.cur.adds t = 1 ∧
      (V.Full ∨ (V.log.joined t = V.log.gen ∧ ∃ b r, V.role t = .spin b r)))))

/-- Where a member is that has removed itself since the round was opened. -/
def GoneOk (t : ℕ) : Prop :=
  t ∈ V.cur.members → t ∉ V.live →
    (V.cur.value = t → V.role t = .own) ∧ (V.cur.value < 0 → V.cur.adds t = 1 ∨ ∃ b r, V.role t = .work b r)

/-- What is on record of a round that is over: one thread has scheduled, all but perhaps the store to `round`,
    and if everybody took part then each member did so once, and nobody else. -/
structure Over (j : ℕ) : Prop where
  scheduler : ∃ u, ∀ v, (V.log.round j).owners v = (if v = u then 1 else 0) ∧
    (V.log.round j).rounds v = if v = u ∧ ¬ ((V.role u).isWindow = true ∧ V.log.joined u = j) then 1 else 0
  value : (V.log.round j).value < 0 → (V.log.round j).value = -(V.log.round j).members.card
  count : (V.log.round j).value < 0 → ∀ v,
    (v ∈ (V.log.round j).members → (V.log.round j).batches v = 1 ∧ (V.log.round j).adds v = 1) ∧
    (v ∉ (V.log.round j).members → (V.log.round j).batches v = 0 ∧ (V.log.round j).adds v = 0)

end View

structure Inv (V : View) : Prop where
  live : V.live ⊆ V.cur.members
  pos : ∀ u ∈ V.cur.members, 0 < u
  owner : V.OwnerOk
  role : ∀ t, V.RoleOk t (V.role t)
  count : V.cur.value < 0 → ∀ t, V.CountOk t
  leaves : V.cur.value < 0 → ∀ t, 0 < V.cur.leaves t → V.Full
  gone : ∀ t, V.GoneOk t
  blank : ∀ t, V.cur.owners t = 0 ∧ V.cur.rounds t = 0
  earlier : ∀ j < V.log.gen, V.Over j

namespace Inv

theorem value_neg (h : Inv V) (ho : V.owner < 0) : V.cur.value < 0 := by
  rcases lt_trichotomy V.cur.value 0 with hv | hv | hv
  · exact hv
  · have := (h.owner.none hv).1
    omega
  · have := (h.owner.single hv).1
    omega

theorem value_eq (h : Inv V) (ho : 0 < V.owner) : V.cur.value = V.owner := by
  rcases lt_trichotomy V.cur.value 0 with hv | hv | hv
  · have := (h.owner.all hv).1
    omega
  · have := (h.owner.none hv).1
    omega
  · exact (h.owner.single hv).1.symm

theorem adds_le (h : Inv V) (hv : V.cur.value < 0) (t : ℕ) : V.cur.adds t = 0 ∨ V.cur.adds t = 1 := by
  rcases h.count hv t with ⟨-, -, ha⟩ | ⟨-, ⟨-, ha⟩ | ⟨-, ha, -⟩ | ⟨-, ha, -⟩⟩
  · exact Or.inl ha
  · exact Or.inl ha
  · exact Or.inl ha
  · exact Or.inr ha

/-- In a round that everybody takes part in, `owner` is 0 when all have added themselves. -/
theorem owner_eq_zero_iff (h : Inv V) (hv : V.cur.value < 0) : V.owner = 0 ↔ V.Full := by
  rw [(h.owner.all hv).1, neg_eq_zero, Nat.cast_eq_zero, Finset.card_eq_zero, View.left, Finset.filter_eq_empty_iff]
  constructor
  · intro hall u hu
    exact (h.adds_le hv u).resolve_left (hall hu)
  · intro hfull u hu h0
    have := hfull u hu
    omega

/-- Whoever will schedule is alone: nobody else is in a turn of the current round. -/
theorem alone (h : Inv V) (ht : V.role t = .own ∨ V.role t = .lead) (hu : u ≠ t) :
    V.role u ≠ .own ∧ (∀ b, V.role u ≠ .pre b) ∧ (∀ b r, V.role u ≠ .work b r) ∧ V.role u ≠ .lead := by
  have hru := h.role u
  rcases ht with ht | ht
  · have hrt := h.role t
    rw [ht] at hrt
    have hpos : 0 ≤ V.cur.value := by rw [hrt.1]; exact Int.natCast_nonneg t
    refine ⟨fun heq => ?_, fun b heq => ?_, fun b r heq => ?_, fun heq => ?_⟩ <;> rw [heq] at hru
    · exact hu (Int.ofNat_inj.mp (hru.1.symm.trans hrt.1))
    · exact absurd hru.1.value (not_lt.mpr hpos)
    · exact absurd hru.1.value (not_lt.mpr hpos)
    · exact absurd hru.1.value (not_lt.mpr hpos)
  · have hrt := h.role t
    rw [ht] at hrt
    obtain ⟨hj, hleast, hfull, -⟩ := hrt
    refine ⟨fun heq => ?_, fun b heq => ?_, fun b r heq => ?_, fun heq => ?_⟩ <;> rw [heq] at hru
    · have := hru.1 ▸ hj.value
      omega
    · have := hfull u hru.1.member
      have := hru.2.1
      omega
    · have := hfull u hru.1.member
      have := hru.2.1
      omega
    · exact hu (Nat.le_antisymm (hru.2.1 t hj.member) (hleast u hru.1.member))

end Inv

/-! ### Moves that concern one thread -/

/-- Only thread `t` has changed, and it is not between the two stores of a scheduler. -/
structure Frame (t : ℕ) (V V' : View) : Prop where
  round : V'.round = V.round
  gen : V'.log.gen = V.log.gen
  value : V'.cur.value = V.cur.value
  members : V'.cur.members = V.cur.members
  owners : V'.cur.owners = V.cur.owners
  rounds : V'.cur.rounds = V.cur.rounds
  adds : ∀ u ≠ t, V'.cur.adds u = V.cur.adds u
  batches : ∀ u ≠ t, V'.cur.batches u = V.cur.batches u
  joined : ∀ u ≠ t, V'.log.joined u = V.log.joined u
  live : ∀ u ≠ t, u ∈ V'.live ↔ u ∈ V.live
  role : ∀ u ≠ t, V'.role u = V.role u
  old : ∀ j < V.log.gen, ∃ leaves, V'.log.round j = { V.log.round j with leaves := leaves }
  full : V.Full → V'.Full
  before : (V.role t).isWindow = false
  after : (V'.role t).isWindow = false

namespace Frame

theorem quiet (f : Frame t V V') (h : V.Quiet) : V'.Quiet := by
  intro u
  by_cases hu : u = t
  · rw [hu]
    exact f.after
  · rw [f.role u hu]
    exact h u

theorem least (f : Frame t V V') : V'.Least u ↔ V.Least u := by rw [View.Least, f.members, View.Least]

theorem joinedIn (f : Frame t V V') (hu : u ≠ t) (h : V.Joined u) : V'.Joined u where
  value := by rw [f.value]; exact h.value
  joined := by rw [f.joined u hu, f.gen]; exact h.joined
  member := by rw [f.members]; exact h.member

theorem roleOk (f : Frame t V V') (hu : u ≠ t) (h : V.RoleOk u (V.role u)) : V'.RoleOk u (V'.role u) := by
  rw [f.role u hu]
  cases hr : V.role u <;> rw [hr] at h
  case own => exact ⟨f.value.trans h.1, by rw [f.joined u hu, f.gen]; exact h.2⟩
  case pre b =>
    obtain ⟨hj, ha, hb, hl, hx⟩ := h
    refine ⟨f.joinedIn hu hj, by rw [f.adds u hu, ha], by rw [f.batches u hu, hb], (f.live u hu).mpr hl, fun x hbx => ?_⟩
    rw [f.least]
    exact hx x hbx
  case work b r =>
    obtain ⟨hj, ha, hb, rfl, hq, hl⟩ := h
    refine ⟨f.joinedIn hu hj, by rw [f.adds u hu, ha], by rw [f.batches u hu, hb], f.round.symm, f.quiet hq, ?_⟩
    rw [f.least]
    exact hl
  case spin b r =>
    rcases h with ⟨hj, ha, rfl, hq, hl⟩ | ⟨hlt, hb, ha⟩
    · refine Or.inl ⟨f.joinedIn hu hj, by rw [f.adds u hu, ha], f.round.symm, f.quiet hq, ?_⟩
      rw [f.least]
      exact hl
    · exact Or.inr ⟨by rw [f.joined u hu, f.gen]; exact hlt, hb, by rw [f.adds u hu, ha]⟩
  case lead =>
    obtain ⟨hj, hl, hf, hq⟩ := h
    exact ⟨f.joinedIn hu hj, f.least.mpr hl, f.full hf, f.quiet hq⟩
  case window a x =>
    obtain ⟨hlt, ho⟩ := h
    obtain ⟨_, hold⟩ := f.old _ hlt
    refine ⟨by rw [f.joined u hu, f.gen]; exact hlt, ?_⟩
    rw [f.joined u hu, hold]
    exact ho
  all_goals trivial

theorem countOk (f : Frame t V V') (hu : u ≠ t) (h : V.CountOk u) : V'.CountOk u := by
  unfold View.CountOk at h ⊢
  rw [f.members, f.batches u hu, f.adds u hu, f.joined u hu, f.gen, f.role u hu]
  rcases h with h | ⟨hm, h | h | ⟨hb, ha, h⟩⟩
  · exact Or.inl h
  · exact Or.inr ⟨hm, Or.inl h⟩
  · exact Or.inr ⟨hm, Or.inr (Or.inl h)⟩
  · exact Or.inr ⟨hm, Or.inr (Or.inr ⟨hb, ha, h.imp f.full id⟩)⟩

theorem goneOk (f : Frame t V V') (hu : u ≠ t) (h : V.GoneOk u) : V'.GoneOk u := by
  unfold View.GoneOk at h ⊢
  rw [f.members, f.live u hu, f.value, f.role u hu, f.adds u hu]
  exact h

theorem earlier (f : Frame t V V') {j : ℕ} (hj : j < V.log.gen) (h : V.Over j) : V'.Over j := by
  obtain ⟨leaves, hold⟩ := f.old j hj
  obtain ⟨⟨u, hs⟩, hv, hc⟩ := h
  refine ⟨⟨u, fun v => ?_⟩, by rw [hold]; exact hv, by rw [hold]; exact hc⟩
  rw [hold]
  refine ⟨(hs v).1, (hs v).2.trans ?_⟩
  by_cases hu : u = t
  · subst hu
    rw [f.before, f.after]
    simp
  · rw [f.role u hu, f.joined u hu]

/-- The invariant is kept if what it says about `t` and about `owner` is. -/
theorem inv (f : Frame t V V') (h : Inv V) (hlive : V'.live ⊆ V.live) (howner : V'.OwnerOk)
    (hrole : V'.RoleOk t (V'.role t)) (hcount : V.cur.value < 0 → V'.CountOk t)
    (hleaves : V.cur.value < 0 → ∀ u, 0 < V'.cur.leaves u → 0 < V.cur.leaves u ∨ V'.Full) (hgone : V'.GoneOk t) :
    Inv V' where
  live := by
    rw [f.members]
    exact hlive.trans h.live
  pos := by
    rw [f.members]
    exact h.pos
  owner := howner
  role := fun u => by
    by_cases hu : u = t
    · rw [hu]
      exact hrole
    · exact f.roleOk hu (h.role u)
  count := fun hv u => by
    rw [f.value] at hv
    by_cases hu : u = t
    · rw [hu]
      exact hcount hv
    · exact f.countOk hu (h.count hv u)
  leaves := fun hv u hlt => by
    rw [f.value] at hv
    rcases hleaves hv u hlt with hlt | hfull
    · exact f.full (h.leaves hv u hlt)
    · exact hfull
  gone := fun u => by
    by_cases hu : u = t
    · rw [hu]
      exact hgone
    · exact f.goneOk hu (h.gone u)
  blank := by
    rw [f.owners, f.rounds]
    exact h.blank
  earlier := fun j hj => by
    rw [f.gen] at hj
    exact f.earlier hj (h.earlier j hj)

end Frame

structure Touches (t : ℕ) (f : Round → Round) : Prop where
  value : ∀ r, (f r).value = r.value
  members : ∀ r, (f r).members = r.members
  owners : ∀ r, (f r).owners = r.owners
  rounds : ∀ r, (f r).rounds = r.rounds
  adds : ∀ r, ∀ u ≠ t, (f r).adds u = r.adds u
  batches : ∀ r, ∀ u ≠ t, (f r).batches u = r.batches u

section Frames
variable {role : Role} {o : ℤ}

theorem frame_goto (before : (V.role t).isWindow = false) (after : role.isWindow = false) :
    Frame t V (V.goto t role) where
  round := rfl
  gen := rfl
  value := rfl
  members := rfl
  owners := rfl
  rounds := rfl
  adds := fun _ _ => rfl
  batches := fun _ _ => rfl
  joined := fun _ _ => rfl
  live := fun _ _ => Iff.rfl
  role := fun _ hu => Function.update_of_ne hu _ _
  old := fun j _ => ⟨(V.log.round j).leaves, rfl⟩
  full := id
  before := before
  after := by simpa [View.act] using after

theorem frame_join (before : (V.role t).isWindow = false) (after : role.isWindow = false) :
    Frame t V (V.act t role V.owner (V.log.join t)) where
  round := rfl
  gen := rfl
  value := rfl
  members := rfl
  owners := rfl
  rounds := rfl
  adds := fun _ _ => rfl
  batches := fun _ _ => rfl
  joined := fun _ hu => Function.update_of_ne hu _ _
  live := fun _ _ => Iff.rfl
  role := fun _ hu => Function.update_of_ne hu _ _
  old := fun j _ => ⟨(V.log.round j).leaves, rfl⟩
  full := id
  before := before
  after := by simpa [View.act] using after

theorem frame_erase (before : (V.role t).isWindow = false) : Frame t V { V with live := V.live.erase t } where
  round := rfl
  gen := rfl
  value := rfl
  members := rfl
  owners := rfl
  rounds := rfl
  adds := fun _ _ => rfl
  batches := fun _ _ => rfl
  joined := fun _ _ => rfl
  live := fun u hu => by rw [Finset.mem_erase]; exact and_iff_right hu
  role := fun _ _ => rfl
  old := fun j _ => ⟨(V.log.round j).leaves, rfl⟩
  full := id
  before := before
  after := before

theorem frame_note (hf : Touches t f) (hj : V.log.joined t = V.log.gen)
    (full : V.Full → (V.act t role o (V.log.note t f)).Full)
    (before : (V.role t).isWindow = false) (after : role.isWindow = false) :
    Frame t V (V.act t role o (V.log.note t f)) :=
  have hcur : (V.act t role o (V.log.note t f)).cur = f V.cur := Log.note_cur hj
  { round := rfl
    gen := rfl
    value := by rw [hcur, hf.value]
    members := by rw [hcur, hf.members]
    owners := by rw [hcur, hf.owners]
    rounds := by rw [hcur, hf.rounds]
    adds := fun u hu => by rw [hcur, hf.adds _ u hu]
    batches := fun u hu => by rw [hcur, hf.batches _ u hu]
    joined := fun _ _ => rfl
    live := fun _ _ => Iff.rfl
    role := fun _ hu => Function.update_of_ne hu _ _
    old := fun j hlt => ⟨(V.log.round j).leaves, by
      show (V.log.note t f).round j = _
      rw [Log.note_round, if_neg (fun heq => absurd (heq.trans hj) (Nat.ne_of_lt hlt))]⟩
    full := full
    before := before
    after := by simpa [View.act] using after }

/-- Leaving the barrier of a round that is over is an entry in an old record only. -/
theorem frame_leave (hj : V.log.joined t < V.log.gen) (before : (V.role t).isWindow = false)
    (after : role.isWindow = false) : Frame t V (V.act t role V.owner (V.log.leave t)) :=
  have hcur : (V.act t role V.owner (V.log.leave t)).cur = V.cur := Log.note_cur_of_ne (Nat.ne_of_lt hj)
  { round := rfl
    gen := rfl
    value := by rw [hcur]
    members := by rw [hcur]
    owners := by rw [hcur]
    rounds := by rw [hcur]
    adds := fun u _ => by rw [hcur]
    batches := fun u _ => by rw [hcur]
    joined := fun _ _ => rfl
    live := fun _ _ => Iff.rfl
    role := fun _ hu => Function.update_of_ne hu _ _
    old := fun j _ => by
      show ∃ leaves, (V.log.leave t).round j = _
      simp only [Log.leave, Log.note_round]
      split
      · exact ⟨_, rfl⟩
      · exact ⟨(V.log.round j).leaves, rfl⟩
    full := by
      unfold View.Full
      rw [hcur]
      exact id
    before := before
    after := by simpa [View.act] using after }

end Frames

theorem touches_batch : Touches t fun r => { r with batches := tick r.batches t } :=
  ⟨fun _ => rfl, fun _ => rfl, fun _ => rfl, fun _ => rfl, fun _ _ _ => rfl, fun _ _ hu => tick_of_ne _ hu⟩

theorem touches_add : Touches t fun r => { r with adds := tick r.adds t } :=
  ⟨fun _ => rfl, fun _ => rfl, fun _ => rfl, fun _ => rfl, fun _ _ hu => tick_of_ne _ hu, fun _ _ _ => rfl⟩

theorem touches_leave : Touches t fun r => { r with leaves := tick r.leaves t } :=
  ⟨fun _ => rfl, fun _ => rfl, fun _ => rfl, fun _ => rfl, fun _ _ _ => rfl, fun _ _ _ => rfl⟩

theorem ownerOk_of (h : V.OwnerOk) (howner : V'.owner = V.owner) (hvalue : V'.cur.value = V.cur.value)
    (hmembers : V'.cur.members = V.cur.members) (hadds : V'.cur.adds = V.cur.adds) (hlive : V'.live ⊆ V.live) :
    V'.OwnerOk where
  single := by
    rw [howner, hvalue, hmembers]
    exact h.single
  all := by
    rw [howner, hvalue, hmembers, View.left, hmembers, hadds]
    exact h.all
  none := by
    rw [howner, hvalue]
    intro hv
    refine ⟨(h.none hv).1, Finset.subset_empty.mp ?_⟩
    rw [← (h.none hv).2]
    exact hlive

/-- A thread that is neither in its batch nor at the barrier has not begun its turn, or all have ended it. -/
theorem View.CountOk.settled (h : V.CountOk t) (hw : ∀ b r, V.role t ≠ .work b r) (hs : ∀ b r, V.role t ≠ .spin b r) :
    (t ∉ V.cur.members ∧ V.cur.batches t = 0 ∧ V.cur.adds t = 0) ∨
    (t ∈ V.cur.members ∧ V.cur.batches t = 0 ∧ V.cur.adds t = 0) ∨
    (t ∈ V.cur.members ∧ V.cur.batches t = 1 ∧ V.cur.adds t = 1 ∧ V.Full) := by
  rcases h with h | ⟨hm, h | ⟨-, -, b, r, heq⟩ | ⟨hb, ha, hfull | ⟨-, b, r, heq⟩⟩⟩
  · exact Or.inl h
  · exact Or.inr (Or.inl ⟨hm, h⟩)
  · exact absurd heq (hw b r)
  · exact Or.inr (Or.inr ⟨hm, hb, ha, hfull⟩)
  · exact absurd heq (hs b r)

theorem View.CountOk.of_settled
    (h : (t ∉ V.cur.members ∧ V.cur.batches t = 0 ∧ V.cur.adds t = 0) ∨
      (t ∈ V.cur.members ∧ V.cur.batches t = 0 ∧ V.cur.adds t = 0) ∨
      (t ∈ V.cur.members ∧ V.cur.batches t = 1 ∧ V.cur.adds t = 1 ∧ V.Full)) : V.CountOk t := by
  rcases h with h | ⟨hm, h⟩ | ⟨hm, hb, ha, hfull⟩
  · exact Or.inl h
  · exact Or.inr ⟨hm, Or.inl h⟩
  · exact Or.inr ⟨hm, Or.inr (Or.inr ⟨hb, ha, Or.inl hfull⟩)⟩

theorem full_of_adds {role : Role} {o : ℤ} {l : Log} {b m : ℕ → ℕ}
    (hcur : (V.act t role o l).cur = { V.cur with batches := b, leaves := m }) (hf : V.Full) :
    (V.act t role o l).Full := by
  intro u hu
  rw [hcur] at hu ⊢
  exact hf u hu

namespace Inv

theorem enterOwn (h : Inv V) (hr : V.role t = .out) (hl : t ∈ V.live) (ho : V.owner = t) :
    Inv (V.act t .own V.owner (V.log.join t)) := by
  have hpos : 0 < V.owner := by
    rw [ho]
    exact Int.natCast_pos.mpr (h.pos t (h.live hl))
  have hframe : Frame t V (V.act t .own V.owner (V.log.join t)) := frame_join (by rw [hr]; rfl) rfl
  refine hframe.inv h (Finset.Subset.refl _) (ownerOk_of h.owner rfl rfl rfl rfl (Finset.Subset.refl _)) ?_
    (fun hv => ?_) (fun _ _ => Or.inl) fun _ hn => absurd hl hn
  · rw [act_role]
    exact ⟨(h.value_eq hpos).trans ho, Function.update_self _ _ _⟩
  · have := h.value_eq hpos
    omega

theorem enterAll (h : Inv V) (hr : V.role t = .out) (hl : t ∈ V.live) (ho : V.owner < 0) :
    Inv (V.act t (.pre none) V.owner (V.log.join t)) := by
  have hv := h.value_neg ho
  have hfull : ¬ V.Full := by
    rw [← h.owner_eq_zero_iff hv]
    omega
  have hcount := (h.count hv t).settled (by simp [hr]) (by simp [hr])
  have hfresh : t ∈ V.cur.members ∧ V.cur.batches t = 0 ∧ V.cur.adds t = 0 := by
    rcases hcount with ⟨hm, -⟩ | hc | ⟨-, -, -, hf⟩
    · exact absurd (h.live hl) hm
    · exact hc
    · exact absurd hf hfull
  have hframe : Frame t V (V.act t (.pre none) V.owner (V.log.join t)) := frame_join (by rw [hr]; rfl) rfl
  refine hframe.inv h (Finset.Subset.refl _) (ownerOk_of h.owner rfl rfl rfl rfl (Finset.Subset.refl _)) ?_
    (fun _ => View.CountOk.of_settled (Or.inr (Or.inl hfresh))) (fun _ _ => Or.inl) fun _ hn => absurd hl hn
  rw [act_role]
  exact ⟨⟨hv, Function.update_self _ _ _, hfresh.1⟩, hfresh.2.2, hfresh.2.1, hl, fun _ hx => by cases hx⟩

/-- Whoever learns whether it is the leader learns it right. -/
theorem learn (h : Inv V) (b : Bool) (hr : V.role t = .pre none) (hb : b = true ↔ V.Least t) :
    Inv (V.goto t (.pre (some b))) := by
  have hrt := h.role t
  rw [hr] at hrt
  obtain ⟨hj, ha, hb0, hl, -⟩ := hrt
  have hframe : Frame t V (V.goto t (.pre (some b))) := frame_goto (by rw [hr]; rfl) rfl
  refine hframe.inv h (Finset.Subset.refl _) (ownerOk_of h.owner rfl rfl rfl rfl (Finset.Subset.refl _)) ?_
    (fun _ => View.CountOk.of_settled (Or.inr (Or.inl ⟨hj.member, hb0, ha⟩))) (fun _ _ => Or.inl)
    fun _ hn => absurd hl hn
  rw [act_role]
  refine ⟨⟨hj.value, hj.joined, hj.member⟩, ha, hb0, hl, fun x hx => ?_⟩
  cases hx
  exact hb

/-- If nobody below `t` is left in the group, and nobody below `t` is absent from it, then `t` is the leader. -/
theorem least_of_scan (h : Inv V) (hr : V.role t = .pre none) (hscan : ∀ u < t, u ∉ V.live)
    (habsent : ∀ u < t, ¬ V.Absent u) : V.Least t := by
  have hrt := h.role t
  rw [hr] at hrt
  obtain ⟨hj, ha, -⟩ := hrt
  intro u hu
  by_contra hlt
  have hlt := Nat.lt_of_not_le hlt
  have hn := hscan u hlt
  refine habsent u hlt ⟨hn, ?_⟩
  have hru := h.role u
  -- A member that has removed itself in this round is in its batch or at the barrier of this round.
  rcases (h.gone u hu hn).2 hj.value with ha1 | ⟨b, r, hw⟩
  · rcases h.count hj.value u with ⟨hm, -⟩ | ⟨-, ⟨-, h0⟩ | ⟨-, h0, -⟩ | ⟨-, -, hfull | ⟨hju, b, r, hs⟩⟩⟩
    · exact absurd hu hm
    · omega
    · omega
    · have := hfull t hj.member
      omega
    · rw [hs] at hru
      rcases hru with ⟨-, -, rfl, -⟩ | ⟨hlt', -⟩
      · exact Or.inr ⟨b, hs⟩
      · omega
  · rw [hw] at hru
    obtain ⟨-, -, -, rfl, -⟩ := hru
    exact Or.inl ⟨b, hw⟩

theorem beginOwn (h : Inv V) (hr : V.role t = .own) : Inv (V.act t .own V.owner (V.log.batch t)) := by
  have hrt := h.role t
  rw [hr] at hrt
  have hcur : (V.act t .own V.owner (V.log.batch t)).cur = { V.cur with batches := tick V.cur.batches t } :=
    Log.note_cur hrt.2
  have hframe : Frame t V (V.act t .own V.owner (V.log.batch t)) :=
    frame_note touches_batch hrt.2 (full_of_adds hcur) (by rw [hr]; rfl) rfl
  have hrole : (V.act t .own V.owner (V.log.batch t)).role t = .own := act_role _ _ _
  refine hframe.inv h (Finset.Subset.refl _) (ownerOk_of h.owner rfl hframe.value hframe.members (by rw [hcur])
    (Finset.Subset.refl _)) ?_ (fun hv => ?_) (fun _ u hu => Or.inl ?_) fun hm hn => ⟨fun _ => hrole, fun hv => ?_⟩
  · rw [hrole]
    exact ⟨hframe.value.trans hrt.1, hrt.2⟩
  · have := hrt.1
    omega
  · rw [hcur] at hu
    exact hu
  · have := hframe.value.trans hrt.1
    omega

theorem beginAll (h : Inv V) {b : Bool} (hr : V.role t = .pre (some b)) (hq : V.Quiet) :
    Inv (V.act t (.work b V.round) V.owner (V.log.batch t)) := by
  have hrt := h.role t
  rw [hr] at hrt
  obtain ⟨hj, ha, hb0, hl, hb⟩ := hrt
  have hcur : (V.act t (.work b V.round) V.owner (V.log.batch t)).cur =
      { V.cur with batches := tick V.cur.batches t } := Log.note_cur hj.joined
  have hframe : Frame t V (V.act t (.work b V.round) V.owner (V.log.batch t)) :=
    frame_note touches_batch hj.joined (full_of_adds hcur) (by rw [hr]; rfl) rfl
  have hb1 : (V.act t (.work b V.round) V.owner (V.log.batch t)).cur.batches t = 1 := by
    rw [hcur]
    exact (tick_self _).trans (by rw [hb0])
  have hjoined : (V.act t (.work b V.round) V.owner (V.log.batch t)).Joined t :=
    ⟨hframe.value.trans_lt hj.value, hj.joined, by rw [hframe.members]; exact hj.member⟩
  refine hframe.inv h (Finset.Subset.refl _) (ownerOk_of h.owner rfl hframe.value hframe.members ?_
    (Finset.Subset.refl _)) ?_ (fun _ => ?_) (fun _ u hu => Or.inl ?_) ?_
  · rw [hcur]
  · rw [act_role]
    refine ⟨hjoined, by rw [hcur]; exact ha, hb1, rfl, hframe.quiet hq, ?_⟩
    rw [hframe.least]
    exact hb b rfl
  · refine Or.inr ⟨hjoined.member, Or.inr (Or.inl ⟨hb1, by rw [hcur]; exact ha, b, V.round, ?_⟩)⟩
    exact Function.update_self _ _ _
  · rw [hcur] at hu
    exact hu
  · intro _ hn
    exact absurd hl hn

theorem remove (h : Inv V) (hr : V.role t = .own ∨ ∃ b r, V.role t = .work b r) :
    Inv { V with live := V.live.erase t } := by
  have hwin : (V.role t).isWindow = false := by
    rcases hr with hr | ⟨b, r, hr⟩ <;> rw [hr] <;> rfl
  have hframe : Frame t V { V with live := V.live.erase t } := frame_erase hwin
  have hrt := h.role t
  refine hframe.inv h (Finset.erase_subset _ _) (ownerOk_of h.owner rfl rfl rfl rfl (Finset.erase_subset _ _)) ?_
    (fun hv => h.count hv t) (fun _ _ => Or.inl) fun _ _ => ?_
  · rcases hr with hr | ⟨b, r, hr⟩ <;> rw [hr] at hrt <;> simp only [hr]
    · exact hrt
    · obtain ⟨hj, hrt⟩ := hrt
      exact ⟨⟨hj.value, hj.joined, hj.member⟩, hrt⟩
  · rcases hr with hr | ⟨b, r, hr⟩ <;> rw [hr] at hrt
    · refine ⟨fun _ => hr, fun hv => ?_⟩
      have hv : V.cur.value < 0 := hv
      have := hrt.1
      omega
    · refine ⟨fun hv => ?_, fun _ => Or.inr ⟨b, r, hr⟩⟩
      have hv : V.cur.value = t := hv
      have := hrt.1.value
      omega

theorem add (h : Inv V) {b : Bool} {r : ℤ} (hr : V.role t = .work b r) :
    Inv (V.act t (.spin b r) (V.owner + 1) (V.log.add t)) := by
  have hrt := h.role t
  rw [hr] at hrt
  obtain ⟨hj, ha, hb1, rfl, hq, hb⟩ := hrt
  have hcur : (V.act t (.spin b V.round) (V.owner + 1) (V.log.add t)).cur =
      { V.cur with adds := tick V.cur.adds t } := Log.note_cur hj.joined
  have hnot : ¬ V.Full := fun hf => by
    have := hf t hj.member
    omega
  have hframe : Frame t V (V.act t (.spin b V.round) (V.owner + 1) (V.log.add t)) :=
    frame_note touches_add hj.joined (fun hf => absurd hf hnot) (by rw [hr]; rfl) rfl
  have ha1 : (V.act t (.spin b V.round) (V.owner + 1) (V.log.add t)).cur.adds t = 1 := by
    rw [hcur]
    exact (tick_self _).trans (by rw [ha])
  have hjoined : (V.act t (.spin b V.round) (V.owner + 1) (V.log.add t)).Joined t :=
    ⟨hframe.value.trans_lt hj.value, hj.joined, by rw [hframe.members]; exact hj.member⟩
  have hrole : (V.act t (.spin b V.round) (V.owner + 1) (V.log.add t)).role t =
      .spin b V.round := act_role _ _ _
  refine hframe.inv h (Finset.Subset.refl _) ⟨fun hv => ?_, fun hv => ?_, fun hv => ?_⟩ ?_ (fun _ => ?_)
    (fun _ u hu => Or.inl ?_) fun _ hn => ⟨fun hv => ?_, fun _ => Or.inl ha1⟩
  · rw [hframe.value] at hv
    exact absurd hj.value hv.not_gt
  · -- One member fewer is left, and `owner` is one more.
    have hleft : (V.act t (.spin b V.round) (V.owner + 1) (V.log.add t)).left =
        V.left.erase t := by
      ext u
      simp only [View.left, hcur, Finset.mem_filter, Finset.mem_erase]
      by_cases hu : u = t
      · subst hu
        simp [tick_self]
      · simp [tick_of_ne _ hu, hu]
    have hmem : t ∈ V.left := Finset.mem_filter.mpr ⟨hj.member, ha⟩
    have hpos : 0 < V.left.card := Finset.card_pos.mpr ⟨t, hmem⟩
    rw [hleft, Finset.card_erase_of_mem hmem, hframe.value, hframe.members]
    refine ⟨?_, (h.owner.all hj.value).2⟩
    show V.owner + 1 = _
    rw [(h.owner.all hj.value).1]
    omega
  · rw [hframe.value] at hv
    exact absurd hj.value (by omega)
  · rw [hrole]
    refine Or.inl ⟨hjoined, ha1, rfl, hframe.quiet hq, ?_⟩
    rw [hframe.least]
    exact hb
  · refine Or.inr ⟨hjoined.member, Or.inr (Or.inr ⟨by rw [hcur]; exact hb1, ha1, Or.inr ⟨hj.joined, b, V.round, ?_⟩⟩)⟩
    exact hrole
  · rw [hcur] at hu
    exact hu
  · rw [hframe.value] at hv
    have := hj.value
    omega

theorem leave (h : Inv V) {b : Bool} {r : ℤ} (hr : V.role t = .spin b r) (hgo : V.owner = 0 ∨ V.round ≠ r) :
    Inv (V.act t (if b then .lead else .rest false r) V.owner (V.log.leave t)) := by
  have hrt := h.role t
  rw [hr] at hrt
  have hafter : (if b then Role.lead else .rest false r).isWindow = false := by cases b <;> rfl
  have hrole : (V.act t (if b then .lead else .rest false r) V.owner (V.log.leave t)).role t =
      if b then .lead else .rest false r := Function.update_self _ _ _
  rcases hrt with ⟨hj, ha, hround, hq, hb⟩ | ⟨hlt, rfl, ha⟩
  · -- The barrier of the current round: `owner` is 0, so it is full.
    have hfull : V.Full := (h.owner_eq_zero_iff hj.value).mp (hgo.resolve_right fun hne => hne hround.symm)
    have hcur : (V.act t (if b then .lead else .rest false r) V.owner (V.log.leave t)).cur =
        { V.cur with leaves := tick V.cur.leaves t } := Log.note_cur hj.joined
    have hframe : Frame t V (V.act t (if b then .lead else .rest false r) V.owner (V.log.leave t)) :=
      frame_note touches_leave hj.joined (full_of_adds hcur) (by rw [hr]; rfl) hafter
    have hfull' := hframe.full hfull
    have hb1 : V.cur.batches t = 1 := by
      rcases h.count hj.value t with ⟨hm, -⟩ | ⟨-, ⟨-, h0⟩ | ⟨hb1, -⟩ | ⟨hb1, -⟩⟩
      · exact absurd hj.member hm
      · omega
      · exact hb1
      · exact hb1
    refine hframe.inv h (Finset.Subset.refl _) (ownerOk_of h.owner rfl hframe.value hframe.members (by rw [hcur])
      (Finset.Subset.refl _)) ?_ (fun _ => View.CountOk.of_settled (Or.inr (Or.inr ?_))) (fun _ _ _ => Or.inr hfull')
      fun hm hn => ?_
    · rw [hrole]
      cases b with
      | true =>
        refine ⟨⟨hframe.value.trans_lt hj.value, hj.joined, by rw [hframe.members]; exact hj.member⟩, ?_, hfull',
          hframe.quiet hq⟩
        rw [hframe.least]
        exact hb.mp rfl
      | false => trivial
    · rw [hframe.members, hcur]
      exact ⟨hj.member, hb1, ha, hfull'⟩
    · rw [hframe.value, hcur]
      have := hj.value
      exact ⟨fun hv => by omega, fun _ => Or.inl ha⟩
  · have hcur : (V.act t (if false then .lead else .rest false r) V.owner (V.log.leave t)).cur = V.cur :=
      Log.note_cur_of_ne (Nat.ne_of_lt hlt)
    have hframe : Frame t V (V.act t (if false then .lead else .rest false r) V.owner (V.log.leave t)) :=
      frame_leave hlt (by rw [hr]; rfl) hafter
    refine hframe.inv h (Finset.Subset.refl _) (ownerOk_of h.owner rfl hframe.value hframe.members (by rw [hcur])
      (Finset.Subset.refl _)) (by rw [hrole]; trivial) (fun hv => ?_) (fun _ u hu => Or.inl ?_) fun hm hn => ?_
    · rcases h.count hv t with hc | ⟨hm, hc | ⟨-, -, b, r, hw⟩ | ⟨-, ha1, -⟩⟩
      · exact View.CountOk.of_settled (Or.inl (by rw [hcur]; exact hc))
      · exact View.CountOk.of_settled (Or.inr (Or.inl (by rw [hcur]; exact ⟨hm, hc⟩)))
      · rw [hr] at hw
        cases hw
      · omega
    · rw [hcur] at hu
      exact hu
    · rw [hcur] at hm ⊢
      have hg := h.gone t hm hn
      rw [hr] at hg
      refine ⟨fun hv => absurd (hg.1 hv) (by simp), fun hv => ?_⟩
      rcases hg.2 hv with ha1 | ⟨b, r, hw⟩
      · exact Or.inl ha1
      · cases hw

end Inv

/-! ### The stores of a scheduler -/

section Next
variable {v : ℤ} {live : Finset ℕ}

theorem next_cur : (l.next t v live).cur = Round.opened v live := Function.update_self _ _ _

theorem next_round {j : ℕ} (hj : j ≤ l.gen) :
    (l.next t v live).round j = (l.note t fun r => { r with owners := tick r.owners t }).round j :=
  Function.update_of_ne (by omega) _ _

theorem next_round_gen (hj : l.joined t = l.gen) :
    (l.next t v live).round l.gen = { l.cur with owners := tick l.cur.owners t } := by
  rw [next_round (Nat.le_refl _), Log.note_round, if_pos hj.symm]
  rfl

theorem next_round_of_lt {j : ℕ} (hj : l.joined t = l.gen) (hlt : j < l.gen) :
    (l.next t v live).round j = l.round j := by
  rw [next_round (Nat.le_of_lt hlt), Log.note_round, if_neg (by omega)]

theorem later_next : l.Later (l.next t v live) := by
  have htick : ∀ (r : Round) u, r.owners u ≤ tick r.owners t u := by
    intro r u
    rcases eq_or_ne u t with rfl | hu
    · rw [tick_self]
      exact Nat.le_succ _
    · rw [tick_of_ne _ hu]
  have hnote : l.Later (l.note t fun r => { r with owners := tick r.owners t }) :=
    Log.later_note (fun _ => rfl) (fun _ => rfl) htick
  refine ⟨Nat.le_succ _, fun j hj => ?_, fun j hj => ?_, fun j hj => ?_⟩ <;> rw [next_round hj]
  · exact hnote.value j hj
  · exact hnote.members j hj
  · exact hnote.owners j hj

end Next

theorem View.Choice.ownerOk {v : ℤ} (hc : V.Choice v) (hpos : ∀ u ∈ V.live, 0 < u) {role : Role} {l : Log}
    (hcur : (V.act t role v l).cur = Round.opened v V.live) : (V.act t role v l).OwnerOk := by
  have hvalue : (V.act t role v l).cur.value = v := by rw [hcur]; rfl
  have hmembers : (V.act t role v l).cur.members = V.live := by rw [hcur]; rfl
  have hleft : (V.act t role v l).left = V.live := by
    rw [View.left, hcur]
    exact Finset.filter_true_of_mem fun _ _ => rfl
  rcases hc with ⟨u, hu, rfl⟩ | ⟨hne, rfl⟩ | ⟨hempty, rfl⟩
  · have := hpos u hu
    refine ⟨fun _ => ?_, fun hv => ?_, fun hv => ?_⟩
    · rw [hvalue, hmembers]
      exact ⟨rfl, u, hu, rfl⟩
    · omega
    · omega
  · have := Finset.card_pos.mpr hne
    refine ⟨fun hv => ?_, fun _ => ?_, fun hv => ?_⟩
    · omega
    · rw [hvalue, hmembers, hleft]
      exact ⟨rfl, rfl⟩
    · omega
  · refine ⟨fun hv => ?_, fun hv => ?_, fun _ => ⟨rfl, hempty⟩⟩
    · omega
    · omega

namespace Inv

/-- A round is over when its scheduler stores to `owner`. -/
theorem over_next (h : Inv V) {all : Bool} {v : ℤ} (hr : V.role t = if all then .lead else .own)
    (hj : V.log.joined t = V.log.gen) {j : ℕ} (hlt : j ≤ V.log.gen) :
    (V.act t (.window all none) v (V.log.next t v V.live)).Over j := by
  have hwas : (V.role t).isWindow = false := by
    rw [hr]
    cases all <;> rfl
  rcases Nat.lt_or_eq_of_le hlt with hlt | rfl
  · have hround : (V.act t (.window all none) v (V.log.next t v V.live)).log.round j = V.log.round j :=
      next_round_of_lt hj hlt
    obtain ⟨⟨u, hs⟩, hv, hc⟩ := h.earlier j hlt
    refine ⟨⟨u, fun w => ?_⟩, by rw [hround]; exact hv, by rw [hround]; exact hc⟩
    rw [hround]
    refine ⟨(hs w).1, (hs w).2.trans ?_⟩
    by_cases hu : u = t
    · subst hu
      have hne : V.log.joined u ≠ j := by omega
      simp [hwas, View.act, Log.next, hne]
    · simp [View.act, Log.next, hu]
  · have hround : (V.act t (.window all none) v (V.log.next t v V.live)).log.round V.log.gen =
        { V.cur with owners := tick V.cur.owners t } := next_round_gen hj
    refine ⟨⟨t, fun w => ?_⟩, ?_, ?_⟩
    · rw [hround]
      have hb := h.blank w
      refine ⟨?_, ?_⟩
      · by_cases hw : w = t
        · subst hw
          simp [tick_self, hb.1]
        · simp [tick_of_ne _ hw, hb.1, hw]
      · simp [hb.2, View.act, Log.next, hj, Role.isWindow]
    · rw [hround]
      exact fun hv => (h.owner.all hv).2
    · rw [hround]
      intro hv w
      have hrt := h.role t
      rw [hr] at hrt
      cases all with
      | false =>
        have := hrt.1
        have hv : V.cur.value < 0 := hv
        omega
      | true =>
        obtain ⟨-, -, hfull, -⟩ := hrt
        rcases h.count hv w with ⟨hm, hc⟩ | ⟨hm, hc⟩
        · exact ⟨fun hm' => absurd hm' hm, fun _ => hc⟩
        · refine ⟨fun _ => ?_, fun hm' => absurd hm hm'⟩
          have := hfull w hm
          rcases hc with ⟨-, h0⟩ | ⟨-, h0, -⟩ | ⟨hb1, h1, -⟩
          · omega
          · omega
          · exact ⟨hb1, h1⟩

theorem schedule (h : Inv V) {all : Bool} {v : ℤ} (hr : V.role t = if all then .lead else .own) (hc : V.Choice v) :
    Inv (V.act t (.window all none) v (V.log.next t v V.live)) := by
  have hcur : (V.act t (.window all none) v (V.log.next t v V.live)).cur = Round.opened v V.live := next_cur
  have hpos : ∀ u ∈ V.live, 0 < u := fun u hu => h.pos u (h.live hu)
  have hrt := h.role t
  have hj : V.log.joined t = V.log.gen := by
    rw [hr] at hrt
    cases all with
    | false => exact hrt.2
    | true => exact hrt.1.joined
  have hsched : V.role t = .own ∨ V.role t = .lead := by
    rw [hr]
    cases all <;> simp
  refine ⟨by rw [hcur]; exact Finset.Subset.refl _, by rw [hcur]; exact hpos, hc.ownerOk hpos hcur, fun u => ?_,
    fun _ u => View.CountOk.of_settled ?_, fun _ u hu => ?_, fun u hm hn => ?_, fun u => ?_, fun j hlt => ?_⟩
  · by_cases hu : u = t
    · subst hu
      rw [act_role]
      refine ⟨?_, ?_⟩
      · show V.log.joined u < V.log.gen + 1
        omega
      · show ((V.log.next u v V.live).round (V.log.joined u)).owners u = 1
        rw [hj, next_round_gen hj]
        exact (tick_self _).trans (by rw [show V.log.cur.owners u = 0 from (h.blank u).1])
    · have hru := h.role u
      obtain ⟨hown, hpre, hwork, hlead⟩ := h.alone hsched hu
      have hrole : (V.act t (.window all none) v (V.log.next t v V.live)).role u = V.role u :=
        Function.update_of_ne hu _ _
      rw [hrole]
      cases hrole : V.role u <;> rw [hrole] at hru
      case own => exact absurd hrole hown
      case pre b => exact absurd hrole (hpre b)
      case work b r => exact absurd hrole (hwork b r)
      case lead => exact absurd hrole hlead
      case spin b r =>
        rcases hru with ⟨hju, -, -, -, hb⟩ | ⟨hlt, hb, -⟩
        · refine Or.inr ⟨?_, ?_, by rw [hcur]; rfl⟩
          · show V.log.joined u < V.log.gen + 1
            have := hju.joined
            omega
          · -- A second leader would have the least number as well.
            rw [hr] at hrt
            cases all with
            | false =>
              have := hrt.1
              have := hju.value
              omega
            | true =>
              refine Bool.eq_false_iff.mpr fun hbt => hu ?_
              exact Nat.le_antisymm (hb.mp hbt t hrt.1.member) (hrt.2.1 u hju.member)
        · refine Or.inr ⟨?_, hb, by rw [hcur]; rfl⟩
          show V.log.joined u < V.log.gen + 1
          omega
      case window a x =>
        obtain ⟨hlt, ho⟩ := hru
        refine ⟨?_, ?_⟩
        · show V.log.joined u < V.log.gen + 1
          omega
        · show ((V.log.next t v V.live).round (V.log.joined u)).owners u = 1
          rw [next_round_of_lt hj hlt]
          exact ho
      all_goals trivial
  · rw [hcur]
    by_cases hm : u ∈ V.live
    · exact Or.inr (Or.inl ⟨hm, rfl, rfl⟩)
    · exact Or.inl ⟨hm, rfl, rfl⟩
  · rw [hcur] at hu
    exact absurd hu (Nat.lt_irrefl 0)
  · rw [hcur] at hm
    exact absurd hm hn
  · rw [hcur]
    exact ⟨rfl, rfl⟩
  · exact h.over_next hr hj (Nat.le_of_lt_succ hlt)

theorem setRound (h : Inv V) {all : Bool} {r : ℤ} (hr : V.role t = .window all (some r)) :
    Inv { V.act t (.wake all) V.owner (V.log.bump t) with round := r + 1 } := by
  have hrt := h.role t
  rw [hr] at hrt
  obtain ⟨hlt, ho⟩ := hrt
  generalize hV' : { V.act t (.wake all) V.owner (V.log.bump t) with round := r + 1 } = V'
  have hcur : V'.cur = V.cur := by
    rw [← hV']
    exact Log.note_cur_of_ne (Nat.ne_of_lt hlt)
  have hlog : V'.log = V.log.bump t := by rw [← hV']; rfl
  have howner : V'.owner = V.owner := by rw [← hV']; rfl
  have hlive : V'.live = V.live := by rw [← hV']; rfl
  have hroleT : V'.role t = .wake all := by
    rw [← hV']
    exact Function.update_self _ _ _
  have hrole : ∀ u ≠ t, V'.role u = V.role u := fun u hu => by
    rw [← hV']
    exact Function.update_of_ne hu _ _
  have hgen : V'.log.gen = V.log.gen := by rw [hlog]; rfl
  have hjoined : V'.log.joined = V.log.joined := by rw [hlog]; rfl
  have hround : ∀ j, V'.log.round j = if j = V.log.joined t then
      { V.log.round j with rounds := tick (V.log.round j).rounds t } else V.log.round j := fun j => by
    rw [hlog]
    exact Log.note_round j
  have hfull : V'.Full ↔ V.Full := by rw [View.Full, hcur, View.Full]
  have hnq := View.not_quiet hr
  refine ⟨by rw [hcur, hlive]; exact h.live, by rw [hcur]; exact h.pos,
    ownerOk_of h.owner howner (by rw [hcur]) (by rw [hcur]) (by rw [hcur]) (by rw [hlive]), fun u => ?_,
    fun hv u => ?_, fun hv u hu => ?_, fun u hm hn => ?_, by rw [hcur]; exact h.blank, fun j hj => ?_⟩
  · by_cases hu : u = t
    · rw [hu, hroleT]
      trivial
    · have hru := h.role u
      rw [hrole u hu]
      cases hro : V.role u <;> rw [hro] at hru
      case own => exact ⟨by rw [hcur]; exact hru.1, by rw [hjoined, hgen]; exact hru.2⟩
      case pre b =>
        obtain ⟨hj, hrest⟩ := hru
        refine ⟨⟨by rw [hcur]; exact hj.value, by rw [hjoined, hgen]; exact hj.joined, by rw [hcur]; exact hj.member⟩,
          ?_⟩
        rw [View.Least, hcur, hlive]
        exact hrest
      case work b r => exact absurd hru.2.2.2.2.1 hnq
      case spin b r =>
        rcases hru with ⟨-, -, -, hq, -⟩ | hpast
        · exact absurd hq hnq
        · refine Or.inr ?_
          rw [hjoined, hgen, hcur]
          exact hpast
      case lead => exact absurd hru.2.2.2 hnq
      case window a x =>
        refine ⟨by rw [hjoined, hgen]; exact hru.1, ?_⟩
        rw [hround, hjoined]
        split
        · exact hru.2
        · exact hru.2
      all_goals trivial
  · rw [hcur] at hv
    have hc := h.count hv u
    unfold View.CountOk at hc ⊢
    rw [hcur, hfull, hjoined, hgen]
    by_cases hu : u = t
    · subst hu
      rw [hr] at hc
      rw [hroleT]
      simpa using hc
    · rw [hrole u hu]
      exact hc
  · rw [hcur] at hv hu
    exact hfull.mpr (h.leaves hv u hu)
  · rw [hcur] at hm ⊢
    rw [hlive] at hn
    have hg := h.gone u hm hn
    by_cases hu : u = t
    · subst hu
      rw [hr] at hg
      rw [hroleT]
      simpa using hg
    · rw [hrole u hu]
      exact hg
  · rw [hgen] at hj
    obtain ⟨⟨u, hs⟩, hv, hc⟩ := h.earlier j hj
    have hsame : (V'.log.round j).value = (V.log.round j).value ∧ (V'.log.round j).members = (V.log.round j).members ∧
        (V'.log.round j).batches = (V.log.round j).batches ∧ (V'.log.round j).adds = (V.log.round j).adds ∧
        (V'.log.round j).owners = (V.log.round j).owners := by
      rw [hround]
      split <;> exact ⟨rfl, rfl, rfl, rfl, rfl⟩
    obtain ⟨hval, hmem, hbat, hadd, hown⟩ := hsame
    refine ⟨⟨u, fun w => ⟨by rw [hown]; exact (hs w).1, ?_⟩⟩, by rw [hval, hmem]; exact hv,
      by rw [hval, hmem, hbat, hadd]; exact hc⟩
    rw [hround, hjoined]
    split
    · -- The record of the round that `t` has scheduled is now complete.
      rename_i hjt
      have hut : u = t := by
        by_contra hut
        have := (hs t).1
        rw [hjt, ho, if_neg (Ne.symm hut)] at this
        cases this
      subst hut
      have hw := (hs w).2
      rw [hroleT]
      by_cases hwu : w = u
      · subst hwu
        rw [hr] at hw
        simp only [Role.isWindow, ← hjt, and_self, not_true_eq_false, and_false, if_false] at hw
        simp [tick_self, hw, Role.isWindow]
      · simp only [hwu, false_and, if_false] at hw ⊢
        exact (tick_of_ne _ hwu).trans hw
    · rename_i hjt
      refine (hs w).2.trans ?_
      by_cases hu : u = t
      · subst hu
        have hne : V.log.joined u ≠ j := fun heq => hjt heq.symm
        simp [hne]
      · rw [hrole u hu]

end Inv

/-! ### Moves between idle roles -/

def Role.Similar (r r' : Role) : Prop :=
  r' = r ∨ (r.idle = true ∧ r'.idle = true) ∨ (r.isWindow = true ∧ r'.isWindow = true)

theorem Role.isWindow_of_idle {r : Role} (h : r.idle = true) : r.isWindow = false := by
  cases r with
  | window _ _ => cases h
  | _ => rfl

theorem View.roleOk_of_idle {r : Role} (h : r.idle = true) : V.RoleOk t r := by
  cases r with
  | out | rest _ _ | wake _ | wait _ _ => trivial
  | _ => cases h

theorem Role.Similar.isWindow {r r' : Role} (h : r.Similar r') : r'.isWindow = r.isWindow := by
  rcases h with rfl | ⟨hi, hi'⟩ | ⟨hw, hw'⟩
  · rfl
  · rw [isWindow_of_idle hi, isWindow_of_idle hi']
  · rw [hw, hw']

/-- A similar role is the same role, unless it is idle or in the window. -/
theorem Role.Similar.eq {r r' : Role} (h : r.Similar r') (hi : r.idle = false) (hw : r.isWindow = false) : r' = r := by
  rcases h with rfl | ⟨hi', -⟩ | ⟨hw', -⟩
  · rfl
  · rw [hi] at hi'
    cases hi'
  · rw [hw] at hw'
    cases hw'

theorem Inv.of_similar (h : Inv V) {role : ℕ → Role} (hs : ∀ u, (V.role u).Similar (role u)) :
    Inv { V with role := role } := by
  have hq : View.Quiet { V with role := role } ↔ V.Quiet := forall_congr' fun u => by rw [(hs u).isWindow]
  have hj : ∀ u, V.Joined u → View.Joined { V with role := role } u := fun u hj => ⟨hj.value, hj.joined, hj.member⟩
  refine ⟨h.live, h.pos, ownerOk_of h.owner rfl rfl rfl rfl (Finset.Subset.refl _), fun u => ?_, fun hv u => ?_,
    h.leaves, fun u hm hn => ?_, h.blank, fun j hlt => ?_⟩
  · have hru := h.role u
    have hsu := hs u
    show View.RoleOk { V with role := role } u (role u)
    cases hr : V.role u <;> rw [hr] at hru hsu
    case own =>
      rw [hsu.eq rfl rfl]
      exact hru
    case pre b =>
      rw [hsu.eq rfl rfl]
      exact ⟨hj u hru.1, hru.2⟩
    case work b r =>
      rw [hsu.eq rfl rfl]
      obtain ⟨hju, ha, hb, hr, hqu, hrest⟩ := hru
      exact ⟨hj u hju, ha, hb, hr, hq.mpr hqu, hrest⟩
    case spin b r =>
      rw [hsu.eq rfl rfl]
      rcases hru with ⟨hju, ha, hr, hqu, hrest⟩ | hpast
      · exact Or.inl ⟨hj u hju, ha, hr, hq.mpr hqu, hrest⟩
      · exact Or.inr hpast
    case lead =>
      rw [hsu.eq rfl rfl]
      obtain ⟨hju, hl, hf, hqu⟩ := hru
      exact ⟨hj u hju, hl, hf, hq.mpr hqu⟩
    case window a x =>
      have hw := hsu.isWindow
      cases hr' : role u with
      | window a' x' => exact hru
      | _ =>
        rw [hr'] at hw
        cases hw
    all_goals
      refine View.roleOk_of_idle ?_
      rcases hsu with hsu | ⟨-, hsu⟩ | ⟨hsu, -⟩
      · rw [hsu]
        rfl
      · exact hsu
      · cases hsu
  · rcases h.count hv u with hc | ⟨hm, hc | ⟨hb, ha, b, r, hr⟩ | ⟨hb, ha, hf | ⟨hju, b, r, hr⟩⟩⟩
    · exact Or.inl hc
    · exact Or.inr ⟨hm, Or.inl hc⟩
    · have hsu := hs u
      rw [hr] at hsu
      exact Or.inr ⟨hm, Or.inr (Or.inl ⟨hb, ha, b, r, hsu.eq rfl rfl⟩)⟩
    · exact Or.inr ⟨hm, Or.inr (Or.inr ⟨hb, ha, Or.inl hf⟩)⟩
    · have hsu := hs u
      rw [hr] at hsu
      exact Or.inr ⟨hm, Or.inr (Or.inr ⟨hb, ha, Or.inr ⟨hju, b, r, hsu.eq rfl rfl⟩⟩)⟩
  · have hsu := hs u
    refine ⟨fun hv => ?_, fun hv => ?_⟩
    · have hr := (h.gone u hm hn).1 hv
      rw [hr] at hsu
      exact hsu.eq rfl rfl
    · rcases (h.gone u hm hn).2 hv with ha | ⟨b, r, hr⟩
      · exact Or.inl ha
      · rw [hr] at hsu
        exact Or.inr ⟨b, r, hsu.eq rfl rfl⟩
  · obtain ⟨⟨u, hu⟩, hv, hc⟩ := h.earlier j hlt
    refine ⟨⟨u, fun w => ⟨(hu w).1, (hu w).2.trans ?_⟩⟩, hv, hc⟩
    show _ = if w = u ∧ ¬ ((role u).isWindow = true ∧ V.log.joined u = j) then 1 else 0
    rw [(hs u).isWindow]

theorem Inv.goto (h : Inv V) {role : Role} (hs : (V.role t).Similar role) : Inv (V.goto t role) := by
  refine h.of_similar fun u => ?_
  by_cases hu : u = t
  · subst hu
    rwa [Function.update_self]
  · rw [Function.update_of_ne hu]
    exact Or.inl rfl

theorem Role.woken_similar (r : Role) (all : Bool) : r.Similar (r.woken all) := by
  cases r with
  | rest a x => cases a <;> cases all <;> simp [Role.woken, Role.Similar, Role.idle]
  | wait a x => cases a <;> cases all <;> simp [Role.woken, Role.Similar, Role.idle]
  | _ => exact Or.inl rfl

theorem Role.woken_of_awake {r : Role} {all : Bool} (h : r.asleep = false) : r.woken all = r := by
  cases r with
  | rest a x =>
    cases a with
    | false => rfl
    | true => cases h
  | wait a x =>
    cases a with
    | false => rfl
    | true => cases h
  | _ => rfl

/-! ### Every move -/

theorem Inv.move (h : Inv V) (hm : Move t V V') : Inv V' := by
  cases hm with
  | stay => exact h
  | enterOwn hr hl ho => exact h.enterOwn hr hl ho
  | enterAll hr hl ho => exact h.enterAll hr hl ho
  | enterWait hr => exact h.goto (Or.inr (Or.inl ⟨by rw [hr]; rfl, rfl⟩))
  | leader hr hscan habsent =>
    exact h.learn true hr (iff_of_true rfl (h.least_of_scan hr hscan habsent))
  | follower u hr hl hlt =>
    refine h.learn false hr (iff_of_false Bool.false_ne_true fun hleast => ?_)
    exact absurd (hleast u (h.live hl)) (Nat.not_le.mpr hlt)
  | beginOwn hr => exact h.beginOwn hr
  | beginAll b hr hq => exact h.beginAll hr hq
  | remove hr => exact h.remove hr
  | add b r hr => exact h.add hr
  | leave b r hr hgo => exact h.leave hr hgo
  | schedule all v hr hc => exact h.schedule hr hc
  | getRound all hr => exact h.goto (Or.inr (Or.inr ⟨by rw [hr]; rfl, rfl⟩))
  | setRound all r hr => exact h.setRound hr
  | wake all hr =>
    refine h.of_similar fun u => ?_
    by_cases hu : u = t
    · subst hu
      rw [if_pos rfl, hr]
      exact Or.inr (Or.inl ⟨rfl, rfl⟩)
    · rw [if_neg hu]
      exact Role.woken_similar _ _
  | sleepRound r hr => exact h.goto (Or.inr (Or.inl ⟨by rw [hr]; rfl, rfl⟩))
  | skipRound r hr => exact h.goto (Or.inr (Or.inl ⟨by rw [hr]; rfl, rfl⟩))
  | sleepOwner e hr => exact h.goto (Or.inr (Or.inl ⟨by rw [hr]; rfl, rfl⟩))
  | skipOwner e hr => exact h.goto (Or.inr (Or.inl ⟨by rw [hr]; rfl, rfl⟩))

theorem inv_opened {V : View} {v : ℤ} {live : Finset ℕ} (hlog : V.log = Log.opened v live) (howner : V.owner = v)
    (hlive : V.live = live) (hrole : ∀ u, V.role u = .out) (hv : v = -live.card) (hpos : ∀ u ∈ live, 0 < u) :
    Inv V := by
  have hcur : V.cur = Round.opened v live := by rw [View.cur, hlog]; rfl
  have hvalue : V.cur.value = v := by rw [hcur]; rfl
  have hmembers : V.cur.members = live := by rw [hcur]; rfl
  have hleft : V.left = live := by
    rw [View.left, hcur]
    exact Finset.filter_true_of_mem fun _ _ => rfl
  refine ⟨by rw [hlive, hmembers], by rw [hmembers]; exact hpos, ⟨fun h => ?_, fun _ => ?_, fun h => ?_⟩, fun u => ?_,
    fun _ u => View.CountOk.of_settled ?_, fun _ u hu => ?_, fun u hm hn => ?_, fun u => ?_, fun j hj => ?_⟩
  · omega
  · rw [howner, hvalue, hmembers, hleft]
    exact ⟨hv, hv⟩
  · refine ⟨by omega, ?_⟩
    rw [hlive, ← Finset.card_eq_zero]
    omega
  · rw [hrole]
    trivial
  · rw [hcur]
    by_cases hm : u ∈ live
    · exact Or.inr (Or.inl ⟨hm, rfl, rfl⟩)
    · exact Or.inl ⟨hm, rfl, rfl⟩
  · rw [hcur] at hu
    exact absurd hu (Nat.lt_irrefl 0)
  · rw [hmembers] at hm
    rw [hlive] at hn
    exact absurd hm hn
  · rw [hcur]
    exact ⟨rfl, rfl⟩
  · rw [hlog] at hj
    exact absurd hj (Nat.not_lt_zero j)

end Racey.Turns
