import Mathlib.Data.Finset.Max
import Racey.Theorems.Turns

/-! Why nobody in a group sleeps for good: whoever sleeps on `owner` sleeps on the member whose turn it is, and
    whoever sleeps on `round` waits for the leader of its barrier, unless the wake-up is on its way.

    This needs one condition more than the invariant: that the wake-up after a barrier finds nobody asleep who
    waits for the round that is current. -/

namespace Racey.Turns

variable {V V' : View} {t u : ℕ}

/-- Between its store to `owner` and its wake-up, which is on `round` if `all`, and on `owner` if not. -/
def Role.wakes (all : Bool) : Role → Bool
  | .window a _ | .wake a => a == all
  | _ => false

namespace View
variable (V : View)

/-- Thread `t` waits for the leader of the current barrier. -/
structure RestNow (t : ℕ) (r : ℤ) : Prop where
  joined : V.log.joined t = V.log.gen
  value : V.cur.value < 0
  added : V.cur.adds t = 1
  round : r = V.round
  quiet : V.Quiet
  least : ¬ V.Least t

/-- Thread `t` comes from the barrier of a round that is over: `round` has moved on, or will. -/
structure Past (t : ℕ) (r : ℤ) : Prop where
  joined : V.log.joined t < V.log.gen
  added : V.cur.adds t = 0
  le : r ≤ V.round
  read : ∀ w a r', V.role w = .window a (some r') → r ≤ r'
  moves : r < V.round ∨ ∃ w x, V.role w = .window true x

/-- What a thread that waits can count on. -/
def SleepOk (t : ℕ) : Role → Prop
  | .wait a e => 0 < e ∧ e ≠ t ∧ (a = true → e = V.cur.value ∨ ∃ w, (V.role w).wakes false = true)
  | .rest a r => (V.RestNow t r ∨ V.Past t r) ∧
      (a = true → V.log.joined t = V.log.gen ∨ ∃ w, (V.role w).wakes true = true)
  | .spin _ r => V.log.joined t < V.log.gen → V.Past t r
  | _ => True

/-- Whoever has added itself to `owner` does not take part in anything else before the round is over. -/
def Stays (t : ℕ) : Prop :=
  V.cur.value < 0 → V.cur.adds t = 1 → V.log.joined t = V.log.gen ∧
    ((∃ b r, V.role t = .spin b r) ∨ (∃ a r, V.role t = .rest a r) ∨ V.role t = .lead)

end View

structure Sleep (V : View) : Prop where
  ok : ∀ t, V.SleepOk t (V.role t)
  stays : ∀ t, V.Stays t

/-- A wake-up that is on its way stays so if only the role of `t` changes, and not to one without it. -/
theorem exists_wakes {all : Bool} (hrole : ∀ u ≠ t, V'.role u = V.role u)
    (ht : (V.role t).wakes all = true → (V'.role t).wakes all = true) (h : ∃ w, (V.role w).wakes all = true) :
    ∃ w, (V'.role w).wakes all = true := by
  obtain ⟨w, hw⟩ := h
  refine ⟨w, ?_⟩
  rcases eq_or_ne w t with rfl | hne
  · exact ht hw
  · rwa [hrole w hne]

/-- A thread whose wake-up is on its way has not added itself to the current barrier. -/
theorem Sleep.ne_of_wakes (h : Sleep V) {all : Bool} (ht : (V.role t).wakes all = true) (hv : V.cur.value < 0)
    (ha : V.cur.adds u = 1) : u ≠ t := by
  rintro rfl
  rcases (h.stays u hv ha).2 with ⟨b, r, hr⟩ | ⟨a, r, hr⟩ | hr <;> rw [hr] at ht <;> cases ht

/-! ### Moves that concern one thread -/

namespace Frame

theorem restNow (f : Frame t V V') (hu : u ≠ t) {r : ℤ} (h : V.RestNow u r) : V'.RestNow u r where
  joined := by rw [f.joined u hu, f.gen]; exact h.joined
  value := by rw [f.value]; exact h.value
  added := by rw [f.adds u hu]; exact h.added
  round := h.round.trans f.round.symm
  quiet := f.quiet h.quiet
  least := by rw [f.least]; exact h.least

theorem past (f : Frame t V V') {r : ℤ} (h : V.Past u r) (hj : V'.log.joined u = V.log.joined u)
    (ha : V'.cur.adds u = V.cur.adds u) : V'.Past u r where
  joined := by rw [hj, f.gen]; exact h.joined
  added := by rw [ha]; exact h.added
  le := by rw [f.round]; exact h.le
  read := fun w a r' hw => by
    by_cases hwt : w = t
    · have := f.after
      rw [← hwt, hw] at this
      cases this
    · exact h.read w a r' (by rwa [← f.role w hwt])
  moves := by
    rw [f.round]
    refine h.moves.imp id fun ⟨w, x, hw⟩ => ⟨w, x, ?_⟩
    rw [f.role w, hw]
    intro hwt
    have := f.before
    rw [← hwt, hw] at this
    cases this

theorem wakes (f : Frame t V V') (hn : ∀ a, (V.role t).wakes a = false) {all : Bool}
    (h : ∃ w, (V.role w).wakes all = true) : ∃ w, (V'.role w).wakes all = true :=
  exists_wakes f.role (fun hw => absurd ((hn all).symm.trans hw) Bool.false_ne_true) h

theorem sleepOk (f : Frame t V V') (hn : ∀ a, (V.role t).wakes a = false) (hu : u ≠ t) (h : V.SleepOk u (V.role u)) :
    V'.SleepOk u (V'.role u) := by
  rw [f.role u hu]
  cases hr : V.role u <;> rw [hr] at h
  case wait a e =>
    obtain ⟨hpos, hne, hcall⟩ := h
    refine ⟨hpos, hne, fun ha => ?_⟩
    rw [f.value]
    exact (hcall ha).imp id (f.wakes hn)
  case rest a r =>
    obtain ⟨hr, hwake⟩ := h
    refine ⟨hr.imp (f.restNow hu) fun hp => f.past hp (f.joined u hu) (f.adds u hu), fun ha => ?_⟩
    rw [f.joined u hu, f.gen]
    exact (hwake ha).imp id (f.wakes hn)
  case spin b r =>
    intro hlt
    rw [f.joined u hu, f.gen] at hlt
    exact f.past (h hlt) (f.joined u hu) (f.adds u hu)
  all_goals trivial

theorem stays (f : Frame t V V') (hu : u ≠ t) (h : V.Stays u) : V'.Stays u := by
  unfold View.Stays at h ⊢
  rw [f.value, f.adds u hu, f.joined u hu, f.gen, f.role u hu]
  exact h

theorem sleep (f : Frame t V V') (h : Sleep V) (hn : ∀ a, (V.role t).wakes a = false)
    (hok : V'.SleepOk t (V'.role t)) (hstays : V'.Stays t) : Sleep V' where
  ok := fun u => by
    by_cases hu : u = t
    · rw [hu]
      exact hok
    · exact f.sleepOk hn hu (h.ok u)
  stays := fun u => by
    by_cases hu : u = t
    · rw [hu]
      exact hstays
    · exact f.stays hu (h.stays u)

end Frame

namespace Sleep

/-- A thread that is neither at the barrier, nor resting, nor the leader, has not added itself to `owner`. -/
theorem not_added (h : Sleep V) (hs : ∀ b r, V.role t ≠ .spin b r) (hr : ∀ a r, V.role t ≠ .rest a r)
    (hl : V.role t ≠ .lead) (hv : V.cur.value < 0) : V.cur.adds t ≠ 1 := by
  intro ha
  rcases (h.stays t hv ha).2 with ⟨b, r, heq⟩ | ⟨a, r, heq⟩ | heq
  · exact hs b r heq
  · exact hr a r heq
  · exact hl heq

/-- A member between turns that does not find its turn finds the number of another member. -/
theorem owner_pos (h : Sleep V) (hi : Inv V) (hr : V.role t = .out) (hl : t ∈ V.live) (ho : 0 ≤ V.owner) :
    0 < V.owner := by
  rcases lt_or_eq_of_le ho with hlt | heq
  · exact hlt
  · rcases lt_trichotomy V.cur.value 0 with hv | hv | hv
    · have hfull := (hi.owner_eq_zero_iff hv).mp heq.symm
      exact absurd (hfull t (hi.live hl)) (h.not_added (by simp [hr]) (by simp [hr]) (by simp [hr]) hv)
    · have := (hi.owner.none hv).2
      rw [this] at hl
      exact absurd hl (Finset.notMem_empty t)
    · rw [(hi.owner.single hv).1]
      exact hv

/-- A step of one thread from a role in which it waits for nothing to another such role. -/
theorem of_frame (h : Sleep V) (f : Frame t V V') (hn : ∀ a, (V.role t).wakes a = false)
    (hs : ∀ b r, V.role t ≠ .spin b r) (hr : ∀ a r, V.role t ≠ .rest a r) (hl : V.role t ≠ .lead)
    (hadds : V'.cur.adds t = V.cur.adds t) (hok : V'.SleepOk t (V'.role t)) : Sleep V' := by
  refine f.sleep h hn hok fun hv ha => ?_
  rw [f.value] at hv
  rw [hadds] at ha
  exact absurd ha (h.not_added hs hr hl hv)

theorem add (h : Sleep V) (hi : Inv V) {b : Bool} {r : ℤ} (hr : V.role t = .work b r) :
    Sleep (V.act t (.spin b r) (V.owner + 1) (V.log.add t)) := by
  have hrt := hi.role t
  rw [hr] at hrt
  obtain ⟨hj, ha, -⟩ := hrt
  have hnot : ¬ V.Full := fun hf => by
    have := hf t hj.member
    omega
  have hframe : Frame t V (V.act t (.spin b r) (V.owner + 1) (V.log.add t)) :=
    frame_note touches_add hj.joined (fun hf => absurd hf hnot) (by rw [hr]; rfl) rfl
  refine hframe.sleep h (by simp [hr, Role.wakes]) ?_ fun _ _ => ⟨hj.joined, Or.inl ⟨b, r, act_role _ _ _⟩⟩
  rw [act_role]
  intro hlt
  exact absurd hj.joined (Nat.ne_of_lt hlt)

theorem leave (h : Sleep V) (hi : Inv V) {b : Bool} {r : ℤ} (hr : V.role t = .spin b r) :
    Sleep (V.act t (if b then .lead else .rest false r) V.owner (V.log.leave t)) := by
  have hrt := hi.role t
  have hok := h.ok t
  rw [hr] at hrt hok
  have hafter : (if b then Role.lead else .rest false r).isWindow = false := by cases b <;> rfl
  rcases hrt with ⟨hj, ha, hround, hq, hb⟩ | ⟨hlt, rfl, ha⟩
  · have hcur : (V.act t (if b then .lead else .rest false r) V.owner (V.log.leave t)).cur =
        { V.cur with leaves := tick V.cur.leaves t } := Log.note_cur hj.joined
    have hframe : Frame t V (V.act t (if b then .lead else .rest false r) V.owner (V.log.leave t)) :=
      frame_note touches_leave hj.joined (full_of_adds hcur) (by rw [hr]; rfl) hafter
    refine hframe.sleep h (by simp [hr, Role.wakes]) ?_ fun _ _ => ⟨hj.joined, ?_⟩
    · rw [act_role]
      cases b with
      | true => trivial
      | false =>
        refine ⟨Or.inl ⟨hj.joined, hframe.value.trans_lt hj.value, by rw [hcur]; exact ha, hround, hframe.quiet hq, ?_⟩,
          fun hf => absurd hf Bool.false_ne_true⟩
        rw [hframe.least]
        exact fun hl => absurd (hb.mpr hl) Bool.false_ne_true
    · rw [act_role]
      cases b with
      | true => exact Or.inr (Or.inr rfl)
      | false => exact Or.inr (Or.inl ⟨false, r, rfl⟩)
  · have hcur : (V.act t (if false then .lead else .rest false r) V.owner (V.log.leave t)).cur = V.cur :=
      Log.note_cur_of_ne (Nat.ne_of_lt hlt)
    have hframe : Frame t V (V.act t (if false then .lead else .rest false r) V.owner (V.log.leave t)) :=
      frame_leave hlt (by rw [hr]; rfl) hafter
    refine hframe.sleep h (by simp [hr, Role.wakes]) ?_ fun _ ha1 => ?_
    · rw [act_role]
      exact ⟨Or.inr (hframe.past (hok hlt) rfl (by rw [hcur])), fun hf => absurd hf Bool.false_ne_true⟩
    · rw [hcur] at ha1
      omega

theorem sleepRound (h : Sleep V) {r : ℤ} (hr : V.role t = .rest false r) (hround : V.round = r) :
    Sleep (V.goto t (.rest true r)) := by
  have hok := h.ok t
  rw [hr] at hok
  have hframe : Frame t V (V.goto t (.rest true r)) := frame_goto (by rw [hr]; rfl) rfl
  have hn : ∀ a, (V.role t).wakes a = false := by simp [hr, Role.wakes]
  refine hframe.sleep h hn ?_ fun hv ha => ⟨(h.stays t hv ha).1, Or.inr (Or.inl ⟨true, r, act_role _ _ _⟩)⟩
  rw [act_role]
  rcases hok.1 with hnow | hpast
  · refine ⟨Or.inl ⟨hnow.joined, hnow.value, hnow.added, hnow.round, hframe.quiet hnow.quiet, ?_⟩,
      fun _ => Or.inl hnow.joined⟩
    rw [hframe.least]
    exact hnow.least
  · refine ⟨Or.inr (hframe.past hpast rfl rfl), fun _ => Or.inr (hframe.wakes hn ?_)⟩
    -- `round` has not moved, so the leader of the barrier is still between its stores.
    rcases hpast.moves with hlt | ⟨w, x, hw⟩
    · omega
    · exact ⟨w, by rw [hw]; rfl⟩

theorem skipRound (h : Sleep V) {r : ℤ} (hr : V.role t = .rest false r) (hround : V.round ≠ r) :
    Sleep (V.goto t .out) := by
  have hok := h.ok t
  rw [hr] at hok
  have hframe : Frame t V (V.goto t .out) := frame_goto (by rw [hr]; rfl) rfl
  refine hframe.sleep h (by simp [hr, Role.wakes]) (by rw [act_role]; trivial) fun hv ha => ?_
  rcases hok.1 with hnow | hpast
  · exact absurd hnow.round.symm hround
  · have ha : V.cur.adds t = 1 := ha
    have := hpast.added
    omega

theorem getRound (h : Sleep V) {all : Bool} (hr : V.role t = .window all none) :
    Sleep (V.goto t (.window all (some V.round))) := by
  have hnq := View.not_quiet hr
  have hrole : ∀ u ≠ t, (V.goto t (.window all (some V.round))).role u = V.role u :=
    fun u hu => Function.update_of_ne hu _ _
  have hwakes : ∀ a, (∃ w, (V.role w).wakes a = true) →
      ∃ w, ((V.goto t (.window all (some V.round))).role w).wakes a = true :=
    fun a => exists_wakes hrole fun hw => by
      rw [hr] at hw
      rw [act_role]
      exact hw
  have hpast : ∀ u r, V.Past u r → (V.goto t (.window all (some V.round))).Past u r := by
    intro u r hp
    refine ⟨hp.joined, hp.added, hp.le, fun w a r' hw => ?_, hp.moves.imp id fun ⟨w, x, hw⟩ => ?_⟩
    · by_cases hwt : w = t
      · subst hwt
        rw [act_role] at hw
        cases hw
        exact hp.le
      · exact hp.read w a r' (by rwa [← hrole w hwt])
    · by_cases hwt : w = t
      · subst hwt
        rw [hr] at hw
        cases hw
        exact ⟨w, _, act_role _ _ _⟩
      · exact ⟨w, x, by rwa [hrole w hwt]⟩
  refine ⟨fun u => ?_, fun u hv ha => ?_⟩
  · by_cases hu : u = t
    · subst hu
      rw [act_role]
      trivial
    · have hok := h.ok u
      rw [hrole u hu]
      cases hru : V.role u <;> rw [hru] at hok
      case wait a e => exact ⟨hok.1, hok.2.1, fun ha => (hok.2.2 ha).imp id (hwakes false)⟩
      case rest a r =>
        refine ⟨Or.inr ?_, fun ha => (hok.2 ha).imp id (hwakes true)⟩
        rcases hok.1 with hnow | hp
        · exact absurd hnow.quiet hnq
        · exact hpast u r hp
      case spin b r => exact fun hlt => hpast u r (hok hlt)
      all_goals trivial
  · obtain ⟨hj, hrs⟩ := h.stays u hv ha
    have hu : u ≠ t := h.ne_of_wakes (by rw [hr]; exact beq_self_eq_true all) hv ha
    exact ⟨hj, by rw [hrole u hu]; exact hrs⟩

theorem setRound (h : Sleep V) {all : Bool} {x : ℤ} (hi : Inv V) (hr : V.role t = .window all (some x)) :
    Sleep { V.act t (.wake all) V.owner (V.log.bump t) with round := x + 1 } := by
  have hrt := hi.role t
  rw [hr] at hrt
  generalize hV' : { V.act t (.wake all) V.owner (V.log.bump t) with round := x + 1 } = V'
  have hcur : V'.cur = V.cur := by
    rw [← hV']
    exact Log.note_cur_of_ne (Nat.ne_of_lt hrt.1)
  have hround : V'.round = x + 1 := by rw [← hV']
  have hgen : V'.log.gen = V.log.gen := by rw [← hV']; rfl
  have hjoined : V'.log.joined = V.log.joined := by rw [← hV']; rfl
  have hroleT : V'.role t = .wake all := by
    rw [← hV']
    exact Function.update_self _ _ _
  have hrole : ∀ u ≠ t, V'.role u = V.role u := fun u hu => by
    rw [← hV']
    exact Function.update_of_ne hu _ _
  have hnq := View.not_quiet hr
  have hwakes : ∀ a, (∃ w, (V.role w).wakes a = true) → ∃ w, (V'.role w).wakes a = true :=
    fun a => exists_wakes hrole fun hw => by
      rw [hr] at hw
      rw [hroleT]
      exact hw
  -- Whatever a thread of an old barrier waits to see exceeded is at most what `t` has read.
  have hpast : ∀ u r, V.Past u r → V'.Past u r := by
    intro u r hp
    have hle := hp.read t all x hr
    refine ⟨by rw [hjoined, hgen]; exact hp.joined, by rw [hcur]; exact hp.added, by omega, fun w a r' hw => ?_,
      Or.inl (by omega)⟩
    by_cases hwt : w = t
    · subst hwt
      rw [hroleT] at hw
      cases hw
    · exact hp.read w a r' (by rwa [← hrole w hwt])
  refine ⟨fun u => ?_, fun u hv ha => ?_⟩
  · by_cases hu : u = t
    · rw [hu, hroleT]
      trivial
    · have hok := h.ok u
      rw [hrole u hu]
      cases hru : V.role u <;> rw [hru] at hok
      case wait a e =>
        refine ⟨hok.1, hok.2.1, fun ha => ?_⟩
        rw [hcur]
        exact (hok.2.2 ha).imp id (hwakes false)
      case rest a r =>
        refine ⟨Or.inr ?_, fun ha => ?_⟩
        · rcases hok.1 with hnow | hp
          · exact absurd hnow.quiet hnq
          · exact hpast u r hp
        · rw [hjoined, hgen]
          exact (hok.2 ha).imp id (hwakes true)
      case spin b r =>
        intro hlt
        rw [hjoined, hgen] at hlt
        exact hpast u r (hok hlt)
      all_goals trivial
  · rw [hcur] at hv ha
    obtain ⟨hj, hrs⟩ := h.stays u hv ha
    have hu : u ≠ t := h.ne_of_wakes (by rw [hr]; exact beq_self_eq_true all) hv ha
    exact ⟨by rw [hjoined, hgen]; exact hj, by rw [hrole u hu]; exact hrs⟩

theorem schedule (h : Sleep V) (hi : Inv V) {all : Bool} {v : ℤ} (hr : V.role t = if all then .lead else .own) :
    Sleep (V.act t (.window all none) v (V.log.next t v V.live)) := by
  have hcur : (V.act t (.window all none) v (V.log.next t v V.live)).cur = Round.opened v V.live := next_cur
  have hgen : (V.act t (.window all none) v (V.log.next t v V.live)).log.gen = V.log.gen + 1 := rfl
  have hrole : ∀ u ≠ t, (V.act t (.window all none) v (V.log.next t v V.live)).role u = V.role u :=
    fun u hu => Function.update_of_ne hu _ _
  have hroleT : (V.act t (.window all none) v (V.log.next t v V.live)).role t = .window all none := act_role _ _ _
  have hrt := hi.role t
  rw [hr] at hrt
  have hall : V.cur.value < 0 → all = true := by
    intro hv
    cases all with
    | false =>
      have := hrt.1
      omega
    | true => rfl
  have hne : ∀ w a x, V.role w = .window a x → w ≠ t := by
    rintro w a x hw rfl
    rw [hr] at hw
    cases all <;> cases hw
  have hwakes : ∀ a, (∃ w, (V.role w).wakes a = true) →
      ∃ w, ((V.act t (.window all none) v (V.log.next t v V.live)).role w).wakes a = true :=
    fun a => exists_wakes hrole fun hw => by
      rw [hr] at hw
      cases all <;> cases hw
  have hpast : ∀ u r, V.Past u r → (V.act t (.window all none) v (V.log.next t v V.live)).Past u r := by
    intro u r hp
    refine ⟨Nat.lt_succ_of_lt hp.joined, by rw [hcur]; rfl, hp.le, fun w a r' hw => ?_,
      hp.moves.imp id fun ⟨w, x, hw⟩ => ⟨w, x, by rw [hrole w (hne w _ _ hw), hw]⟩⟩
    by_cases hwt : w = t
    · rw [hwt, hroleT] at hw
      cases hw
    · exact hp.read w a r' (by rwa [← hrole w hwt])
  -- Whoever belongs to the barrier that is now over waits for the store of `t` to `round`.
  have hnow : ∀ u, V.log.joined u = V.log.gen → V.Quiet → all = true →
      (V.act t (.window all none) v (V.log.next t v V.live)).Past u V.round := by
    rintro u hj hq rfl
    refine ⟨by rw [hgen]; exact Nat.lt_succ_of_le (Nat.le_of_eq hj), by rw [hcur]; rfl, le_refl _, fun w a r' hw => ?_,
      Or.inr ⟨t, none, hroleT⟩⟩
    by_cases hwt : w = t
    · rw [hwt, hroleT] at hw
      cases hw
    · rw [hrole w hwt] at hw
      have := hq w
      rw [hw] at this
      cases this
  refine ⟨fun u => ?_, fun u _ ha => ?_⟩
  · by_cases hu : u = t
    · rw [hu, hroleT]
      trivial
    · have hok := h.ok u
      have hru := hi.role u
      rw [hrole u hu]
      cases hro : V.role u <;> rw [hro] at hok hru
      case wait a e =>
        obtain ⟨hpos, hne, hcall⟩ := hok
        refine ⟨hpos, hne, fun ha => Or.inr ?_⟩
        cases all with
        | false => exact ⟨t, by rw [hroleT]; rfl⟩
        | true =>
          rcases hcall ha with he | hw
          · have := hrt.1.value
            omega
          · exact hwakes false hw
      case rest a r =>
        refine ⟨Or.inr ?_, fun ha => Or.inr ?_⟩
        · rcases hok.1 with hn | hp
          · rw [hn.round]
            exact hnow u hn.joined hn.quiet (hall hn.value)
          · exact hpast u r hp
        · rcases hok.2 ha with hj | hw
          · rcases hok.1 with hn | hp
            · exact ⟨t, by rw [hroleT, hall hn.value]; rfl⟩
            · exact absurd hj (Nat.ne_of_lt hp.joined)
          · exact hwakes true hw
      case spin b r =>
        intro _
        rcases hru with ⟨hj, -, hround, hq, -⟩ | ⟨hlt, -, -⟩
        · rw [hround]
          exact hnow u hj.joined hq (hall hj.value)
        · exact hpast u r (hok hlt)
      all_goals trivial
  · rw [hcur] at ha
    cases ha

theorem wake (h : Sleep V) {all : Bool} (hr : V.role t = .wake all)
    (hcalm : all = true → ∀ u r, V.role u = .rest true r → r ≠ V.round) :
    Sleep { V with role := fun u => if u = t then .out else (V.role u).woken all } := by
  generalize hV' : { V with role := fun u => if u = t then .out else (V.role u).woken all } = V'
  have hcur : V'.cur = V.cur := by rw [← hV']; rfl
  have hround : V'.round = V.round := by rw [← hV']
  have hlog : V'.log = V.log := by rw [← hV']
  have hroleT : V'.role t = .out := by rw [← hV']; exact if_pos rfl
  have hrole : ∀ u ≠ t, V'.role u = (V.role u).woken all := fun u hu => by rw [← hV']; exact if_neg hu
  have hkeep : ∀ u, (V.role u).isWindow = true → V'.role u = V.role u := by
    intro u hw
    have hu : u ≠ t := by
      rintro rfl
      rw [hr] at hw
      cases hw
    rw [hrole u hu]
    cases hru : V.role u <;> rw [hru] at hw <;> first | rfl | cases hw
  have hback : ∀ u a x, V'.role u = .window a x → V.role u = .window a x := by
    intro u a x hw
    have hu : u ≠ t := by
      rintro rfl
      rw [hroleT] at hw
      cases hw
    rw [hrole u hu] at hw
    cases hru : V.role u with
    | window a' x' => rwa [hru] at hw
    | rest b r => cases b <;> cases all <;> rw [hru] at hw <;> cases hw
    | wait b r => cases b <;> cases all <;> rw [hru] at hw <;> cases hw
    | _ =>
      rw [hru] at hw
      cases hw
  have hwakes : ∀ a, a ≠ all → (∃ w, (V.role w).wakes a = true) → ∃ w, (V'.role w).wakes a = true := by
    rintro a ha ⟨w, hw⟩
    have hwt : w ≠ t := by
      rintro rfl
      rw [hr, Role.wakes, beq_iff_eq] at hw
      exact ha hw.symm
    refine ⟨w, ?_⟩
    rw [hrole w hwt]
    cases hrw : V.role w <;> rw [hrw] at hw <;> first | exact hw | cases hw
  have hquiet : V.Quiet → V'.Quiet := by
    intro hq u
    cases hru : V'.role u with
    | window a x =>
      have := hq u
      rwa [hback u a x hru] at this
    | _ => rfl
  have hpast : ∀ u r, V.Past u r → V'.Past u r := by
    intro u r hp
    refine ⟨by rw [hlog]; exact hp.joined, by rw [hcur]; exact hp.added, by rw [hround]; exact hp.le,
      fun w a r' hw => hp.read w a r' (hback w _ _ hw), ?_⟩
    rw [hround]
    exact hp.moves.imp id fun ⟨w, x, hw⟩ => ⟨w, x, by rw [hkeep w (by rw [hw]; rfl), hw]⟩
  have hnow : ∀ u r, V.RestNow u r → V'.RestNow u r := fun u r hn =>
    ⟨by rw [hlog]; exact hn.joined, by rw [hcur]; exact hn.value, by rw [hcur]; exact hn.added, hn.round.trans hround.symm,
      hquiet hn.quiet, by rw [View.Least, hcur]; exact hn.least⟩
  refine ⟨fun u => ?_, fun u hv ha => ?_⟩
  · by_cases hu : u = t
    · rw [hu, hroleT]
      trivial
    · have hok := h.ok u
      rw [hrole u hu]
      cases hru : V.role u <;> rw [hru] at hok
      case wait a e =>
        obtain ⟨hpos, hne, hcall⟩ := hok
        cases a with
        | false => exact ⟨hpos, hne, fun hf => absurd hf Bool.false_ne_true⟩
        | true =>
          cases all with
          | false => trivial
          | true =>
            refine ⟨hpos, hne, fun _ => ?_⟩
            rw [hcur]
            exact (hcall rfl).imp id (hwakes false Bool.false_ne_true)
      case rest a r =>
        obtain ⟨hrest, hwake⟩ := hok
        cases a with
        | false => exact ⟨hrest.imp (hnow u r) (hpast u r), fun hf => absurd hf Bool.false_ne_true⟩
        | true =>
          cases all with
          | true => trivial
          | false =>
            refine ⟨hrest.imp (hnow u r) (hpast u r), fun _ => ?_⟩
            rw [hlog]
            exact (hwake rfl).imp id (hwakes true (Ne.symm Bool.false_ne_true))
      case spin b r =>
        intro hlt
        rw [hlog] at hlt
        exact hpast u r (hok hlt)
      all_goals trivial
  · rw [hcur] at hv ha
    obtain ⟨hj, hrs⟩ := h.stays u hv ha
    have hu : u ≠ t := h.ne_of_wakes (by rw [hr]; exact beq_self_eq_true all) hv ha
    refine ⟨by rw [hlog]; exact hj, ?_⟩
    rw [hrole u hu]
    rcases hrs with ⟨b, r, hru⟩ | ⟨a, r, hru⟩ | hru
    · exact Or.inl ⟨b, r, by rw [hru]; rfl⟩
    · have hok := h.ok u
      rw [hru] at hok
      refine Or.inr (Or.inl ⟨a, r, ?_⟩)
      cases a with
      | false => rw [hru]; rfl
      | true =>
        cases all with
        | false => rw [hru]; rfl
        | true =>
          -- The condition on wake-ups: a thread of the current barrier is not woken.
          rcases hok.1 with hn | hp
          · exact absurd hn.round (hcalm rfl u r hru)
          · have := hp.added
            omega
    · exact Or.inr (Or.inr (by rw [hru]; rfl))

/-- What sleepers can count on is kept by every move, if a wake-up after a barrier finds nobody asleep who waits
    for the current round. -/
theorem move (h : Sleep V) (hi : Inv V) (hm : Move t V V')
    (hcalm : V.role t = .wake true → ∀ u r, V.role u = .rest true r → r ≠ V.round) : Sleep V' := by
  cases hm with
  | stay => exact h
  | enterOwn hr hl ho =>
    exact h.of_frame (frame_join (by rw [hr]; rfl) rfl) (by simp [hr, Role.wakes]) (by simp [hr]) (by simp [hr])
      (by simp [hr]) rfl (by rw [act_role]; trivial)
  | enterAll hr hl ho =>
    exact h.of_frame (frame_join (by rw [hr]; rfl) rfl) (by simp [hr, Role.wakes]) (by simp [hr]) (by simp [hr])
      (by simp [hr]) rfl (by rw [act_role]; trivial)
  | enterWait hr hl hne ho =>
    refine h.of_frame (frame_goto (by rw [hr]; rfl) rfl) (by simp [hr, Role.wakes]) (by simp [hr]) (by simp [hr])
      (by simp [hr]) rfl ?_
    rw [act_role]
    exact ⟨h.owner_pos hi hr hl ho, hne, fun hf => absurd hf Bool.false_ne_true⟩
  | leader hr hscan habsent =>
    exact h.of_frame (frame_goto (by rw [hr]; rfl) rfl) (by simp [hr, Role.wakes]) (by simp [hr]) (by simp [hr])
      (by simp [hr]) rfl (by rw [act_role]; trivial)
  | follower u hr hl hlt =>
    exact h.of_frame (frame_goto (by rw [hr]; rfl) rfl) (by simp [hr, Role.wakes]) (by simp [hr]) (by simp [hr])
      (by simp [hr]) rfl (by rw [act_role]; trivial)
  | beginOwn hr =>
    have hrt := hi.role t
    rw [hr] at hrt
    have hcur : (V.act t .own V.owner (V.log.batch t)).cur = { V.cur with batches := tick V.cur.batches t } :=
      Log.note_cur hrt.2
    exact h.of_frame (frame_note touches_batch hrt.2 (full_of_adds hcur) (by rw [hr]; rfl) rfl)
      (by simp [hr, Role.wakes]) (by simp [hr]) (by simp [hr]) (by simp [hr]) (by rw [hcur]) (by rw [act_role]; trivial)
  | beginAll b hr hq =>
    have hrt := hi.role t
    rw [hr] at hrt
    have hcur : (V.act t (.work b V.round) V.owner (V.log.batch t)).cur =
        { V.cur with batches := tick V.cur.batches t } := Log.note_cur hrt.1.joined
    exact h.of_frame (frame_note touches_batch hrt.1.joined (full_of_adds hcur) (by rw [hr]; rfl) rfl)
      (by simp [hr, Role.wakes]) (by simp [hr]) (by simp [hr]) (by simp [hr]) (by rw [hcur]) (by rw [act_role]; trivial)
  | remove hr =>
    rcases hr with hr | ⟨b, r, hr⟩
    all_goals
      refine h.of_frame (frame_erase (by rw [hr]; rfl)) (by simp [hr, Role.wakes]) (by simp [hr]) (by simp [hr])
        (by simp [hr]) rfl ?_
      simp only [hr]
      trivial
  | add b r hr => exact h.add hi hr
  | leave b r hr hgo => exact h.leave hi hr
  | schedule all v hr hc => exact h.schedule hi hr
  | getRound all hr => exact h.getRound hr
  | setRound all r hr => exact h.setRound hi hr
  | wake all hr => exact h.wake hr fun ha => hcalm (by rw [hr, ha])
  | sleepRound r hr hround => exact h.sleepRound hr hround
  | skipRound r hr hround => exact h.skipRound hr hround
  | sleepOwner e hr ho =>
    have hok := h.ok t
    rw [hr] at hok
    refine h.of_frame (frame_goto (by rw [hr]; rfl) rfl) (by simp [hr, Role.wakes]) (by simp [hr]) (by simp [hr])
      (by simp [hr]) rfl ?_
    rw [act_role]
    refine ⟨hok.1, hok.2.1, fun _ => Or.inl ?_⟩
    show e = V.cur.value
    rw [hi.value_eq (by rw [ho]; exact hok.1), ho]
  | skipOwner e hr ho =>
    exact h.of_frame (frame_goto (by rw [hr]; rfl) rfl) (by simp [hr, Role.wakes]) (by simp [hr]) (by simp [hr])
      (by simp [hr]) rfl (by rw [act_role]; trivial)

end Sleep

theorem sleep_opened {v : ℤ} {live : Finset ℕ} (hlog : V.log = Log.opened v live) (hrole : ∀ u, V.role u = .out) :
    Sleep V where
  ok := fun u => by
    rw [hrole]
    trivial
  stays := fun u _ ha => by
    rw [View.cur, hlog] at ha
    cases ha

/-- A thread that cannot go on by itself: it has left the group, or is asleep, or spins in the barrier of the round that
    `round` shows while `owner` is not 0. -/
def View.Blocked (V : View) (t : ℕ) : Prop :=
  (V.role t = .out ∧ t ∉ V.live) ∨ (V.role t).asleep = true ∨ (V.owner ≠ 0 ∧ ∃ b, V.role t = .spin b V.round)

theorem Role.eq_of_asleep {role : Role} (h : role.asleep = true) :
    (∃ e, role = .wait true e) ∨ ∃ r, role = .rest true r := by
  cases role with
  | wait a e =>
    cases a with
    | true => exact Or.inl ⟨e, rfl⟩
    | false => cases h
  | rest a r =>
    cases a with
    | true => exact Or.inr ⟨r, rfl⟩
    | false => cases h
  | _ => cases h

section Blocked
variable (hi : Inv V) (h : Sleep V) (hall : ∀ u, V.Blocked u)
include hall

/-- Nobody is about to wake anybody up. -/
theorem not_wakes_of_blocked (all : Bool) : ¬ ∃ w, (V.role w).wakes all = true := by
  rintro ⟨w, hw⟩
  rcases hall w with ⟨hr, -⟩ | hs | ⟨-, b, hr⟩
  · rw [hr] at hw
    cases hw
  · rcases Role.eq_of_asleep hs with ⟨e, hr⟩ | ⟨r, hr⟩ <;> rw [hr] at hw <;> cases hw
  · rw [hr] at hw
    cases hw

include h

theorem restNow_of_blocked {r : ℤ} (hr : V.role u = .rest true r) : V.RestNow u r := by
  have hok := h.ok u
  rw [hr] at hok
  refine hok.1.resolve_right fun hp => ?_
  exact Nat.ne_of_lt hp.joined ((hok.2 rfl).resolve_right (not_wakes_of_blocked hall true))

theorem wait_of_blocked {e : ℤ} (hr : V.role u = .wait true e) : e = V.cur.value ∧ 0 < e ∧ e ≠ u := by
  have hok := h.ok u
  rw [hr] at hok
  exact ⟨(hok.2.2 rfl).resolve_right (not_wakes_of_blocked hall false), hok.1, hok.2.1⟩

include hi

/-- Whoever spins there does so for the current round. -/
theorem joined_of_blocked {b : Bool} (hr : V.role u = .spin b V.round) : V.Joined u ∧ V.cur.adds u = 1 := by
  have hrole := hi.role u
  have hok := h.ok u
  rw [hr] at hrole hok
  rcases hrole with ⟨hj, ha, -⟩ | ⟨hlt, -⟩
  · exact ⟨hj, ha⟩
  · rcases (hok hlt).moves with hround | ⟨w, x, hw⟩
    · exact absurd hround (lt_irrefl _)
    · exact absurd ⟨w, by rw [hw]; rfl⟩ (not_wakes_of_blocked hall true)

/-- A group in which nobody can go on by himself is one that has nobody left: in a round of all the leader would be asleep,
    although all have added themselves; and the member whose turn it is cannot be blocked. -/
theorem value_eq_zero_of_blocked : V.cur.value = 0 := by
  rcases lt_trichotomy V.cur.value 0 with hv | hv | hv
  · have hadded : ∀ u ∈ V.cur.members, V.cur.adds u = 1 := by
      intro u hu
      rcases hall u with ⟨hr, hn⟩ | hs | ⟨-, b, hr⟩
      · rcases (hi.gone u hu hn).2 hv with ha | ⟨b, r, hw⟩
        · exact ha
        · rw [hr] at hw
          cases hw
      · rcases Role.eq_of_asleep hs with ⟨e, hr⟩ | ⟨r, hr⟩
        · obtain ⟨he, hpos, -⟩ := wait_of_blocked h hall hr
          omega
        · exact (restNow_of_blocked h hall hr).added
      · exact (joined_of_blocked hi h hall hr).2
    have hzero : V.owner = 0 := (hi.owner_eq_zero_iff hv).mpr hadded
    have hmem : V.cur.members.Nonempty := by
      have hcard := (hi.owner.all hv).2
      exact Finset.card_pos.mp (by omega)
    -- The least member has added itself, and does not wait for anybody else to schedule.
    have hleast : ∀ w ∈ V.cur.members, V.cur.members.min' hmem ≤ w := fun w hw => V.cur.members.min'_le w hw
    have hadds := hadded _ (V.cur.members.min'_mem hmem)
    generalize V.cur.members.min' hmem = u at hleast hadds
    rcases hall u with ⟨hr, -⟩ | hs | ⟨hne, -⟩
    · exact absurd hadds (h.not_added (by simp [hr]) (by simp [hr]) (by simp [hr]) hv)
    · rcases Role.eq_of_asleep hs with ⟨e, hr⟩ | ⟨r, hr⟩
      · exact absurd hadds (h.not_added (by simp [hr]) (by simp [hr]) (by simp [hr]) hv)
      · exact absurd hleast (restNow_of_blocked h hall hr).least
    · exact absurd hzero hne
  · exact hv
  · obtain ⟨-, u, hu, hvu⟩ := hi.owner.single hv
    rcases hall u with ⟨hr, hn⟩ | hs | ⟨-, b, hr⟩
    · have hown := (hi.gone u hu hn).1 hvu
      rw [hr] at hown
      cases hown
    · rcases Role.eq_of_asleep hs with ⟨e, hr⟩ | ⟨r, hr⟩
      · obtain ⟨he, -, hne⟩ := wait_of_blocked h hall hr
        exact absurd (he.trans hvu) hne
      · have hneg := (restNow_of_blocked h hall hr).value
        omega
    · have hneg := (joined_of_blocked hi h hall hr).1.value
      omega

end Blocked

/-- If nobody in the group can go on by himself, then everybody has left it. -/
theorem live_eq_empty (hi : Inv V) (h : Sleep V) (hall : ∀ u, V.Blocked u) : V.live = ∅ :=
  (hi.owner.none (value_eq_zero_of_blocked hi h hall)).2

end Racey.Turns
