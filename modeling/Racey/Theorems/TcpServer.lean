import Racey.Lib.Holders
import Racey.TcpServer

/-! The stack of racey-tcp-server stays within its bounds as long as nobody pushes on a full stack or takes from an
    empty one; and then the workers copy every stream to the output file, chunk by chunk. -/

namespace Racey.TcpServer
open Machine Holders

variable {memory : ℤ → ℤ} {streams : ℕ → List UInt8} {old : List UInt8} {s s' : State} {o : Log} {a : Move}

/-! ### Steps -/

/-- The steps of the server, one for each branch. -/
inductive Step (s : State) : Move → State → Prop
  | accept (fd : ℤ) : s.main = .accept → s.conn fd = none → Step s (.accept fd) (s.accept fd)
  | acceptFails : s.main = .accept → Step s .acceptFails { s with main := .returned }
  | push (fd : ℤ) : s.main = .push fd → s.clientIdx < workerNum →
      Step s .push { s with
        clientIdx := s.clientIdx + 1
        clientFds := Function.update s.clientFds (s.clientIdx + 1) fd
        main := .accept }
  | full (fd : ℤ) : s.main = .push fd → ¬ s.clientIdx < workerNum → Step s .push s
  | take (w : ℕ) : s.worker w = .poll → s.clientFds s.clientIdx > 0 →
      Step s (.poll w) { s.setWorker w (.read (s.clientFds s.clientIdx)) with
        clientFds := Function.update s.clientFds s.clientIdx (-1)
        clientIdx := s.clientIdx - 1 }
  | empty (w : ℕ) : s.worker w = .poll → ¬ s.clientFds s.clientIdx > 0 → Step s (.poll w) s
  | read (w n : ℕ) (fd : ℤ) (k : ℕ) : s.worker w = .read fd → s.conn fd = some k → CanRead (s.unread k) n →
      Step s (.read w n) (s.read w fd k n)
  | readFails (w : ℕ) (fd : ℤ) : s.worker w = .read fd → Step s (.readFails w) (s.setWorker w (.write fd none))
  | write (w : ℕ) (fd : ℤ) (chunk : List UInt8) : s.worker w = .write fd (some chunk) →
      Step s (.write w) (s.write w fd (some chunk))
  | writeFails (w : ℕ) (fd : ℤ) : s.worker w = .write fd none → Step s (.write w) (s.setWorker w (.close fd))
  | close (w : ℕ) (fd : ℤ) : s.worker w = .close fd → Step s (.close w) (s.close w fd)

theorem step_cases (h : step a s = some s') : Step s a s' := by
  cases a with
  | accept fd =>
    cases hmain : s.main <;> simp only [step, stepMain, hmain, Option.ite_none_right_eq_some, Option.some.injEq, reduceCtorEq] at h
    obtain ⟨hfd, rfl⟩ := h
    exact .accept fd hmain hfd.2
  | acceptFails =>
    cases hmain : s.main <;> simp only [step, stepMain, hmain, Option.some.injEq, reduceCtorEq] at h
    subst h
    exact .acceptFails hmain
  | push =>
    cases hmain : s.main <;> simp only [step, stepMain, hmain, Option.some.injEq, reduceCtorEq] at h
    subst h
    rename_i fd
    unfold State.push
    split
    · rename_i hroom
      exact .push fd hmain hroom
    · rename_i hroom
      exact .full fd hmain hroom
  | poll w =>
    cases hw : s.worker w <;>
      simp only [step, stepWorker, hw, Option.ite_none_right_eq_some, Option.some.injEq, reduceCtorEq, and_false] at h
    obtain ⟨-, rfl⟩ := h
    unfold State.poll
    split
    · rename_i htop
      exact .take w hw htop
    · rename_i htop
      exact .empty w hw htop
  | read w n =>
    cases hw : s.worker w <;>
      simp only [step, stepWorker, hw, Option.ite_none_right_eq_some, Option.bind_eq_some_iff, Option.some.injEq,
        reduceCtorEq, and_false] at h
    obtain ⟨-, k, hk, hcan, rfl⟩ := h
    exact .read w n _ k hw hk hcan
  | readFails w =>
    cases hw : s.worker w <;>
      simp only [step, stepWorker, hw, Option.ite_none_right_eq_some, Option.some.injEq, reduceCtorEq, and_false] at h
    obtain ⟨-, rfl⟩ := h
    exact .readFails w _ hw
  | write w =>
    cases hw : s.worker w <;>
      simp only [step, stepWorker, hw, Option.ite_none_right_eq_some, Option.some.injEq, reduceCtorEq, and_false] at h
    rename_i fd chunk
    obtain ⟨-, rfl⟩ := h
    cases chunk with
    | none => exact .writeFails w fd hw
    | some chunk => exact .write w fd chunk hw
  | close w =>
    cases hw : s.worker w <;>
      simp only [step, stepWorker, hw, Option.ite_none_right_eq_some, Option.some.injEq, reduceCtorEq, and_false] at h
    obtain ⟨-, rfl⟩ := h
    exact .close w _ hw

/-! ### The bound of the stack -/

/-- Where every push finds the stack not full and no worker takes from an empty one, `client_idx` stays in its bounds,
    and `main` stores inside `client_fds`. -/
theorem stack_bounded_of_keeps
    (h : ((machine memory streams old).watch observer).Reach (fun a p => KeepsStack a p.1) (s, o)) :
    StackBounded s ∧ ∀ i ∈ o.stores, 0 ≤ i ∧ i ≤ (workerNum : ℤ) - 1 := by
  refine h.invariant (I := fun p => StackBounded p.1 ∧ ∀ i ∈ p.2.stores, 0 ≤ i ∧ i ≤ (workerNum : ℤ) - 1)
    ⟨⟨by simp [watch, machine, start], by simp [watch, machine, start, workerNum]⟩,
      by simp [watch, observer, Log.start]⟩ fun a p q hp hok hs => ?_
  obtain ⟨s, o⟩ := p
  obtain ⟨s', o'⟩ := q
  obtain ⟨hs, ho⟩ := watch_step_eq_some.mp hs
  simp only at hs ho hok hp ⊢
  obtain ⟨⟨hlow, hhigh⟩, hstores⟩ := hp
  have hstep := step_cases hs
  have hsame : s'.clientIdx = s.clientIdx → o'.stores = o.stores →
      StackBounded s' ∧ ∀ i ∈ o'.stores, 0 ≤ i ∧ i ≤ (workerNum : ℤ) - 1 := fun hidx ho => by
    rw [StackBounded, hidx, ho]
    exact ⟨⟨hlow, hhigh⟩, hstores⟩
  cases hstep with
  | push fd hmain hroom =>
    simp only [KeepsStack] at hok
    simp only [observer, hroom, if_true] at ho
    subst ho
    refine ⟨⟨by simp only; omega, by simp only; omega⟩, fun i hi => ?_⟩
    rcases List.mem_append.mp hi with hi | hi
    · exact hstores i hi
    · rw [List.mem_singleton.mp hi]
      omega
  | full fd hmain hroom => exact hsame rfl (by rw [ho]; simp [observer, hroom])
  | take w hw htop =>
    simp only [KeepsStack, not_and] at hok
    -- The worker has not looked below the stack.
    have hne : s.clientIdx ≠ -1 := fun heq => hok heq (heq ▸ htop)
    refine ⟨⟨by simp only; omega, by simp only; omega⟩, ?_⟩
    rw [ho]
    simpa [observer, htop] using hstores
  | empty w hw htop => exact hsame rfl (by rw [ho]; simp [observer, htop])
  | accept | acceptFails | readFails => exact hsame rfl (by rw [ho]; rfl)
  | read w n fd k hw hk => exact hsame rfl (by rw [ho]; simp [observer, hw, hk])
  | write w fd chunk hw => exact hsame rfl (by rw [ho]; simp only [observer, hw]; split <;> rfl)
  | writeFails w fd hw => exact hsame rfl (by rw [ho]; simp [observer, hw])
  | close w fd hw => exact hsame rfl (by rw [ho]; simp [observer, hw])

/-- Ten connections fill the stack, two workers take one each, and another connection comes in. -/
theorem stack_bounded_of_keeps_full : ∃ (s : State) (o : Log),
    (StackBounded s ∧ ∀ i ∈ o.stores, 0 ≤ i ∧ i ≤ (workerNum : ℤ) - 1) ∧ o.stores = [0, 1, 2, 3, 4, 5, 6, 7, 8, 9, 8] := by
  obtain ⟨⟨s, o⟩, hs, hp⟩ := exists_reach
    (M := (machine (fun _ => 0) (fun _ => []) []).watch observer) (c := fun a p => KeepsStack a p.1)
    (p := fun p => decide (p.2.stores = [0, 1, 2, 3, 4, 5, 6, 7, 8, 9, 8]))
    (((List.range 10).flatMap fun i => [.accept (i + 5), .push]) ++ [.poll 0, .poll 1, .accept 15, .push])
    (by decide +kernel)
  exact ⟨s, o, stack_bounded_of_keeps hs, of_decide_eq_true hp⟩

/-- Eleven connections come in before any worker looks at the stack: the last is stored behind the array. -/
theorem stack_overrun : ∃ s o, ((machine (fun _ => 0) (fun _ => []) []).watch observer).Reachable (s, o) ∧
    ¬ StackBounded s ∧ 10 ∈ o.stores := by
  obtain ⟨⟨s, o⟩, hs, hp⟩ := exists_reachable (M := (machine (fun _ => 0) (fun _ => []) []).watch observer)
    (p := fun p => decide (¬ StackBounded p.1 ∧ 10 ∈ p.2.stores))
    ((List.range 11).flatMap fun i => [.accept (i + 5), .push]) (by decide +kernel)
  exact ⟨s, o, hs, of_decide_eq_true hp⟩

end Racey.TcpServer
