import Racey.TcpCopy
import Racey.Theorems.TcpEpoll
import Racey.Theorems.TcpServer

/-! Each `write` of the copying loops asks for what was read, as long as no `read` fails: the result of a failed one
    is handed to `write` as well, before the loop looks at it. The loops are those of the two servers: what a worker,
    or the event loop, has asked for in any run is what the loop asks for with the results that `read` has returned. -/

namespace Racey.TcpCopy

variable {results l : List ℤ} {n : ℤ} {o : Log}

/-! ### The loop -/

theorem sizeT_of_nonneg (h : 0 ≤ n) (hn : n ≤ bufSize) : sizeT n = n.toNat := by
  have h256 : (bufSize : ℤ) = 256 := rfl
  rw [sizeT, Int.emod_eq_of_lt h (by omega)]

theorem exact_iff (h : CanReturn n) : Pass.Exact ⟨n, sizeT n⟩ ↔ 0 ≤ n := by
  have h256 : (bufSize : ℤ) = 256 := rfl
  obtain ⟨hlo, hhi⟩ := h
  constructor
  · rintro ⟨hasked, -⟩
    by_contra hneg
    obtain rfl : n = -1 := by omega
    cases hasked
  · intro hn
    refine ⟨sizeT_of_nonneg hn hhi, ?_⟩
    show sizeT n ≤ bufSize
    rw [sizeT_of_nonneg hn hhi]
    omega

theorem copy_exact_iff (h : ∀ n ∈ results, CanReturn n) : (∀ p ∈ copy results, p.Exact) ↔ EndsWell results := by
  induction results with
  | nil => exact iff_of_true (fun p hp => absurd hp List.not_mem_nil) fun n hn => by cases hn
  | cons n results ih =>
    obtain ⟨hn, hrest⟩ := List.forall_mem_cons.mp h
    rw [copy, List.forall_mem_cons, exact_iff hn]
    by_cases hpos : n > 0
    · have hnext : EndsWell (n :: results) ↔ EndsWell results := by
        rw [EndsWell, List.find?_cons_of_neg (by simpa using hpos)]
        rfl
      rw [if_pos hpos, ih hrest, hnext, and_iff_right (le_of_lt hpos)]
    · have hlast : EndsWell (n :: results) ↔ n = 0 := by
        rw [EndsWell, List.find?_cons_of_pos (by simpa using hpos)]
        exact ⟨fun h => h n rfl, fun h m hm => by rw [← Option.some.inj hm, h]⟩
      rw [if_neg hpos, hlast]
      exact ⟨fun h => le_antisymm (not_lt.mp hpos) h.1, fun h => ⟨h.ge, fun p hp => absurd hp List.not_mem_nil⟩⟩

theorem copy_append (h : ∀ n ∈ results, 0 < n) : copy (results ++ l) = copy results ++ copy l := by
  induction results with
  | nil => rfl
  | cons n results ih =>
    obtain ⟨hn, hrest⟩ := List.forall_mem_cons.mp h
    rw [List.cons_append, copy, copy, if_pos hn, if_pos hn, ih hrest, List.cons_append]

/-! ### A loop as it goes on -/

/-- Between two passes. -/
def Log.AtRead (o : Log) : Prop := o.passes = copy o.results ∧ ∀ n ∈ o.results, 0 < n

/-- Between `read`, which has returned `n`, and `write`. -/
def Log.AtWrite (o : Log) (n : ℤ) : Prop :=
  ∃ before, o.results = before ++ [n] ∧ o.passes = copy before ∧ ∀ m ∈ before, 0 < m

theorem atRead_start : Log.start.AtRead := ⟨rfl, fun _ h => absurd h List.not_mem_nil⟩

theorem Log.AtRead.read (h : o.AtRead) (n : ℤ) : (o.read n).AtWrite n := ⟨o.results, rfl, h.1, h.2⟩

theorem Log.AtWrite.passes (h : o.AtWrite n) : (o.write n).passes = copy o.results := by
  obtain ⟨before, hresults, hpasses, hpos⟩ := h
  rw [hresults, copy_append hpos, ← hpasses, copy]
  split <;> rfl

theorem Log.AtWrite.again (h : o.AtWrite n) (hn : 0 < n) : (o.write n).AtRead := by
  refine ⟨h.passes, fun m hm => ?_⟩
  obtain ⟨before, hresults, -, hpos⟩ := h
  have hm : m ∈ o.results := hm
  rw [hresults, List.mem_append, List.mem_singleton] at hm
  rcases hm with hm | rfl
  · exact hpos m hm
  · exact hn

theorem canReturn_snoc (h : ∀ m ∈ results, CanReturn m) (hn : CanReturn n) : ∀ m ∈ results ++ [n], CanReturn m := by
  intro m hm
  rcases List.mem_append.mp hm with hm | hm
  · exact h m hm
  · rwa [List.mem_singleton.mp hm]

theorem canReturn_failed : CanReturn (-1) := by decide

theorem canReturn_chunk {chunk : List UInt8} (h : chunk.length ≤ 256) : CanReturn (returned (some chunk)) :=
  ⟨by simp only [returned]; omega, by simp only [returned, bufSize]; omega⟩

end Racey.TcpCopy

namespace Racey.TcpServer
open Machine TcpCopy

variable {memory : ℤ → ℤ} {streams : ℕ → List UInt8} {old : List UInt8} {s s' : State} {o : ℕ → TcpCopy.Log} {a : Move}

/-- What a worker has read and written, as far as it has come. -/
def WorkerPc.Copies (o : TcpCopy.Log) : WorkerPc → Prop
  | .poll | .close _ => o.passes = TcpCopy.copy o.results
  | .read _ => o.AtRead
  | .write _ chunk => o.AtWrite (returned chunk)

/-- Every worker copies by the loop. -/
def Copying (s : State) (o : ℕ → TcpCopy.Log) : Prop :=
  ∀ w, (s.worker w).Copies (o w) ∧ ∀ n ∈ (o w).results, CanReturn n

theorem Copying.same (h : Copying s o) (hworker : s'.worker = s.worker) : Copying s' o := by
  intro w
  rw [hworker]
  exact h w

/-- Worker `w` makes a step of its own. -/
theorem Copying.update (h : Copying s o) {w : ℕ} {pc : WorkerPc} {x : TcpCopy.Log}
    (hworker : s'.worker = Function.update s.worker w pc) (hpc : pc.Copies x) (hx : ∀ n ∈ x.results, CanReturn n) :
    Copying s' (Function.update o w x) := by
  intro v
  rw [hworker]
  rcases eq_or_ne v w with rfl | hne
  · simpa using ⟨hpc, hx⟩
  · simpa [hne] using h v

theorem Copying.step (h : Copying s o) (hs : step a s = some s') : Copying s' (copyObserver.note a s o) := by
  cases step_cases hs with
  | accept | acceptFails | push | full => exact h.same rfl
  | take w hw htop =>
    simp only [copyObserver, htop, if_true]
    exact h.update rfl atRead_start fun _ hn => absurd hn List.not_mem_nil
  | empty w hw htop =>
    simp only [copyObserver, htop, if_false]
    exact h
  | read w n fd k hw hk hcan =>
    obtain ⟨hpc, hresults⟩ := h w
    rw [hw] at hpc
    have hlen : ((s.unread k).take n).length = n := List.length_take_of_le hcan.2.1
    have hret : returned (some ((s.unread k).take n)) = n := by rw [returned, hlen]
    have hn : CanReturn (n : ℤ) := hret ▸ canReturn_chunk (hlen.trans_le hcan.1)
    refine h.update rfl ?_ (canReturn_snoc hresults hn)
    show ((o w).read n).AtWrite (returned (some ((s.unread k).take n)))
    rw [hret]
    exact Log.AtRead.read hpc n
  | readFails w fd hw =>
    obtain ⟨hpc, hresults⟩ := h w
    rw [hw] at hpc
    exact h.update rfl (Log.AtRead.read hpc (-1)) (canReturn_snoc hresults canReturn_failed)
  | write w fd chunk hw =>
    obtain ⟨hpc, hresults⟩ := h w
    rw [hw] at hpc
    simp only [copyObserver, hw]
    refine h.update rfl ?_ hresults
    split
    · rename_i hpos
      exact Log.AtWrite.again hpc (by simpa [returned] using hpos)
    · exact Log.AtWrite.passes hpc
  | writeFails w fd hw =>
    obtain ⟨hpc, hresults⟩ := h w
    rw [hw] at hpc
    simp only [copyObserver, hw]
    exact h.update rfl (Log.AtWrite.passes hpc) hresults
  | close w fd hw =>
    obtain ⟨hpc, hresults⟩ := h w
    rw [hw] at hpc
    have hsame := (h.update rfl hpc hresults : Copying (s.close w fd) _)
    rwa [Function.update_eq_self] at hsame

end Racey.TcpServer

namespace Racey.TcpServer
open Machine TcpCopy

variable {memory : ℤ → ℤ} {streams : ℕ → List UInt8} {old : List UInt8} {s : State} {o : ℕ → TcpCopy.Log}

/-- In every run, the calls that a worker has made for a connection, up to its last `write`, are those of the loop
    with the results that `read` has returned to it. -/
theorem passes_eq_copy (h : ((machine memory streams old).watch copyObserver).Reachable (s, o)) {w : ℕ}
    (hw : ∀ fd chunk, s.worker w ≠ .write fd chunk) :
    (o w).passes = copy (o w).results ∧ ∀ n ∈ (o w).results, CanReturn n := by
  have start : Copying (start memory streams old) fun _ => .start := fun _ =>
    ⟨rfl, fun _ hn => absurd hn List.not_mem_nil⟩
  obtain ⟨hpc, hresults⟩ := h.invariant (I := fun p => Copying p.1 p.2) start (fun a p q hp _ hs => by
    obtain ⟨hstep, hnote⟩ := watch_step_eq_some.mp hs
    rw [hnote]
    exact Copying.step hp hstep) w
  refine ⟨?_, hresults⟩
  cases hpc' : s.worker w with
  | poll | close =>
    simp only [hpc'] at hpc
    exact hpc
  | read fd =>
    simp only [hpc'] at hpc
    exact hpc.1
  | write fd chunk => exact absurd hpc' (hw fd chunk)

end Racey.TcpServer

namespace Racey.TcpEpoll
open Machine TcpCopy

variable {streams : ℕ → List UInt8} {old : List UInt8} {s s' : State} {o : TcpCopy.Log} {a : Move}

/-- What the server has read and written of the connection that it serves, as far as it has come. -/
def Pc.Copies (o : TcpCopy.Log) : Pc → Prop
  | .read _ _ => o.AtRead
  | .write _ chunk _ => o.AtWrite (TcpCopy.returned chunk)
  | .del _ _ => o.passes = TcpCopy.copy o.results
  | _ => True

/-- The server copies by the loop. -/
def Copying (s : State) (o : TcpCopy.Log) : Prop := s.pc.Copies o ∧ ∀ n ∈ o.results, CanReturn n

theorem returned_readResult (k : ℕ) : CanReturn (returned (s.readResult k)) := by
  unfold State.readResult
  split
  · exact canReturn_chunk (List.length_take_le 256 _)
  · split <;> decide

theorem Copying.step (h : Copying s o) (hs : TcpEpoll.step a s = some s') : Copying s' (copyObserver.note a s o) := by
  obtain ⟨hpc, hresults⟩ := h
  have hnil : ∀ n ∈ TcpCopy.Log.start.results, CanReturn n := fun _ hn => absurd hn List.not_mem_nil
  cases step_cases hs with
  | connect | arrive | finish | reset => exact ⟨hpc, hresults⟩
  | wait => exact ⟨trivial, hresults⟩
  | again hat | close _ _ hat | acceptFails _ _ hat | accept _ _ _ _ hat | readable _ _ _ hat =>
    simp only [copyObserver, hat]
    first | exact ⟨trivial, hnil⟩ | exact ⟨atRead_start, hnil⟩
  | register k events hat =>
    simp only [copyObserver, hat]
    exact ⟨trivial, hresults⟩
  | read k events hat =>
    rw [hat] at hpc
    simp only [copyObserver, hat]
    exact ⟨Log.AtRead.read hpc _, canReturn_snoc hresults (returned_readResult k)⟩
  | write k chunk events hat =>
    rw [hat] at hpc
    simp only [copyObserver, hat]
    refine ⟨?_, hresults⟩
    show (if chunk.length > 0 then Pc.read k events else Pc.del k events).Copies _
    split
    · rename_i hpos
      exact Log.AtWrite.again hpc (by simpa [returned] using hpos)
    · exact Log.AtWrite.passes hpc
  | writeFails k events hat =>
    rw [hat] at hpc
    simp only [copyObserver, hat]
    exact ⟨Log.AtWrite.passes hpc, hresults⟩
  | del k events hat =>
    simp only [copyObserver, hat]
    exact ⟨trivial, hresults⟩

/-- In every run, the calls that the server has made for the connection it is about to leave are those of the loop
    with the results that `read` has returned. -/
theorem passes_eq_copy (h : ((machine streams old).watch copyObserver).Reachable (s, o)) {k : ℕ} {events : List Event}
    (hdel : s.pc = .del k events) : o.passes = copy o.results ∧ ∀ n ∈ o.results, CanReturn n := by
  have start : Copying (start streams old) .start := ⟨trivial, fun _ hn => absurd hn List.not_mem_nil⟩
  obtain ⟨hpc, hresults⟩ := h.invariant (I := fun p => Copying p.1 p.2) start fun a p q hp _ hs => by
    obtain ⟨hstep, hnote⟩ := watch_step_eq_some.mp hs
    rw [hnote]
    exact Copying.step hp hstep
  simp only [hdel] at hpc
  exact ⟨hpc, hresults⟩

end Racey.TcpEpoll

namespace Racey.TcpCopy

/-! ### The two servers -/

/-- Both servers write what they read, byte for byte, if and only if the loop is not ended by a `read` that fails. -/
theorem copies_exact_iff {results : List ℤ} (h : ∀ n ∈ results, CanReturn n) :
    ((∀ p ∈ TcpServer.copy results, p.Exact) ↔ EndsWell results) ∧
    ((∀ p ∈ TcpEpoll.copy results, p.Exact) ↔ EndsWell results) :=
  ⟨copy_exact_iff h, copy_exact_iff h⟩

theorem copies_exact_iff_three : ((∀ p ∈ TcpServer.copy [256, 3, 0], p.Exact) ↔ EndsWell [256, 3, 0]) ∧
    ((∀ p ∈ TcpEpoll.copy [256, 3, 0], p.Exact) ↔ EndsWell [256, 3, 0]) :=
  copies_exact_iff (by decide)

/-- After three bytes `read` fails, and `write` is asked for all but one of `2^64` bytes. -/
theorem copies_not_exact : (∀ n ∈ [3, -1], CanReturn n) ∧
    TcpServer.copy [3, -1] = [⟨3, 3⟩, ⟨-1, 18446744073709551615⟩] ∧
    TcpEpoll.copy [3, -1] = [⟨3, 3⟩, ⟨-1, 18446744073709551615⟩] ∧
    ¬(∀ p ∈ TcpServer.copy [3, -1], p.Exact) ∧ ¬∀ p ∈ TcpEpoll.copy [3, -1], p.Exact := by
  decide +kernel

end Racey.TcpCopy
