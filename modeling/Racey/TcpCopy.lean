import Racey.TcpEpoll
import Racey.TcpServer

/-! The loop by which each of the two TCP servers copies a connection to its output file, with the counts that it
    hands to `write`. -/

namespace Racey

namespace TcpCopy

/-- `sizeof(buf)`. -/
def bufSize : ℕ := 256

/-- An `int` as the `size_t` that `write` takes. -/
def sizeT (n : ℤ) : ℕ := (n % 18446744073709551616).toNat

/-- One pass of the loop: what `read` returned, and how many bytes the `write` after it is asked for. -/
structure Pass where
  returned : ℤ
  asked : ℕ
  deriving DecidableEq

/-- `do { n = read(fd, buf, sizeof(buf)); write(output_fd, buf, n); } while (n > 0);`, where the calls of `read` return
    the given results. The loop is left behind the first that is not positive. -/
def copy : List ℤ → List Pass
  | [] => []
  | n :: results => ⟨n, sizeT n⟩ :: if n > 0 then copy results else []

/-- What `read` can return for the buffer. -/
def CanReturn (n : ℤ) : Prop := -1 ≤ n ∧ n ≤ bufSize

instance (n : ℤ) : Decidable (CanReturn n) := inferInstanceAs (Decidable (_ ∧ _))

/-- The `write` asks for the bytes that `read` has delivered, of which there are none where it has failed, and for no
    more than the buffer holds. -/
def Pass.Exact (p : Pass) : Prop := p.asked = p.returned.toNat ∧ p.asked ≤ bufSize

instance (p : Pass) : Decidable p.Exact := inferInstanceAs (Decidable (_ ∧ _))

/-- The result that ends the loop, if there is one, is the end of the stream. -/
def EndsWell (results : List ℤ) : Prop := ∀ n, results.find? (· ≤ 0) = some n → n = 0

instance (results : List ℤ) : Decidable (EndsWell results) := by
  unfold EndsWell
  cases results.find? (· ≤ 0) with
  | none => exact isTrue fun _ h => by cases h
  | some n => exact decidable_of_iff (n = 0) (by simp)

/-- What `read` returns, where `none` stands for a failure. -/
def returned : Option (List UInt8) → ℤ
  | some chunk => chunk.length
  | none => -1

/-- The results of `read` in a copying loop so far, and its passes so far. -/
structure Log where
  results : List ℤ
  passes : List Pass

def Log.start : Log := ⟨[], []⟩

def Log.read (o : Log) (n : ℤ) : Log := { o with results := o.results ++ [n] }

def Log.write (o : Log) (n : ℤ) : Log := { o with passes := o.passes ++ [⟨n, sizeT n⟩] }

end TcpCopy

namespace TcpServer
open TcpCopy

/-- The copying loop of `racey_worker`. -/
def copy (results : List ℤ) : List Pass := TcpCopy.copy results

/-- For each worker, the loop that it is in or was in last. -/
def copyObserver : Machine.Observer State Move (ℕ → TcpCopy.Log) where
  start _ := .start
  note
    | .poll w, s, o => if s.clientFds s.clientIdx > 0 then Function.update o w .start else o
    | .read w n, _, o => Function.update o w ((o w).read n)
    | .readFails w, _, o => Function.update o w ((o w).read (-1))
    | .write w, s, o =>
      match s.worker w with
      | .write _ chunk => Function.update o w ((o w).write (returned chunk))
      | _ => o
    | _, _, o => o

end TcpServer

namespace TcpEpoll
open TcpCopy

/-- The copying loop of the read branch of `main`. -/
def copy (results : List ℤ) : List Pass := TcpCopy.copy results

/-- The loop that the server is in or was in last. -/
def copyObserver : Machine.Observer State Move TcpCopy.Log where
  start := .start
  note
    | .server, s, o =>
      match s.pc with
      | .handle _ => .start
      | .read k _ => o.read (returned (s.readResult k))
      | .write _ chunk _ => o.write (returned chunk)
      | _ => o
    | _, _, o => o

end TcpEpoll

end Racey
