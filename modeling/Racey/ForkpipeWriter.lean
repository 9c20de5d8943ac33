import Racey.Forkpipe

/-! `WriterProcess` of racey-forkpipe by itself, with whatever its calls of `write` return, and with the operations on `int`
    checked: `none` where C leaves the result undefined. -/

namespace Racey.Forkpipe

instance (x : ℤ) : Decidable (IsInt x) := inferInstanceAs (Decidable (_ ∧ _))

/-- `a * b`, which is undefined where it overflows. -/
def mulInt (a b : ℤ) : Option ℤ := if IsInt (a * b) then some (a * b) else none

/-- `a % b`, with the sign of `a`; undefined for `b = 0`. -/
def remInt (a b : ℤ) : Option ℤ := if b = 0 then none else some (a.tmod b)

/-- One pass of the loop over `buffer`, which stores its `num` in `buffer[k]`. -/
def storeOne (num : ℤ) (k : ℕ) : Option ℤ :=
  (mulInt k prime1).map fun j => mixInt (mixInt num j) (prime2 / (k + 1))

/-- The passes for the given `k`: what they store, and `num` after them. -/
def storeAll (p : List ℤ × ℤ) : List ℕ → Option (List ℤ × ℤ)
  | [] => some p
  | k :: ks => (storeOne p.2 k).bind fun num => storeAll (p.1 ++ [num], num) ks

/-- `(num % NumProcs) + 1`. -/
def targetInt (c : Config) (num : ℤ) : Option ℤ := (remInt num c.numProcs).map (· + 1)

/-- A call `write(inputs[target][WR], buffer, sizeof buffer)`. -/
structure WriteCall where
  target : ℤ
  buffer : List ℤ
  deriving DecidableEq

/-- The main loop from pass `i` on, with `left` passes to go, where the `write` of pass `i` returns `r i`: its calls. -/
def writerLoop (c : Config) (r : ℕ → ℤ) : ℕ → ℕ → ℤ → Option (List WriteCall)
  | 0, _, _ => some []
  | left + 1, i, num =>
    (storeAll ([], num) (List.range 16)).bind fun p =>
      (targetInt c p.2).bind fun target =>
        (writerLoop c r left (i + 1) (mixInt p.2 (r i))).map (⟨target, p.1⟩ :: ·)

/-- The calls of `write` in `WriterProcess(threadId)`. -/
def writerProcess (c : Config) (threadId : ℕ) (r : ℕ → ℤ) : Option (List WriteCall) :=
  writerLoop c r c.maxLoop 0 (signed (sigInit threadId))

end Racey.Forkpipe
