import Mathlib.Data.Int.Basic
import Mathlib.Data.List.Range
import Mathlib.Tactic.Ring

/-! The mix function of the racey programs, the 32-bit words it works on, and the loops by which each
    `main` folds the results of its threads or processes into the signature that it prints.

    An `unsigned` is a natural number below `2^32`, an `int` an integer; `unsigned` and `signed` are the
    conversions between the two. -/

namespace Racey

def maxElem : ℕ := 64

def prime1 : ℕ := 103072243

def prime2 : ℕ := 103995407

def unsigned (x : ℤ) : ℕ := (x % 4294967296).toNat

def signed (n : ℕ) : ℤ := if n < 2147483648 then n else n - 4294967296

/-- `(i + j * PRIME2) % PRIME1` in `unsigned` arithmetic. -/
def mix (i j : ℕ) : ℕ := (i + j * prime2) % 4294967296 % prime1

/-- `sig[33] = { 0, 1, 2, ..., 32 }`, as the programs start. -/
def sigInit (i : ℕ) : ℕ := i

/-- `m[i].value = mix(i, i)`, as each `main` initialises the shared cells. -/
def mInit (i : ℕ) : ℤ := signed (mix i i)

/-- The command line that `main` accepts: `NumProcs` and `MaxLoop`, after the assertions. -/
structure Config where
  numProcs : ℕ
  maxLoop : ℕ

/-- `assert(NumProcs > 0 && NumProcs <= 32)` and `assert(MaxLoop > 0)`. -/
structure Config.Accepted (c : Config) : Prop where
  numProcs_pos : 0 < c.numProcs
  numProcs_le : c.numProcs ≤ 32
  maxLoop_pos : 0 < c.maxLoop

/-! ### The results -/

/-- The result loop over `sig`: `mix_sig = sig[0]`, then `mix_sig = mix(sig[i], mix_sig)` for `i` from
    1 below `NumProcs`. -/
def mixSig (numProcs : ℕ) (sig : ℕ → ℕ) : ℤ :=
  (List.range' 1 (numProcs - 1)).foldl (fun mix_sig i => signed (mix (sig i) (unsigned mix_sig))) (signed (sig 0))

namespace Readfile

/-- Each thread of racey-readfile ends with `sig[threadId] = num`, its local hash. -/
def storeHashes (numProcs : ℕ) (num : ℕ → ℤ) : ℕ → ℕ :=
  fun i => if 1 ≤ i ∧ i ≤ numProcs then unsigned (num i) else i

/-- What racey-readfile prints for the local hashes of its threads. -/
def mixSig (numProcs : ℕ) (num : ℕ → ℤ) : ℤ := Racey.mixSig numProcs (storeHashes numProcs num)

end Readfile

namespace Forkpipe

/-- What one `read(output[i][RD], &num, sizeof(num))` of `main` returned: `r`, and `num` after it. -/
structure Output where
  r : ℤ
  num : ℤ

/-- One pass of the result loop: `none` is an early `return 1` of `main`, by the branch `r < 0` or the
    branch "no output". -/
def collectOne (mix_sig : ℤ) (o : Output) : Option ℤ :=
  if o.r < 0 then none
  else if o.r = 0 then none
  else
    let mix_sig := signed (mix (unsigned o.num) (unsigned mix_sig))
    some (signed (mix (unsigned o.r) (unsigned mix_sig)))

/-- The result loop: `mix_sig = sig[0]`, then one pass for each `i` from 1 below `NumProcs`. -/
def collect (numProcs : ℕ) (output : ℕ → Output) : Option ℤ :=
  (List.range' 1 (numProcs - 1)).foldlM (fun mix_sig i => collectOne mix_sig (output i)) (signed (sigInit 0))

/-- The signature when every output pipe delivers the four bytes of its reader's digest. -/
def mixSig (numProcs : ℕ) (num : ℕ → ℤ) : Option ℤ := collect numProcs fun i => ⟨4, num i⟩

end Forkpipe

end Racey
