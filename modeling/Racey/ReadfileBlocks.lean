import Racey.Lib.Interleave
import Racey.Readfile

/-! The blocks in which racey-readfile reads its file, and what `main` prints when it is known which thread has read which. -/

namespace Racey.Readfile
open Forkpipe (digest)

/-- The file as reads of 256 bytes return it, one after the other. -/
def blocks (file : List UInt8) : List (List UInt8) :=
  (List.range ((file.length + 255) / 256)).map fun i => readAt file (256 * i)

/-- The hash of a thread that has read the given blocks, and then the end of the file. -/
def hashBlocks (t : ℕ) (bs : List (List UInt8)) : ℤ := digest (bs.foldl digest (signed (sigInit t))) []

/-- What is printed when `readers` says, block by block, which thread reads it. -/
def signatureOf (c : Config) (file : List UInt8) (readers : List ℕ) : ℤ :=
  mixSig c.numProcs fun t => hashBlocks t (Interleave.of t (readers.zip (blocks file)))

/-- The values of `mix_sig` that some interleaving lets `main` compute, after its joins. -/
def outcomes (c : Config) (file : List UInt8) (buffer : ℕ → Buffer) : Set ℤ :=
  {v | ∃ s, (machine c file buffer).Reachable s ∧ Stopped c s ∧ Racey.mixSig c.numProcs s.sig = v}

/-- The reads that have returned something: which thread, and what. -/
def reads (file : List UInt8) : Machine.Observer State ℕ (List (ℕ × List UInt8)) where
  start := []
  note t s o :=
    match (s.thread t).pc with
    | .read => if readAt file s.offset = [] then o else o ++ [(t, readAt file s.offset)]
    | _ => o

end Racey.Readfile
