import Racey.Forkpipe
import Racey.TestPl
import Mathlib.Data.Nat.Digits.Defs

/-! What a program prints, as test.pl reads it: lines on its progress, and the results at the end. Each `printf` prints whole
    lines, whatever the threads or processes that call it at the same time; what goes to `stderr` is left out. -/

namespace Racey

/-! ### Conversions -/

/-- A digit below 16, as `%d` and `%x` print it. -/
def digit (d : ℕ) : Char := .ofNat (if d < 10 then 48 + d else 87 + d)

def numeral (base n : ℕ) : List Char := if n = 0 then ['0'] else (base.digits n).reverse.map digit

/-- `%d`, for an `int` that is not negative. -/
def decimal (n : ℕ) : List Char := numeral 10 n

/-- `%08x`, for an `unsigned`. -/
def hex8 (n : ℕ) : List Char := (List.range 8).map fun k => digit (n / 16 ^ (7 - k) % 16)

/-- `%p`, as glibc prints it. -/
def pointer (a : ℕ) : List Char := if a = 0 then "(nil)".toList else "0x".toList ++ numeral 16 a

/-! ### Lines -/

/-- The lines that the programs print before their results. -/
inductive Line
  /-- racey-basic, each of its threads. -/
  | seizing (threadId : ℕ) | waitForBarrier (threadId : ℕ) | startingLoop (threadId : ℕ) | doneWithLoop (threadId : ℕ)
  /-- racey-forkmmap. -/
  | sharedA (a : ℕ) | sharedZ (a : ℕ)
  /-- racey-forkpipe, for each child that it has waited for. -/
  | r (k : ℕ)
  /-- racey-clonepipe, its threads and `main`. -/
  | readerStart (threadId : ℕ) | readerGo (threadId : ℕ) | writerStart (threadId : ℕ) | writerGo (threadId : ℕ)
  | spawnThreads | spawningThread (i tid : ℕ) | spawnedThread (i : ℕ) | waitingForJoin | joinedThread (i : ℕ)

def Line.text : Line → List Char
  | .seizing t => "SEIZING CPU: ".toList ++ decimal t
  | .waitForBarrier t => "WAIT FOR BARRIER: ".toList ++ decimal t
  | .startingLoop t => "STARTING LOOP: ".toList ++ decimal t
  | .doneWithLoop t => "DONE WITH LOOP: ".toList ++ decimal t
  | .sharedA a => "SHARED (a): ".toList ++ pointer a
  | .sharedZ a => "SHARED (z): ".toList ++ pointer a
  | .r k => "R: ".toList ++ decimal k
  | .readerStart t => "Reader ".toList ++ decimal t ++ " start".toList
  | .readerGo t => "Reader ".toList ++ decimal t ++ " go".toList
  | .writerStart t => "Writer ".toList ++ decimal t ++ " start".toList
  | .writerGo t => "Writer ".toList ++ decimal t ++ " go".toList
  | .spawnThreads => "Spawn threads!".toList
  | .spawningThread i t => "Spawning thread ".toList ++ decimal i ++ " ".toList ++ decimal t
  | .spawnedThread i => "Spawned thread ".toList ++ decimal i
  | .waitingForJoin => "Waiting for join!".toList
  | .joinedThread i => "Joined thread ".toList ++ decimal i

/-! ### Results -/

/-- What the last `printf` of a program prints: `mix_sig`, `&mix_sig` and what `malloc` returned. -/
structure Results where
  mix_sig : ℤ
  stack : ℕ
  heap : ℕ
  isInt : Forkpipe.IsInt mix_sig

/-- `Short signature: %08x @ %p @ %p`. -/
def Results.line (r : Results) : List Char :=
  "Short signature: ".toList ++ hex8 (unsigned r.mix_sig) ++ " @ ".toList ++ pointer r.stack ++ " @ ".toList ++ pointer r.heap

/-- What a program prints: its lines, and `"\n\nShort signature: %08x @ %p @ %p\n\n\n"`. -/
def printed (lines : List Line) (r : Results) : TestPl.Output :=
  lines.flatMap (fun l => l.text ++ ['\n']) ++ '\n' :: '\n' :: (r.line ++ ['\n', '\n', '\n'])

/-! ### racey-forkpipe -/

namespace Forkpipe

/-- The lines "R: %d" and the value of `mix_sig` that some interleaving lets `main` print. -/
def prints (c : Config) (cap : Pipe → ℕ) : Set (List ℕ × ℤ) :=
  {p | ∃ s, (machine c cap).Reachable s ∧ s.lines = p.1 ∧ s.main = .printed p.2}

end Forkpipe

end Racey
