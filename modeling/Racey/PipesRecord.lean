import Racey.Clonepipe
import Racey.Pipes

/-! What a recording of racey-forkpipe or racey-clonepipe holds: who has written to each input pipe, one entry for each
    message in the order of the pipe, and how much each `read` of a reader has returned. -/

namespace Racey.Pipes
open Forkpipe (fill target)

structure Recording where
  writers : ℕ → List ℕ
  sizes : ℕ → List ℕ

/-- Writer `t` writes to pipe `k`. -/
def Recording.write (o : Recording) (k t : ℕ) : Recording :=
  { o with writers := Function.update o.writers k (o.writers k ++ [t]) }

/-- A `read` of reader `t` returns `r`. -/
def Recording.read (o : Recording) (t r : ℕ) : Recording :=
  { o with sizes := Function.update o.sizes t (o.sizes t ++ [r]) }

def recorder (c : Config) : Machine.Observer State Move Recording where
  start := ⟨fun _ => [], fun _ => []⟩
  note
    | .write t, s, o => o.write (target c (fill (s.writer t).num).2) t
    | .read t, s, o => o.read t ((s.buf t).take 128).length
    | .eof t, _, o => o.read t 0

end Racey.Pipes

namespace Racey.Forkpipe

def recorder (c : Config) : Machine.Observer State Move Pipes.Recording where
  start := ⟨fun _ => [], fun _ => []⟩
  note
    | .reader t, s, o =>
      match (s.reader t).phase with
      | .body .read => o.read t ((s.buf (.inputs t)).take 128).length
      | _ => o
    | .writer t, s, o =>
      let th := s.writer t
      match th.phase with
      | .body .loop => if th.i < c.maxLoop then o.write (target c (fill th.num).2) t else o
      | _ => o
    | _, _, o => o

/-- The recordings of the runs that print, and what they print. -/
def recordings (c : Config) (cap : Pipe → ℕ) : Set (Pipes.Recording × ℤ) :=
  {p | ∃ s, ((machine c cap).watch (recorder c)).Reachable (s, p.1) ∧ s.main = .printed p.2}

end Racey.Forkpipe

namespace Racey.Clonepipe
open Forkpipe (Pipe fill target)

def recorder (c : Config) : Machine.Observer State Move Pipes.Recording where
  start := ⟨fun _ => [], fun _ => []⟩
  note
    | .reader t, s, o =>
      match (s.reader t).phase with
      | .read => o.read t ((s.buf (.inputs t)).take 128).length
      | _ => o
    | .writer t, s, o =>
      let th := s.writer t
      match th.phase with
      | .loop => if th.i < c.maxLoop then o.write (target c (fill th.num).2) t else o
      | _ => o
    | .main, _, o => o

/-- The recordings of the runs that print, and what they print. -/
def recordings (c : Config) (cap : Pipe → ℕ) : Set (Pipes.Recording × ℤ) :=
  {p | ∃ s, ((machine c cap).watch (recorder c)).Reachable (s, p.1) ∧ s.main = .printed p.2}

end Racey.Clonepipe
