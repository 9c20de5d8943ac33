import Mathlib.Data.List.Infix
import Racey.Lib.Machine

/-! `testprog` of test.pl: it starts `-n` runs of a program, up to `-j` at a time, and reads their outputs from
    the queue of open pipes, which is one for all calls. A run is modelled by what it prints; the progress and
    error messages of test.pl are left out. Around it, the checks of the options, the loop over the programs,
    and testmany.sh, which runs test.pl for one setting after the other. -/

namespace Racey.TestPl

/-- What a run prints, all of which `wait4prog` reads. -/
abbrev Output := List Char

def marker : List Char := "Short signature:".toList

/-- `$&` after `$in =~ /^.*Short signature:.*$/m`: the first line in which the marker occurs. -/
def signature (out : Output) : Option (List Char) := (out.splitOn '\n').find? fun line => marker <:+: line

/-- What a call of `testprog` returns, and what it leaves: the number of runs it started, and `@pipes`. -/
structure Result where
  value : ℕ
  started : ℕ
  pipes : List Output
  deriving DecidableEq

/-- `while ($started < $nrep && scalar(@pipes) < $njobs)` around `startprog`, where `runs r` is the `r`-th run that
    the call starts, from 0, and the first argument is `$nrep - $started`. -/
def startprogs (njobs : ℕ) (runs : ℕ → Output) : ℕ → ℕ → List Output → ℕ × List Output
  | 0, started, pipes => (started, pipes)
  | todo + 1, started, pipes =>
    if pipes.length < njobs then startprogs njobs runs todo (started + 1) (pipes ++ [runs started])
    else (started, pipes)

/-- `while ($done < $nrep)`, where the first argument is `$nrep - $done`. -/
def testLoop (nrep njobs : ℕ) (runs : ℕ → Output) : ℕ → ℕ → Option (List Char) → List Output → Result
  | 0, started, _, pipes => ⟨1, started, pipes⟩
  | left + 1, started, sig, pipes =>
    let p := startprogs njobs runs (nrep - started) started pipes
    match p.2 with
    | [] => ⟨0, p.1, []⟩ -- `wait4prog` returns undef, in which no line matches
    | input :: pipes =>
      match signature input with
      | none => ⟨0, p.1, pipes⟩
      | some s => if s = sig.getD s then testLoop nrep njobs runs left p.1 (some (sig.getD s)) pipes else ⟨0, p.1, pipes⟩

def testprog (nrep njobs : ℕ) (runs : ℕ → Output) (pipes : List Output) : Result :=
  testLoop nrep njobs runs nrep 0 none pipes

/-- `@pipes` after the programs with the given runs have been tested in turn. -/
def pipesAfter (nrep njobs : ℕ) (progs : List (ℕ → Output)) : List Output :=
  progs.foldl (fun pipes runs => (testprog nrep njobs runs pipes).pipes) []

/-- What `testprog` returns for a program that is tested after some others. -/
def judged (nrep njobs : ℕ) (before : List (ℕ → Output)) (runs : ℕ → Output) : ℕ :=
  (testprog nrep njobs runs (pipesAfter nrep njobs before)).value

/-- The runs of a program before its last all print one and the same signature. -/
def Settles (nrep : ℕ) (runs : ℕ → Output) : Prop := ∃ s, ∀ r < nrep - 1, signature (runs r) = some s

/-! ### One operation at a time -/

/-- Where a call of `testprog` is. -/
inductive Pc
  /-- The test of `while ($done < $nrep)`. -/
  | loop
  /-- The test of `while ($started < $nrep && scalar(@pipes) < $njobs)`. -/
  | fill
  /-- Before `wait4prog`. -/
  | wait
  | returned (value : ℕ)
  deriving DecidableEq

/-- A call of `testprog` that began with no open pipes, its runs numbered in the order in which it starts them. A
    run is in flight from its start until its output is read, which is while it is in `pipes`. -/
structure Call where
  pc : Pc
  started : ℕ
  done : ℕ
  pipes : List ℕ
  sig : Option (List Char)
  deriving DecidableEq

def Call.step (nrep njobs : ℕ) (runs : ℕ → Output) (s : Call) : Option Call :=
  match s.pc with
  | .loop => some { s with pc := if s.done < nrep then .fill else .returned 1 }
  | .fill =>
    if s.started < nrep ∧ s.pipes.length < njobs then
      some { s with started := s.started + 1, pipes := s.pipes ++ [s.started] }
    else some { s with pc := .wait }
  | .wait =>
    match s.pipes with
    | [] => some { s with pc := .returned 0, done := s.done + 1 }
    | r :: pipes =>
      match signature (runs r) with
      | none => some { s with pc := .returned 0, done := s.done + 1, pipes := pipes }
      | some m =>
        if m = s.sig.getD m then
          some { s with pc := .loop, done := s.done + 1, pipes := pipes, sig := some (s.sig.getD m) }
        else some { s with pc := .returned 0, done := s.done + 1, pipes := pipes }
  | .returned _ => none

def call (nrep njobs : ℕ) (runs : ℕ → Output) : Machine Call Unit :=
  ⟨⟨.loop, 0, 0, [], none⟩, fun _ => Call.step nrep njobs runs⟩

/-- The runs whose outputs have been read, in the order of the reads. -/
def reader : Machine.Observer Call Unit (List ℕ) where
  start := []
  note _ s read := if s.pc = .wait then read ++ s.pipes.head?.toList else read

/-! ### The scripts -/

/-- The options as `GetOptions` leaves them, and `keys %progs` with `all` expanded. -/
structure Options where
  nrep : Option ℤ
  nproc : Option ℤ
  qsize : Option ℤ
  njobs : ℤ
  file : String
  progs : List String

/-- The checks that end in `usage()`. -/
def Options.rejected (o : Options) : Bool :=
  o.nrep.isNone || o.nproc.isNone || o.qsize.isNone || o.njobs < 1 || o.nrep.getD 0 < 2 || o.progs.isEmpty ||
    (o.progs.contains "readfile" && o.file == "")

/-- `for my $p (keys %progs) { testprog($p); }`: what the calls return, and `@pipes` after them. -/
def testAll (nrep njobs : ℕ) (runs : String → ℕ → Output) : List String → List Output → List ℕ × List Output
  | [], pipes => ([], pipes)
  | p :: progs, pipes =>
    let r := testprog nrep njobs (runs p) pipes
    let rest := testAll nrep njobs runs progs r.pipes
    (r.value :: rest.1, rest.2)

/-- The exit status of test.pl, and what `testprog` returned for each program. -/
def testpl (o : Options) (runs : String → ℕ → Output) : ℕ × List ℕ :=
  if o.rejected then (1, [])
  else (0, (testAll (o.nrep.getD 0).toNat o.njobs.toNat runs o.progs []).1) -- the script comes to its end

/-- The options that testmany.sh adds to those it is given: `-p`, `-q` and `--loops`. -/
structure Setting where
  nproc : ℕ
  qsize : ℕ
  nloops : ℕ
  deriving DecidableEq

/-- The settings in the order of testmany.sh. -/
def settings : List Setting :=
  [2, 8, 16].flatMap fun p =>
    [⟨p, 1003, 10000⟩, ⟨p, 10003, 50000⟩, ⟨p, 10003, 100000⟩, ⟨p, 50003, 50000⟩, ⟨p, 50003, 100000⟩,
      ⟨p, 50003, 500000⟩, ⟨p, 50003, 1000000⟩, ⟨p, 50003, 5000000⟩, ⟨p, 100003, 500000⟩, ⟨p, 100003, 1000000⟩,
      ⟨p, 100003, 5000000⟩, ⟨p, 100003, 10000000⟩]

/-- `./test.pl ... || exit 1`, for one setting after the other, where `status` is what test.pl exits with: the exit
    status of the script, and the settings that it has tested. -/
def testEach (status : Setting → ℕ) : List Setting → ℕ × List Setting
  | [] => (0, [])
  | s :: rest =>
    if status s = 0 then
      let after := testEach status rest
      (after.1, s :: after.2)
    else (1, [s])

/-- The options of one run of test.pl by testmany.sh, which is given `o`. -/
def Setting.options (o : Options) (s : Setting) : Options :=
  { o with nrep := some 100, nproc := some s.nproc, qsize := some s.qsize }

def testmany (o : Options) (runs : Setting → String → ℕ → Output) : ℕ × List Setting :=
  testEach (fun s => (testpl (s.options o) (runs s)).1) settings

/-! ### What the scripts are meant to do -/

/-- test.pl exits with status 0 if and only if `testprog` returned 1 for every program. -/
def Reported (o : Options) (runs : String → ℕ → Output) : Prop :=
  (testpl o runs).1 = 0 ↔ ∀ v ∈ (testpl o runs).2, v = 1

instance (o : Options) (runs : String → ℕ → Output) : Decidable (Reported o runs) :=
  inferInstanceAs (Decidable (_ ↔ _))

/-- testmany.sh stops with status 1 at the first setting in which `testprog` did not return 1 for some program, and
    it exits with status 0 where there is none. -/
def StopsAtFirst (o : Options) (runs : Setting → String → ℕ → Output) : Prop :=
  testmany o runs = testEach (fun s => if ∀ v ∈ (testpl (s.options o) (runs s)).2, v = 1 then 0 else 1) settings

instance (o : Options) (runs : Setting → String → ℕ → Output) : Decidable (StopsAtFirst o runs) :=
  inferInstanceAs (Decidable (_ = _))

end Racey.TestPl
