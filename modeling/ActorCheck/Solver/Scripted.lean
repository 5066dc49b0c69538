import ActorCheck.Solver.Basic
import ActorCheck.Term.Printer

/-!
# A Scripted Solver

A solver whose answers are laid down in advance, for studying what its client
does with them. It keeps a log of all calls, counts scopes and references
without looking at formulas, and answers checks from a list of verdicts and
requests for interpolants from a list of terms.

A call that is scripted to fail is logged like any other and changes nothing
else. Taking a reference also fails when a limit is reached. The verdicts are
used up one by one; the last one is repeated, and without any the answer is
`sat`.

Scopes and references are integers: the script may let a client give back more
than it took, and the count shows it.

## Main definitions

* `SolverScript`: The answers laid down in advance.
* `ScriptedSolver`: The state of the solver.
-/

namespace ActorCheck

/-- The answers of a scripted solver. -/
structure SolverScript where
  /-- The names of the calls that fail. -/
  failing : List String
  /-- The number of references at which no further one can be taken. -/
  referenceLimit : Option Int
  /-- The verdicts of the checks that do not fail. -/
  verdicts : List Verdict
  /-- The interpolants of every request. -/
  interpolants : List Term

/-- The state of a scripted solver. -/
structure ScriptedSolver where
  script : SolverScript
  /-- Open scopes. -/
  depth : Int
  /-- Outstanding references. -/
  references : Int
  /-- Checks that did not fail so far. -/
  checks : Nat
  /-- The calls so far, oldest first. -/
  log : List String

namespace ScriptedSolver

/-- A call on a scripted solver. Its errors are texts. -/
abbrev Call (α : Type) : Type := SolverCall ScriptedSolver String α

/-- The start of a script. -/
def initial (script : SolverScript) : ScriptedSolver := ⟨script, 0, 0, 0, []⟩

/-- Log a call and fail if the script says so. -/
def record (name : String) (argument : Option Term) : Call Unit := do
  let entry :=
    match argument with
    | some t => name ++ " " ++ t.render
    | none => name
  modify fun s => { s with log := s.log ++ [entry] }
  if (← get).script.failing.contains name then throw (name ++ " failed")

/-- Open a scope. -/
def push : Call Unit := do
  record "push" none
  modify fun s => { s with depth := s.depth + 1 }

/-- Close a scope. -/
def pop : Call Unit := do
  record "pop" none
  modify fun s => { s with depth := s.depth - 1 }

/-- Accept any formula. -/
def assert (t : Term) : Call Unit :=
  record "assert" (some t)

/-- Take a reference, unless the limit is reached. -/
def retain (t : Term) : Call Unit := do
  record "incRef" (some t)
  let s ← get
  if s.script.referenceLimit = some s.references then throw "reference limit hit"
  set { s with references := s.references + 1 }

/-- Give a reference back. -/
def release (t : Term) : Call Unit := do
  record "decRef" (some t)
  modify fun s => { s with references := s.references - 1 }

/-- The scripted verdict of a check, counted from zero. -/
def verdictAt (verdicts : List Verdict) (k : Nat) : Verdict :=
  (verdicts[k]?.or verdicts.getLast?).getD .sat

/-- Answer the next verdict. -/
def check : Call Verdict := do
  record "check" none
  let s ← get
  set { s with checks := s.checks + 1 }
  return verdictAt s.script.verdicts s.checks

/-- Answer the scripted interpolants. -/
def interpolants : Call (List Term) := do
  record "interpolants" none
  return (← get).script.interpolants

instance : Solver ScriptedSolver String where
  push := push
  pop := pop
  assert := assert
  retain := retain
  release := release
  check := check
  interpolants := interpolants
  message := id

end ScriptedSolver

end ActorCheck
