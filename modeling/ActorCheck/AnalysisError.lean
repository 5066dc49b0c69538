import ActorCheck.Scope
import ActorCheck.Term.Instance

/-!
# Errors of the Analysis

Every error ends the analysis. The causes fall into groups that ask for
different reactions. Something may be outside what the analysis models, which
is never approximated; a caller may break the contract of an operation, which
points at a fault in the caller; a program may hand a statement arguments it
cannot take; the solver, the model or the environment may fail.

## Main definitions

* `Unsupported`: What the analysis does not model.
* `ContractViolation`: Calls and states that must not occur.
* `ArgumentError`: Statements that cannot be interpreted.
* `AnalysisError`: All causes.
* `AnalysisError.kind`, `AnalysisError.message`: The place of a cause among the
  groups, as a path of words, and its text.
-/

namespace ActorCheck

/-- A state of the abstract reachability graph. -/
abbrev StateId : Type := Nat

/-- The text of a state. -/
def stateText (s : StateId) : String := "s" ++ toString s

/-- What the analysis does not model. -/
inductive Unsupported where
  | lazyAbstraction
  | atomicAggregation
  /-- A relation to be run to its end has loops. -/
  | loopingRelation (name : String)
  | illTyped (expr : Expr)
  | overflow (expr : Expr)
  | actorExpr (expr : Expr)
  | actorVariable (v : Variable)
  | methodCall (method : String)
  | statement (s : Statement)
  /-- A sender that waits for its own message. -/
  | ownReceiver (s : Statement)
  | timing (s : Statement)
  | cloning (expr : Expr)
  | actorValue (expr : Expr)
  /-- Nothing can run, and the clock cannot be moved on for all who wait. -/
  | acceleration (waiting accelerable : Nat)
  | scriptAcceleration (script : ScriptId)
  deriving DecidableEq

/-- The construct that is not modelled. -/
def Unsupported.describe : Unsupported → String
  | .lazyAbstraction => "lazy abstraction refinement"
  | .atomicAggregation => "aggregation of atomic transitions"
  | .loopingRelation name => "transfer along relation '" ++ name ++ "' with loops"
  | .illTyped expr => "ill-typed expression '" ++ expr.render ++ "'"
  | .overflow expr => "arithmetic overflow in '" ++ expr.render ++ "'"
  | .actorExpr expr => "actor expression '" ++ expr.render ++ "' in value analysis"
  | .actorVariable v => "actor-typed variable '" ++ v.cellName ++ "' in value analysis"
  | .methodCall method => "call to '" ++ method ++ "' in value analysis"
  | .statement s => "'" ++ s.render ++ "' in value analysis"
  | .ownReceiver s => "'" ++ s.render ++ "' received by its own sender"
  | .timing s => "timing semantics of '" ++ s.render ++ "'"
  | .cloning expr => "actor cloning in '" ++ expr.render ++ "'"
  | .actorValue expr => "actor-typed expression '" ++ expr.render ++ "'"
  | .acceleration waiting accelerable =>
    "acceleration of " ++ toString waiting ++ " waiting conditions ("
      ++ toString accelerable ++ " accelerable)"
  | .scriptAcceleration script => "acceleration of script " ++ scriptText script

/-- Calls and states that must not occur. -/
inductive ContractViolation where
  | missingInterpolationSolution
  | mismatchedTarget (cached requested : StateId)
  | noInterpolants (target : StateId)
  | severalRunningThreads (count : Nat)
  | stuckRunningThread (thread : ThreadId)
  | unbalancedAtomic (thread : ThreadId)
  | emptyCallStack (thread : ThreadId)
  | malformedCallSite (location : LocationId)
  | severalConditionChecks (thread : ThreadId) (count : Nat)
  | unknownState (state : StateId)
  | unknownThread (index : Nat)
  deriving DecidableEq

/-- A word for a violated contract. -/
def ContractViolation.kind : ContractViolation → String
  | .missingInterpolationSolution => "MissingInterpolationSolution"
  | .mismatchedTarget _ _ => "MismatchedTarget"
  | .noInterpolants _ => "NoInterpolants"
  | .severalRunningThreads _ => "SeveralRunningThreads"
  | .stuckRunningThread _ => "StuckRunningThread"
  | .unbalancedAtomic _ => "UnbalancedAtomic"
  | .emptyCallStack _ => "EmptyCallStack"
  | .malformedCallSite _ => "MalformedCallSite"
  | .severalConditionChecks _ _ => "SeveralConditionChecks"
  | .unknownState _ => "UnknownState"
  | .unknownThread _ => "UnknownThread"

/-- The text of a violated contract. -/
def ContractViolation.message : ContractViolation → String
  | .missingInterpolationSolution =>
    "no interpolation solution is cached; refinement must follow an infeasible check"
  | .mismatchedTarget cached requested =>
    "cached interpolation solution belongs to " ++ stateText cached ++ ", not "
      ++ stateText requested
  | .noInterpolants target =>
    "infeasible trace to " ++ stateText target ++ " produced no interpolants"
  | .severalRunningThreads count => toString count ++ " threads are running at once"
  | .stuckRunningThread thread =>
    "running thread " ++ threadText thread ++ " has no leaving operations"
  | .unbalancedAtomic thread =>
    "end of atomic block without a matching begin in thread " ++ threadText thread
  | .emptyCallStack thread =>
    "return in thread " ++ threadText thread ++ " with an empty call stack"
  | .malformedCallSite location =>
    "call site at " ++ locationText location ++ " is not a single call operation"
  | .severalConditionChecks thread count =>
    "thread " ++ threadText thread ++ " waits for " ++ toString count
      ++ " condition checks at once"
  | .unknownState state =>
    "state " ++ stateText state ++ " is not part of the accessibility relation"
  | .unknownThread index => "no thread at index " ++ toString index

/-- Statements that cannot be interpreted. -/
inductive ArgumentError where
  | arity (method : String) (expected actual : Nat)
  | unresolvedActor (expr : Expr)
  | nonLiteralMessage (message : Message)
  | unexpectedStatement (statement : Statement)
  | scope (cause : ScopeError)
  deriving DecidableEq

/-- A word for an argument error, or two for one of scoping. -/
def ArgumentError.kind : ArgumentError → String
  | .arity _ _ _ => "Arity"
  | .unresolvedActor _ => "UnresolvedActor"
  | .nonLiteralMessage _ => "NonLiteralMessage"
  | .unexpectedStatement _ => "UnexpectedStatement"
  | .scope cause => "Scope." ++ cause.kind

/-- The text of an argument error. -/
def ArgumentError.message : ArgumentError → String
  | .arity method expected actual =>
    "'" ++ method ++ "' expects " ++ toString expected ++ " arguments, got " ++ toString actual
  | .unresolvedActor expr => "cannot resolve actor from '" ++ expr.render ++ "'"
  | .nonLiteralMessage message =>
    "message parts must be string literals, got '" ++ message.render ++ "'"
  | .unexpectedStatement statement =>
    "'" ++ statement.render ++ "' cannot be interpreted here"
  | .scope cause => cause.message

/-- Why an analysis ends early. -/
inductive AnalysisError where
  | unsupported (construct : Unsupported)
  | contract (violation : ContractViolation)
  | argument (cause : ArgumentError)
  /-- The blocks of a trace have no common numbering. -/
  | alignment (cause : AlignmentError)
  /-- The solver gave up. -/
  | unknownVerdict (reason : String)
  /-- The solver failed. -/
  | solver (text : String)
  | model (cause : ModelError)
  /-- The configuration cannot be read. -/
  | config
  /-- A diagnostic file cannot be written. -/
  | io
  /-- A run along a relation did not come to an end. -/
  | endlessRun (relation : String)
  deriving DecidableEq

/-- The words for an error of the analysis, outermost group first. -/
def AnalysisError.kind : AnalysisError → String
  | .unsupported _ => "Unsupported"
  | .contract violation => "Contract." ++ violation.kind
  | .argument cause => "Argument." ++ cause.kind
  | .alignment _ => "Solver"
  | .unknownVerdict _ => "Solver"
  | .solver _ => "Solver"
  | .model cause => "Model." ++ cause.kind
  | .config => "Config"
  | .io => "Io"
  | .endlessRun _ => "EndlessRun"

/-- The text of an error of the analysis. -/
def AnalysisError.message : AnalysisError → String
  | .unsupported construct => "unsupported: " ++ construct.describe
  | .contract violation => "contract violation: " ++ violation.message
  | .argument cause => "invalid argument: " ++ cause.message
  | .alignment cause => "solver error: " ++ cause.message
  | .unknownVerdict reason =>
    "solver error: satisfiability of the trace is unknown: " ++ reason
  | .solver text => "solver error: " ++ text
  | .model cause => cause.message
  | .config => "invalid configuration"
  | .io => "failed to write diagnostics"
  | .endlessRun relation => "run along relation '" ++ relation ++ "' does not end"

/-- Lift an error of the model. -/
def ofModel {α : Type} (x : Except ModelError α) : Except AnalysisError α :=
  x.mapError .model

/-- Lift an error of scoping. -/
def ofScope {α : Type} (x : Except ScopeError α) : Except AnalysisError α :=
  x.mapError fun cause => .argument (.scope cause)

end ActorCheck
