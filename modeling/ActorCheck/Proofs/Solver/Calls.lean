import ActorCheck.Proofs.Outcome
import ActorCheck.Solver.Interval

/-!
# Calls on the Interval Solver

What each call does to the state of the interval solver, and the states that calls
lead to. A solver in use is one that some sequence of calls has made out of the
initial one; the calls may come in any order, and any of them may have failed.

`Does` lists what a call can do, with the condition under which it does so, and what holds
of any calls is read off these cases. A call that fails does nothing. The assertions grow
by a formula of the fragment at a time and shrink from their end, so all of them are in the
fragment at any time.

## Main definitions

* `IntervalSolver.Request`: A call with its argument.
* `IntervalSolver.perform`: The state after a call.
* `IntervalSolver.after`: The state after a sequence of calls.
* `IntervalSolver.succeeds`: A call does not fail.
* `IntervalSolver.Does`: What a call can do.
* `IntervalSolver.Accepted`: All assertions are in the fragment.

## Theorems

* `IntervalSolver.does_of_perform`: The case analysis.
* `IntervalSolver.perform_of_failure`: A call that fails changes nothing.
* `IntervalSolver.asserted_of_accepted`: What is asserted are the formulas that were accepted.
* `IntervalSolver.after_induction`: What holds initially and is kept by every call.
* `IntervalSolver.accepted_after`: All assertions are in the fragment at any time.
-/

namespace ActorCheck

namespace IntervalSolver

/-- A call on the interval solver with its argument. -/
inductive Request where
  | push
  | pop
  | assert (t : Term)
  | retain (t : Term)
  | release (t : Term)
  | check
  | interpolants
  | reset

/-- The call that a request asks for, without its value. -/
def call : Request → Call Unit
  | .push => push
  | .pop => pop
  | .assert t => assert t
  | .retain t => retain t
  | .release t => release t
  | .check => do let _ ← check
  | .interpolants => do let _ ← interpolants
  | .reset => reset

/-- The state after a call, whether it failed or not. -/
def perform (s : IntervalSolver) (r : Request) : IntervalSolver := ((call r).run s).2

/-- The state of a new solver after a sequence of calls. -/
def after (requests : List Request) : IntervalSolver := requests.foldl perform initial

section Runs

variable (s : IntervalSolver) (t : Term)

theorem run_pop : pop.run s = match s.scopes with
    | [] => (.error .scopeUnderflow, s)
    | start :: scopes =>
      (.ok (),
        { s with
          assertions := s.assertions.take start, scopes := scopes, lastCheck := none }) := by
  rcases s with ⟨assertions, _ | ⟨start, scopes⟩, references, lastCheck⟩
  · rfl
  · rfl

theorem run_assert : (assert t).run s = match literalsOf true t with
    | .error e => (.error e, s)
    | .ok _ => (.ok (), { s with assertions := s.assertions ++ [t], lastCheck := none }) := by
  unfold assert
  rcases literalsOf true t with _ | _
  · rfl
  · rfl

theorem run_release : (release t).run s = if t ∈ s.references
    then (.ok (), { s with references := s.references.erase t })
    else (.error (.refCountUnderflow t), s) := by
  change (if t ∈ s.references then set { s with references := s.references.erase t }
    else throw (.refCountUnderflow t) : Call Unit).run s = _
  split
  next => rfl
  next => rfl

theorem run_check : check.run s = match s.verdict with
    | .error e => (.error e, s)
    | .ok v => (.ok v, { s with lastCheck := some v }) := by
  change ((liftM s.verdict : Call Verdict) >>= _).run s = _
  rcases s.verdict with _ | _
  · rfl
  · rfl

theorem run_interpolants : interpolants.run s
    = (if s.lastCheck = some .unsat then s.scopeInterpolants else .error .noUnsatProof, s) := by
  change (if s.lastCheck = some .unsat then liftM s.scopeInterpolants
    else throw .noUnsatProof : Call (List Term)).run s = _
  split
  next =>
    rcases s.scopeInterpolants with _ | _
    · rfl
    · rfl
  next => rfl

end Runs

/-- The call does not fail. -/
def succeeds (s : IntervalSolver) (r : Request) : Bool := ((call r).run s).1.isOk

/-- What a call can do: whether it succeeds, and the state that it leaves behind. -/
inductive Does (s : IntervalSolver) : Request → Bool → IntervalSolver → Prop where
  | opened : Does s .push true
      { s with scopes := s.assertions.length :: s.scopes, lastCheck := none }
  | closed {start : Nat} {scopes : List Nat} (isOpen : s.scopes = start :: scopes) :
      Does s .pop true
        { s with assertions := s.assertions.take start, scopes := scopes, lastCheck := none }
  | noScope (none : s.scopes = []) : Does s .pop false s
  | asserted {t : Term} {ls : List Literal} (accepted : literalsOf true t = .ok ls) :
      Does s (.assert t) true { s with assertions := s.assertions ++ [t], lastCheck := none }
  | unsupported {t : Term} {e : IntervalError} (refused : literalsOf true t = .error e) :
      Does s (.assert t) false s
  | taken {t : Term} : Does s (.retain t) true { s with references := t :: s.references }
  | givenBack {t : Term} (held : t ∈ s.references) :
      Does s (.release t) true { s with references := s.references.erase t }
  | notHeld {t : Term} (missing : t ∉ s.references) : Does s (.release t) false s
  | checked {v : Verdict} (found : s.verdict = .ok v) :
      Does s .check true { s with lastCheck := some v }
  | undecided {e : IntervalError} (failed : s.verdict = .error e) : Does s .check false s
  | interpolated (refuted : s.lastCheck = some .unsat) : Does s .interpolants true s
  | notInterpolated : Does s .interpolants false s
  | forgotten : Does s .reset true initial

/-- The state after a call and its success are those of one of the cases. -/
theorem does_of_perform (s : IntervalSolver) (r : Request) :
    s.Does r (s.succeeds r) (s.perform r) := by
  unfold succeeds perform
  cases r with
  | push => exact .opened
  | pop =>
      rw [call, run_pop]
      rcases hscopes : s.scopes with _ | ⟨start, scopes⟩
      · exact .noScope hscopes
      · exact .closed hscopes
  | assert t =>
      rw [call, run_assert]
      rcases ht : literalsOf true t with e | ls
      · exact .unsupported ht
      · exact .asserted ht
  | retain t => exact .taken
  | release t =>
      rw [call, run_release]
      split
      next hheld => exact .givenBack hheld
      next hmissing => exact .notHeld hmissing
  | check =>
      rw [call, run_bind, run_check]
      rcases hv : s.verdict with e | v
      · exact .undecided hv
      · exact .checked hv
  | interpolants =>
      rw [call, run_bind, run_interpolants]
      rcases hfound : (if s.lastCheck = some .unsat then s.scopeInterpolants
        else .error .noUnsatProof) with e | ts
      · exact .notInterpolated
      -- Interpolants are only given after a refutation, so there was one.
      · refine .interpolated ?_
        by_contra hnot
        rw [if_neg hnot] at hfound
        cases hfound
  | reset => exact .forgotten

/-- A call that fails changes nothing. -/
theorem perform_of_failure (s : IntervalSolver) (r : Request) (h : s.succeeds r = false) :
    s.perform r = s := by
  have hdoes := s.does_of_perform r
  rw [h] at hdoes
  generalize s.perform r = s' at hdoes
  -- In all cases of a failure the solver is the one before the call.
  cases hdoes with
  | _ => rfl

/-- Formulas of the fragment can be asserted one after the other. None of the calls fails, and what
    is asserted afterwards are these formulas behind those that were. -/
theorem asserted_of_accepted (ts : List Term) (hts : ∀ t ∈ ts, ∃ ls, literalsOf true t = .ok ls)
    (s : IntervalSolver) : (∀ t ∈ ts, ∀ s, succeeds s (.assert t) = true)
      ∧ ((ts.map Request.assert).foldl perform s).assertions = s.assertions ++ ts := by
  constructor
  · intro t ht s
    rcases hts t ht with ⟨ls, hls⟩
    rw [succeeds, call, run_assert, hls]
    rfl
  -- Each assertion is put behind those that are there, and the rest begins in that state.
  · induction ts generalizing s with
    | nil => exact (List.append_nil _).symm
    | cons t ts ih =>
        rcases hts t List.mem_cons_self with ⟨ls, hls⟩
        have hfirst : (s.perform (.assert t)).assertions = s.assertions ++ [t] := by
          rw [perform, call, run_assert, hls]
        rw [List.map_cons, List.foldl_cons, ih (fun u hu => hts u (List.mem_cons_of_mem t hu)),
          hfirst, List.append_assoc, List.singleton_append]

/-- What holds of a new solver and is kept by every call holds at any time. -/
theorem after_induction (P : IntervalSolver → Prop) (hinitial : P initial)
    (hperform : ∀ s r, P s → P (s.perform r)) (requests : List Request) : P (after requests) := by
  -- The induction is over the calls, from any state they start in.
  have hfold : ∀ s, P s → P (requests.foldl perform s) := by
    induction requests with
    | nil => exact fun s hs => hs
    | cons r requests ih => exact fun s hs => ih (s.perform r) (hperform s r hs)
  exact hfold initial hinitial

/-- All assertions are in the fragment. -/
def Accepted (s : IntervalSolver) : Prop := ∀ t ∈ s.assertions, ∃ ls, literalsOf true t = .ok ls

theorem accepted_perform (s : IntervalSolver) (r : Request) (hs : s.Accepted) :
    (s.perform r).Accepted := by
  have hdoes := s.does_of_perform r
  generalize s.perform r = s' at hdoes
  generalize s.succeeds r = success at hdoes
  cases hdoes with
  | closed => exact fun t ht => hs t (List.mem_of_mem_take ht)
  | @asserted u ls hu =>
      intro t ht
      rcases List.mem_append.mp ht with ht | ht
      · exact hs t ht
      · rw [List.mem_singleton.mp ht]
        exact ⟨ls, hu⟩
  | forgotten => exact nofun
  -- All other cases leave the assertions alone.
  | _ => exact hs

/-- All assertions are in the fragment at any time. -/
theorem accepted_after (requests : List Request) : (after requests).Accepted :=
  after_induction Accepted nofun accepted_perform requests

end IntervalSolver

end ActorCheck
