import ActorCheck.Proofs.Data.Stores
import ActorCheck.Proofs.Flow.Acyclic
import ActorCheck.Proofs.Program.Lines
import ActorCheck.Proofs.Program.Scoping

/-!
# Verdicts on Conditions

The relation of a condition has two edges, one that requires the condition and one that requires its
negation. From a store in which the condition has a truth value exactly one of them can be taken,
and the store stays what it is. So the run of the relation from its entry answers with this store
once, marked with the truth value.

Both edges are tried in any case. Therefore the condition and its negation have to be placed before
they are evaluated, also the parts of it that evaluation does not enter. Scoping does not change the
value of an expression whose variables are in their places already. It may replace attributes, and
those have no value of their own, so they can only stand where evaluation does not get to.

## Main definitions

* `Expr.variables`: The variables of an expression.
* `App.Decides`: The runs of a script answer with the truth value of its condition.

## Theorems

* `Scoping.eval_of_exprForm`: Scoping keeps the value if all variables are in their places.
* `Runner.alternatives_of_one`: One edge can be taken, in one way.
* `Runner.runAlong_judge`: The run of the relation of a condition.
* `App.decides_judge`: A script that runs the relation of a condition decides it.
-/

namespace ActorCheck

/-- The variables of an expression. -/
def Expr.variables : Expr → List Variable
  | .var v => [v]
  | .arith _ a b | .cmp _ a b | .and a b | .or a b => a.variables ++ b.variables
  | .not a | .locateActor a | .startClone a | .attributeOf a _ _ => a.variables
  | .num _ | .bool _ | .str _ | .usher => []

/-- Scoping keeps the value of an expression whose variables are in their places. What it does to
    attributes makes no difference to evaluation, which fails where it meets one. -/
theorem Scoping.eval_of_exprForm (scoping : Scoping) (s : Store) (e e' : Expr)
    (h : scoping.ExprForm e e') (hplaced : ∀ v ∈ e.variables, v.isUnqualified = false)
    (value : Value) (heval : eval s e = .ok value) : eval s e' = .ok value := by
  have hboth (a b : Expr) (hab : ∀ v ∈ a.variables ++ b.variables, v.isUnqualified = false) :
      (∀ v ∈ a.variables, v.isUnqualified = false) ∧ ∀ v ∈ b.variables, v.isUnqualified = false :=
    List.forall_mem_append.mp hab
  -- By induction on the scoped form. What is not evaluated at all has no value to keep.
  induction h generalizing value with
  | num | bool | str => exact heval
  | usher => cases heval
  | @var v w hform =>
      have hqualified := hplaced v (List.mem_singleton_self v)
      -- A variable that is in its place is read from there. The other ways to place one are for
      -- unqualified variables.
      cases hform with
      | known => exact heval
      | ofActor hunqualified | ofScope hunqualified => cases hqualified.symm.trans hunqualified
  | attributeOf => cases heval
  | arith op _ _ iha ihb =>
      rcases hboth _ _ hplaced with ⟨hleft, hright⟩
      rcases (eval_arith_ok s _ _ value op).mp heval with ⟨m, n, r, hm, hn, hr, hvalue⟩
      exact (eval_arith_ok s _ _ value op).mpr
        ⟨m, n, r, iha hleft _ hm, ihb hright _ hn, hr, hvalue⟩
  | @cmp a a' b b' op _ _ iha ihb =>
      rcases hboth _ _ hplaced with ⟨hleft, hright⟩
      -- Equality is asked of values of any types, an order only of numbers.
      by_cases hop : op = .eq
      · subst hop
        rcases (eval_eq_ok s a b value).mp heval with ⟨x, y, hx, hy, hvalue⟩
        exact (eval_eq_ok s a' b' value).mpr ⟨x, y, iha hleft _ hx, ihb hright _ hy, hvalue⟩
      · rcases (eval_order_ok s a b value op hop).mp heval with ⟨m, n, hm, hn, hvalue⟩
        exact (eval_order_ok s a' b' value op hop).mpr
          ⟨m, n, iha hleft _ hm, ihb hright _ hn, hvalue⟩
  | and _ _ iha ihb =>
      rcases hboth _ _ hplaced with ⟨hleft, hright⟩
      refine (eval_and_ok s _ _ value).mpr (((eval_and_ok s _ _ value).mp heval).imp ?_ ?_)
      · exact And.imp_left (iha hleft _)
      · rintro ⟨ha, p, hp, hvalue⟩
        exact ⟨iha hleft _ ha, p, ihb hright _ hp, hvalue⟩
  | or _ _ iha ihb =>
      rcases hboth _ _ hplaced with ⟨hleft, hright⟩
      refine (eval_or_ok s _ _ value).mpr (((eval_or_ok s _ _ value).mp heval).imp ?_ ?_)
      · exact And.imp_left (iha hleft _)
      · rintro ⟨ha, p, hp, hvalue⟩
        exact ⟨iha hleft _ ha, p, ihb hright _ hp, hvalue⟩
  | not _ ih =>
      rcases (eval_not_ok s _ value).mp heval with ⟨p, hp, hvalue⟩
      exact (eval_not_ok s _ value).mpr ⟨p, ih hplaced _ hp, hvalue⟩
  | locateActor => cases heval
  | startClone => cases heval

namespace App

section Relations

variable (n : Nat)

/-- Both edges of the relation of a condition lead upwards, so it has no loops. -/
theorem hasLoops_judge : (judge n).hasLoops = false := by
  -- The numbers of the locations are the rank: both edges start at the entry, which was drawn
  -- first.
  refine Flow.hasLoops_of_acyclic _ (Flow.acyclic_of_rank _ id fun e he => ?_)
  rcases (mem_edges_judge n e).mp he with rfl | rfl
  · exact Nat.lt_succ_self (n + 2)
  · exact Nat.lt_succ_of_lt (Nat.lt_succ_self (n + 2))

theorem mem_edgesFrom_judge (l : LocationId) (op : OperationId) (target : LocationId) :
    (op, target) ∈ (judge n).edgesFrom l
      ↔ l = n + 2 ∧ ((op, target) = (n, n + 3) ∨ (op, target) = (n + 1, n + 4)) := by
  rw [Flow.mem_edgesFrom, mem_edges_judge, Edge.mk.injEq, Edge.mk.injEq, Prod.mk.injEq,
    Prod.mk.injEq, ← and_or_left, and_comm (a := op = n), and_comm (a := op = n + 1)]

/-- Nothing leaves the places other than the entry. -/
theorem edgesFrom_judge (l : LocationId) (hl : l ≠ n + 2) : (judge n).edgesFrom l = [] :=
  List.eq_nil_iff_forall_not_mem.mpr fun e he => hl ((mem_edgesFrom_judge n l e.1 e.2).mp he).1

theorem contains_exits_judge (l : LocationId) (mark : Bool) (h : l = n + 3 ↔ mark = true) :
    (judge n).exits.contains l = mark :=
  Bool.eq_iff_iff.mpr (Std.ExtTreeSet.contains_iff_mem.trans ((mem_exits_judge n l).trans h))

end Relations

end App

namespace Runner

section Runs

variable {σ : Type} (r : Runner σ)

/-- What one member of a list contributes if the others contribute nothing. -/
theorem flatten_of_one {α β : Type} [DecidableEq α] (xs : List α) (hnodup : xs.Nodup) (x : α)
    (hx : x ∈ xs) (ys : List β) : (xs.map fun z => if z = x then ys else []).flatten = ys := by
  induction xs with
  | nil => cases hx
  | cons z zs ih =>
      rw [List.nodup_cons] at hnodup
      rw [List.map_cons, List.flatten_cons]
      rcases List.mem_cons.mp hx with rfl | hx
      · -- The member does not occur again.
        have hnone : ∀ part ∈ zs.map fun z => if z = x then ys else [], part = [] := by
          intro part hpart
          rcases List.mem_map.mp hpart with ⟨z, hz, rfl⟩
          refine if_neg fun heq => hnodup.1 ?_
          exact heq ▸ hz
        rw [if_pos rfl, List.flatten_eq_nil_iff.mpr hnone, List.append_nil]
      · have hne : z ≠ x := by
          rintro rfl
          exact hnodup.1 hx
        rw [if_neg hne, List.nil_append, ih hnodup.2 hx]

/-- If one edge can be taken, in one way, there is one way to go on. -/
theorem alternatives_of_one (g : Flow) (l target : LocationId) (op : OperationId) (s t : σ)
    (hleaves : (op, target) ∈ g.edgesFrom l) (hone : r.after s op = .ok [t])
    (hothers : ∀ e ∈ g.edgesFrom l, e ≠ (op, target) → r.after s e.1 = .ok []) :
    r.alternatives g l s = .ok [(target, t)] := by
  refine (r.alternatives_ok_iff g l s _).mpr
    ⟨_, ?_, flatten_of_one _ (g.nodup_edgesFrom l) _ hleaves [(target, t)]⟩
  refine List.forall₂_map_right_iff.mpr (List.forall₂_same.mpr fun e he => ?_)
  -- The other edges contribute nothing, so flattening leaves the one way.
  by_cases heq : e = (op, target)
  · rw [if_pos heq, heq]
    exact ⟨[t], hone, rfl⟩
  · rw [if_neg heq]
    exact ⟨[], hothers e he heq, rfl⟩

/-- A run that can go on in one way, from a place where it does not finish. -/
theorem runFrom_of_one (g : Relation) (depth : Nat) (l target : LocationId) (s t : σ)
    (hfinish : g.finishesAt l = false) (h : r.alternatives g.toFlow l s = .ok [(target, t)]) :
    r.runFrom g (depth + 1) l s = r.runFrom g depth target t := by
  rw [runFrom, h]
  change (do
    let later ← [(target, t)].mapM fun (p : LocationId × σ) => r.runFrom g depth p.1 p.2
    return finished g.toFlow l s ++ later.flatten) = _
  unfold finished
  rw [hfinish, List.mapM_cons, List.mapM_nil]
  cases r.runFrom g depth target t with
  | error e => rfl
  | ok found => exact congrArg Except.ok (List.append_nil found)

end Runs

section Conditions

variable (r : Runner Store) (hanalysis : r.analysis = .explicit) (s : Store)

include hanalysis

/-- A condition can be assumed in a store exactly if it holds there. -/
theorem after_assume (id : OperationId) (hid : id ≠ epsilonId) (condition placed : Expr)
    (hop : r.lookUp id = .ok ⟨id, .assume condition⟩)
    (hscope : r.scope ⟨id, .assume condition⟩ = .ok ⟨id, .assume placed⟩) (p : Bool)
    (heval : eval s placed = .ok (.bool p)) : r.after s id = .ok (if p then [s] else []) := by
  have hsuccessors : Explicit.successors s (.assume placed) = .ok (if p then [s] else []) := by
    rw [Explicit.successors, heval]
    cases p with
    | false => rfl
    | true => rfl
  -- Assuming leaves the store or nothing, and all stores are feasible to this analysis.
  rw [r.after_of_something s id _ hop (beq_false_of_ne hid), hscope, hanalysis]
  change (Explicit.successors s (.assume placed) >>= fun found =>
    pure (found.filter fun _ => true)) = _
  rw [hsuccessors]
  exact congrArg Except.ok (List.filter_true _)

open App in
/-- The run of the relation of a condition from its entry ends once, with the store as it was, and
    at the exit exactly if the condition holds. -/
theorem runAlong_judge (n : Nat) (hn : epsilonId < n) (condition placed : Expr)
    (hholds : r.lookUp n = .ok ⟨n, .assume condition⟩)
    (hfails : r.lookUp (n + 1) = .ok ⟨n + 1, .assume (.not condition)⟩)
    (hscope : r.scope ⟨n, .assume condition⟩ = .ok ⟨n, .assume placed⟩)
    (hscope' : r.scope ⟨n + 1, .assume (.not condition)⟩ = .ok ⟨n + 1, .assume (.not placed)⟩)
    (p : Bool) (heval : eval s placed = .ok (.bool p)) :
    r.runAlong (judge n) (n + 2) s = .ok [(s, p)] := by
  have hafter := r.after_assume hanalysis s n (Nat.ne_of_gt hn) _ _ hholds hscope p heval
  have hafter' :=
    r.after_assume hanalysis s (n + 1) (Nat.ne_of_gt (Nat.lt_succ_of_lt hn)) _ _ hfails
    hscope' (!p) ((eval_not_ok s placed _).mpr ⟨p, heval, rfl⟩)
  -- The edge that can be taken leads to a place that nothing leaves.
  have hway (target : Nat) (htarget : target ≠ n + 2)
      (h : r.alternatives (judge n).toFlow (n + 2) s = .ok [(target, s)]) :
      r.runAlong (judge n) (n + 2) s = .ok [(s, (judge n).exits.contains target)] := by
    have hdepth : (judge n).locations.size + patience
        = (judge n).locations.size + (patience - 2) + 1 + 1 := rfl
    unfold runAlong
    rw [if_neg (Bool.eq_false_iff.mp (hasLoops_judge n)), hdepth,
      r.runFrom_of_one _ _ _ _ _ _ (finishesAt_judge n) h,
      r.runFrom_of_end _ _ _ _ (edgesFrom_judge n _ htarget)]
  -- The condition decides which of the two edges can be taken, and where it leads to the mark.
  cases p with
  | true =>
      have hthere := hway (n + 3) (by omega) (r.alternatives_of_one _ _ _ n s s
        ((mem_edgesFrom_judge n _ _ _).mpr ⟨rfl, Or.inl rfl⟩) hafter fun e he hne => ?_)
      · rw [hthere, contains_exits_judge n (n + 3) true (iff_of_true rfl rfl)]
      · rw [(Prod.mk.inj (((mem_edgesFrom_judge n _ e.1 e.2).mp he).2.resolve_left hne)).1]
        exact hafter'
  | false =>
      have hend : n + 4 ≠ n + 3 := Nat.succ_ne_self (n + 3)
      have hthere := hway (n + 4) (by omega) (r.alternatives_of_one _ _ _ (n + 1) s s
        ((mem_edgesFrom_judge n _ _ _).mpr ⟨rfl, Or.inr rfl⟩) hafter' fun e he hne => ?_)
      · rw [hthere, contains_exits_judge n (n + 4) false (iff_of_false hend Bool.false_ne_true)]
      · rw [(Prod.mk.inj (((mem_edgesFrom_judge n _ e.1 e.2).mp he).2.resolve_right hne)).1]
        exact hafter

end Conditions

end Runner

namespace App

/-- The script runs a relation that decides the condition. Its run from the only entry, on behalf of
    nobody, answers with the store as it was and the truth value of the condition. So does the run
    on behalf of an actor, if the variables are in their places and the actor can be told what all
    attributes in the condition are. -/
def Decides (app : App) (script : Script) (condition : Expr) : Prop :=
  ∃ r entry, app.relation script.relation = .ok r ∧ r.soleEntry = .ok entry
    ∧ ∀ (concern : Concern) (s : Store) (p : Bool), eval s condition = .ok (.bool p) →
      (∃ runner, app.runner .explicit concern r none = .ok runner
        ∧ runner.runAlong r entry s = .ok [(s, p)])
      ∧ ((∀ v ∈ condition.variables, v.isUnqualified = false) →
        ∀ (name : ActorName) (actor : Actor) (placed : Expr), app.actor name = .ok actor →
          (Scoping.new actor [actor.name, r.name]).expr condition = .ok placed →
          ∃ runner, app.runner .explicit concern r (some name) = .ok runner
            ∧ runner.runAlong r entry s = .ok [(s, p)])

/-- A script that runs the relation of a condition decides it. -/
theorem decides_judge (app : App) (n : Nat) (hn : epsilonId < n) (script : Script)
    (condition : Expr)
    (hscript : script.relation = n + 5) (hrelation : app.relation (n + 5) = .ok (judge n))
    (hholds : app.operation n = .ok ⟨n, .assume condition⟩)
    (hfails : app.operation (n + 1) = .ok ⟨n + 1, .assume (.not condition)⟩) :
    app.Decides script condition := by
  refine ⟨judge n, n + 2, hscript ▸ hrelation, soleEntry_judge n, fun concern s p heval => ⟨?_, ?_⟩⟩
  · exact ⟨_, rfl, Runner.runAlong_judge _ rfl s n hn condition condition (congrArg ofModel hholds)
      (congrArg ofModel hfails) rfl rfl p heval⟩
  · intro hvariables name actor placed hactor hplaced
    -- What the run evaluates is the scoped condition, of which it is known that it has the same
    -- value.
    have hform := (Scoping.expr_ok_iff _ condition placed).mp hplaced
    refine ⟨_, app.runner_of_actor .explicit concern (judge n) name actor hactor,
      Runner.runAlong_judge _ rfl s n hn condition placed (congrArg ofModel hholds)
        (congrArg ofModel hfails) ?_ ?_ p ?_⟩
    · exact congrArg ofScope (Scoping.operation_assume _ n condition placed hplaced)
    · exact congrArg ofScope (Scoping.operation_assume _ (n + 1) _ _
        ((Scoping.expr_ok_iff _ _ _).mpr (.not hform)))
    · exact Scoping.eval_of_exprForm _ s condition placed hform hvariables _ heval

end App

end ActorCheck
