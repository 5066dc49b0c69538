import ActorCheck.Proofs.Term.Meaning
import ActorCheck.Term.Conjunction

/-!
# Connectives of Fewer Than Two Operands

Conjunction and disjunction take any number of operands. Without operands they stand for a truth
value, with a single one for what this operand stands for, so both can be replaced everywhere in a
term without changing what the term stands for.

That the term stands for something is a premise here. A conjunction of just an integer stands for
nothing, while the integer does.

## Main definitions

* `Term.disjOf`: A list of disjuncts as one term.
* `Term.normal`: A term without connectives of fewer than two operands.

## Theorems

* `Term.eval_conjOf`, `Term.eval_disjOf`: What conjuncts and disjuncts stand for as one term.
* `Term.eval_normal`: A term stands for the same after the replacement.
-/

namespace ActorCheck

namespace Term

/-- A list of disjuncts as one term: `false` if there is none, the disjunct itself if there is
    one. -/
def disjOf : List Term → Term
  | [] => .bool false
  | [t] => t
  | ts => .disj ts

mutual

/-- A term without connectives of fewer than two operands: without operands they are replaced by
    the truth value they stand for, with one operand by that operand. -/
def normal : Term → Term
  | .var x => .var x
  | .int n => .int n
  | .bool b => .bool b
  | .arith o a b => .arith o a.normal b.normal
  | .cmp o a b => .cmp o a.normal b.normal
  | .conj ts => conjOf (normalAll ts)
  | .disj ts => disjOf (normalAll ts)
  | .not a => .not a.normal
  | .implies a b => .implies a.normal b.normal
  | .ite a b c => .ite a.normal b.normal c.normal

/-- The same for a list of terms. -/
def normalAll : List Term → List Term
  | [] => []
  | t :: ts => t.normal :: normalAll ts

end

section Replaced

variable (ν : Valuation)

theorem eval_conjOf (ts : List Term) (bs : List Bool) (h : evalAll ν ts = some bs) :
    (conjOf ts).eval ν = some (.bool (bs.all id)) := by
  -- With fewer than two operands the shorter term is compared with this connective.
  have hconj : (conj ts).eval ν = some (.bool (bs.all id)) := by
    rw [eval_conj, h]
    rfl
  rcases ts with _ | ⟨t, _ | ⟨u, ts⟩⟩
  · exact hconj
  · exact (eval_conj_single ν t _).mp hconj
  · exact hconj

theorem eval_disjOf (ts : List Term) (bs : List Bool) (h : evalAll ν ts = some bs) :
    (disjOf ts).eval ν = some (.bool (bs.any id)) := by
  have hdisj : (disj ts).eval ν = some (.bool (bs.any id)) := by
    rw [eval_disj, h]
    rfl
  rcases ts with _ | ⟨t, _ | ⟨u, ts⟩⟩
  · exact hdisj
  · exact (eval_disj_single ν t _).mp hdisj
  · exact hdisj

mutual

/-- Without connectives of fewer than two operands a term means the same. -/
theorem eval_normal (t : Term) (m : Meaning) (h : t.eval ν = some m) :
    t.normal.eval ν = some m := by
  cases t with
  | var x => exact h
  | int n => exact h
  | bool b => exact h
  | arith op a b =>
      rcases Option.bind_eq_some_iff.mp h with ⟨i, hi, h⟩
      rcases Option.bind_eq_some_iff.mp h with ⟨j, hj, h⟩
      rw [normal, eval, eval_normal a i hi, eval_normal b j hj]
      exact h
  | cmp op a b =>
      rcases Option.bind_eq_some_iff.mp h with ⟨i, hi, h⟩
      rcases Option.bind_eq_some_iff.mp h with ⟨j, hj, h⟩
      rw [normal, eval, eval_normal a i hi, eval_normal b j hj]
      exact h
  | conj ts =>
      -- That the whole stands for something makes every operand a truth value.
      rcases Option.bind_eq_some_iff.mp h with ⟨bs, hbs, h⟩
      rw [normal, eval_conjOf ν _ bs (evalAll_normalAll ts bs hbs)]
      exact h
  | disj ts =>
      rcases Option.bind_eq_some_iff.mp h with ⟨bs, hbs, h⟩
      -- A disjunction asks for truth values in the same way.
      rw [normal, eval_disjOf ν _ bs (evalAll_normalAll ts bs hbs)]
      exact h
  | not a =>
      rcases Option.bind_eq_some_iff.mp h with ⟨i, hi, h⟩
      rw [normal, eval, eval_normal a i hi]
      exact h
  | implies a b =>
      rcases Option.bind_eq_some_iff.mp h with ⟨i, hi, h⟩
      rcases Option.bind_eq_some_iff.mp h with ⟨j, hj, h⟩
      rw [normal, eval, eval_normal a i hi, eval_normal b j hj]
      exact h
  | ite c a b =>
      rcases Option.bind_eq_some_iff.mp h with ⟨k, hk, h⟩
      rcases Option.bind_eq_some_iff.mp h with ⟨i, hi, h⟩
      rcases Option.bind_eq_some_iff.mp h with ⟨j, hj, h⟩
      rw [normal, eval, eval_normal c k hk, eval_normal a i hi, eval_normal b j hj]
      exact h

theorem evalAll_normalAll (ts : List Term) (bs : List Bool) (h : evalAll ν ts = some bs) :
    evalAll ν (normalAll ts) = some bs := by
  cases ts with
  | nil => exact h
  | cons t ts =>
      -- Every operand stands for a truth value on its own, so each of them may be replaced.
      rw [evalAll_cons] at h
      rcases Option.bind_eq_some_iff.mp h with ⟨m, hm, h⟩
      rcases Option.bind_eq_some_iff.mp h with ⟨b, hb, h⟩
      rcases Option.bind_eq_some_iff.mp h with ⟨cs, hcs, h⟩
      rw [normalAll, evalAll_cons, eval_normal t m hm, evalAll_normalAll ts cs hcs]
      rw [Option.bind_eq_bind, Option.bind_some, hb]
      exact h

end

end Replaced

end Term

end ActorCheck
