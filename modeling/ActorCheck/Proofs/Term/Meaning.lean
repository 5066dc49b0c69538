import ActorCheck.Proofs.Outcome
import ActorCheck.Term.Basic

/-!
# What Terms Mean

A valuation gives every name an unbounded integer or a truth value. A term then
stands for an integer or a truth value too, unless the sorts of its parts do not
fit: there is no sum of truth values and no conjunction of integers. A formula
holds if it stands for the truth value `true`, so one whose sorts do not fit holds
under no valuation.

Equality compares two integers or two truth values, the other comparisons compare
integers, and the branches of a conditional are of one sort.

What a term stands for depends on the names that occur in it and on nothing else.
Together with the way in which names are replaced this gives the substitution
lemma, in the form that a replacement needs which may fail and whose result is
known only for the names that occur.

## Main definitions

* `Meaning`: An integer or a truth value.
* `Valuation`: A meaning for every name.
* `Term.eval`: What a term stands for.
* `Term.Holds`: A formula is true.

## Theorems

* `Term.eval_conj_iff`, `Term.eval_disj_iff`: When a connective is decided by all operands.
* `Term.eval_of_traverse`: What a term stands for after its names were replaced.
* `Term.eval_congr`: Only the names that occur in a term matter.
-/

namespace ActorCheck

/-- An integer or a truth value. -/
inductive Meaning where
  | int (n : Int)
  | bool (b : Bool)
  deriving DecidableEq

/-- A meaning for every name. -/
abbrev Valuation : Type := String → Meaning

namespace Meaning

def asBool? : Meaning → Option Bool
  | .bool b => some b
  | .int _ => none

def arith (op : ArithOp) : Meaning → Meaning → Option Meaning
  | .int m, .int n => some (.int (op.apply m n))
  | _, _ => none

def cmp (op : Comparison) : Meaning → Meaning → Option Meaning
  | .int m, .int n => some (.bool (op.holds m n))
  | .bool b, .bool c => if op = .eq then some (.bool (b == c)) else none
  | _, _ => none

def implies (a b : Meaning) : Option Meaning := do
  return .bool (!(← a.asBool?) || (← b.asBool?))

def negate (a : Meaning) : Option Meaning := do
  return .bool (!(← a.asBool?))

def choose (condition : Meaning) : Meaning → Meaning → Option Meaning
  | .int m, .int n => do return .int (if ← condition.asBool? then m else n)
  | .bool b, .bool c => do return .bool (if ← condition.asBool? then b else c)
  | _, _ => none

end Meaning

namespace Term

mutual

/-- What a term stands for under a valuation, if its sorts fit. -/
def eval (ν : Valuation) : Term → Option Meaning
  | .var x => some (ν x)
  | .int n => some (.int n.toInt)
  | .bool b => some (.bool b)
  | .arith op a b => do Meaning.arith op (← a.eval ν) (← b.eval ν)
  | .cmp op a b => do Meaning.cmp op (← a.eval ν) (← b.eval ν)
  | .conj ts => do return .bool ((← evalAll ν ts).all id)
  | .disj ts => do return .bool ((← evalAll ν ts).any id)
  | .not a => do (← a.eval ν).negate
  | .implies a b => do Meaning.implies (← a.eval ν) (← b.eval ν)
  | .ite c a b => do Meaning.choose (← c.eval ν) (← a.eval ν) (← b.eval ν)

/-- The truth values of a list of formulas. -/
def evalAll (ν : Valuation) : List Term → Option (List Bool)
  | [] => some []
  | t :: ts => do return (← (← t.eval ν).asBool?) :: (← evalAll ν ts)

end

/-- A formula is true under a valuation. -/
def Holds (ν : Valuation) (t : Term) : Prop := t.eval ν = some (.bool true)

section Connectives

variable (ν : Valuation)

theorem eval_var (x : String) : (var x).eval ν = some (ν x) := rfl

theorem eval_int (n : Int64) : (int n).eval ν = some (.int n.toInt) := rfl

theorem eval_bool (b : Bool) : (bool b).eval ν = some (.bool b) := rfl

theorem eval_cmp (op : Comparison) (a b : Term) :
    (cmp op a b).eval ν = (do Meaning.cmp op (← a.eval ν) (← b.eval ν)) := rfl

theorem eval_conj (ts : List Term) :
    (conj ts).eval ν = (do return .bool ((← evalAll ν ts).all id)) := rfl

theorem eval_disj (ts : List Term) :
    (disj ts).eval ν = (do return .bool ((← evalAll ν ts).any id)) := rfl

theorem eval_not (a : Term) : (not a).eval ν = (do (← a.eval ν).negate) := rfl

theorem evalAll_nil : evalAll ν [] = some [] := rfl

theorem evalAll_cons (t : Term) (ts : List Term) :
    evalAll ν (t :: ts) = (do return (← (← t.eval ν).asBool?) :: (← evalAll ν ts)) := rfl

theorem eval_not_iff (a : Term) (b : Bool) :
    (not a).eval ν = some (.bool b) ↔ a.eval ν = some (.bool (!b)) := by
  rw [eval_not]
  -- There may be no meaning, an integer or a truth value. Only the last one can be negated.
  rcases a.eval ν with _ | ⟨n⟩ | ⟨c⟩
  · exact ⟨nofun, nofun⟩
  · exact ⟨nofun, nofun⟩
  · cases b <;> cases c <;> decide

theorem eval_cmp_var_left (op : Comparison) (x : String) (n : Int64) (b : Bool) :
    (cmp op (var x) (int n)).eval ν = some (.bool b)
      ↔ ∃ m, ν x = .int m ∧ op.holds m n.toInt = b := by
  simp only [eval_cmp, eval_var, eval_int, Option.bind_eq_bind, Option.bind_some]
  -- A truth value cannot be compared to an integer, so nothing is said about such a name.
  rcases ν x with m | c
  · simp only [Meaning.cmp, Option.some.injEq, Meaning.bool.injEq, Meaning.int.injEq,
      exists_eq_left']
  · exact ⟨nofun, nofun⟩

theorem eval_cmp_var_right (op : Comparison) (x : String) (n : Int64) (b : Bool) :
    (cmp op (int n) (var x)).eval ν = some (.bool b)
      ↔ ∃ m, ν x = .int m ∧ op.holds n.toInt m = b := by
  simp only [eval_cmp, eval_var, eval_int, Option.bind_eq_bind, Option.bind_some]
  rcases ν x with m | c
  · simp only [Meaning.cmp, Option.some.injEq, Meaning.bool.injEq, Meaning.int.injEq,
      exists_eq_left']
  · exact ⟨nofun, nofun⟩

/-- All formulas of a list have one truth value. -/
theorem evalAll_iff (ts : List Term) (b : Bool) :
    (∃ bs, evalAll ν ts = some bs ∧ ∀ c ∈ bs, c = b)
      ↔ ∀ t ∈ ts, t.eval ν = some (.bool b) := by
  -- Along the list. To have truth values at all and to have the right ones are shown together.
  induction ts with
  | nil => exact ⟨fun _ => nofun, fun _ => ⟨[], rfl, nofun⟩⟩
  | cons t ts ih =>
      rw [List.forall_mem_cons, ← ih, evalAll_cons]
      constructor
      · rintro ⟨bs, hbs, hall⟩
        rcases Option.bind_eq_some_iff.mp hbs with ⟨m, hm, hbs⟩
        rcases Option.bind_eq_some_iff.mp hbs with ⟨c, hc, hbs⟩
        rcases Option.bind_eq_some_iff.mp hbs with ⟨cs, hcs, hbs⟩
        cases hbs
        -- An operand that is an integer leaves the list without a meaning.
        rcases m with n | c'
        · cases hc
        · cases hc
          rw [List.forall_mem_cons] at hall
          exact ⟨by rw [hm, hall.1], cs, hcs, hall.2⟩
      · rintro ⟨ht, bs, hbs, hall⟩
        refine ⟨b :: bs, ?_, List.forall_mem_cons.mpr ⟨rfl, hall⟩⟩
        rw [ht, hbs]
        rfl

/-- A conjunction is true exactly if all its operands are. -/
theorem eval_conj_iff (ts : List Term) :
    (conj ts).eval ν = some (.bool true) ↔ ∀ t ∈ ts, t.eval ν = some (.bool true) := by
  rw [eval_conj, ← evalAll_iff]
  constructor
  · intro h
    rcases Option.bind_eq_some_iff.mp h with ⟨bs, hbs, hall⟩
    refine ⟨bs, hbs, List.all_eq_true.mp ?_⟩
    exact Meaning.bool.inj (Option.some.inj hall)
  · rintro ⟨bs, hbs, hall⟩
    have hconj : bs.all id = true := List.all_eq_true.mpr hall
    rw [hbs, Option.bind_eq_bind, Option.bind_some, hconj]
    rfl

/-- A disjunction is false exactly if all its operands are. -/
theorem eval_disj_iff (ts : List Term) :
    (disj ts).eval ν = some (.bool false) ↔ ∀ t ∈ ts, t.eval ν = some (.bool false) := by
  rw [eval_disj, ← evalAll_iff]
  constructor
  · intro h
    rcases Option.bind_eq_some_iff.mp h with ⟨bs, hbs, hany⟩
    have hnone := List.any_eq_false.mp (Meaning.bool.inj (Option.some.inj hany))
    exact ⟨bs, hbs, fun c hc => Bool.eq_false_iff.mpr (hnone c hc)⟩
  · rintro ⟨bs, hbs, hall⟩
    have hdisj : bs.any id = false :=
      List.any_eq_false.mpr fun c hc => Bool.eq_false_iff.mp (hall c hc)
    rw [hbs, Option.bind_eq_bind, Option.bind_some, hdisj]
    rfl

theorem eval_conj_single (a : Term) (b : Bool) :
    (conj [a]).eval ν = some (.bool b) ↔ a.eval ν = some (.bool b) := by
  rw [eval_conj, evalAll_cons, evalAll_nil]
  -- A connective of one operand is true if the operand is, but it has to be a truth value.
  rcases a.eval ν with _ | ⟨n⟩ | ⟨c⟩
  · exact ⟨nofun, nofun⟩
  · exact ⟨nofun, nofun⟩
  · cases b <;> cases c <;> decide

theorem eval_disj_single (a : Term) (b : Bool) :
    (disj [a]).eval ν = some (.bool b) ↔ a.eval ν = some (.bool b) := by
  rw [eval_disj, evalAll_cons, evalAll_nil]
  rcases a.eval ν with _ | ⟨n⟩ | ⟨c⟩
  · exact ⟨nofun, nofun⟩
  · exact ⟨nofun, nofun⟩
  · cases b <;> cases c <;> decide

end Connectives

section Names

@[simp] theorem mem_vars_var (x y : String) : x ∈ (var y).vars ↔ x = y := by
  change x ∈ ({y} : Std.ExtTreeSet String) ↔ x = y
  rw [Std.ExtTreeSet.singleton_eq_insert, Std.ExtTreeSet.mem_insert,
    Std.LawfulEqCmp.compare_eq_iff_eq, or_iff_left Std.ExtTreeSet.not_mem_empty, eq_comm]

@[simp] theorem mem_vars_int (x : String) (n : Int64) : x ∈ (int n).vars ↔ False :=
  iff_of_false Std.ExtTreeSet.not_mem_empty not_false

@[simp] theorem mem_vars_arith (x : String) (op : ArithOp) (a b : Term) :
    x ∈ (arith op a b).vars ↔ x ∈ a.vars ∨ x ∈ b.vars :=
  Std.ExtTreeSet.mem_union_iff

@[simp] theorem mem_vars_cmp (x : String) (op : Comparison) (a b : Term) :
    x ∈ (cmp op a b).vars ↔ x ∈ a.vars ∨ x ∈ b.vars :=
  Std.ExtTreeSet.mem_union_iff

@[simp] theorem mem_vars_conj (x : String) (ts : List Term) :
    x ∈ (conj ts).vars ↔ x ∈ varsAll ts :=
  Iff.rfl

@[simp] theorem mem_vars_disj (x : String) (ts : List Term) :
    x ∈ (disj ts).vars ↔ x ∈ varsAll ts :=
  Iff.rfl

@[simp] theorem mem_vars_not (x : String) (a : Term) : x ∈ (not a).vars ↔ x ∈ a.vars :=
  Iff.rfl

@[simp] theorem mem_vars_implies (x : String) (a b : Term) :
    x ∈ (implies a b).vars ↔ x ∈ a.vars ∨ x ∈ b.vars :=
  Std.ExtTreeSet.mem_union_iff

@[simp] theorem mem_vars_ite (x : String) (c a b : Term) :
    x ∈ (ite c a b).vars ↔ x ∈ c.vars ∨ x ∈ a.vars ∨ x ∈ b.vars := by
  change x ∈ c.vars ∪ a.vars ∪ b.vars ↔ _
  rw [Std.ExtTreeSet.mem_union_iff, Std.ExtTreeSet.mem_union_iff, or_assoc]

@[simp] theorem mem_varsAll (x : String) (ts : List Term) :
    x ∈ varsAll ts ↔ ∃ t ∈ ts, x ∈ t.vars := by
  induction ts with
  | nil => exact iff_of_false Std.ExtTreeSet.not_mem_empty nofun
  | cons t ts ih =>
      change x ∈ t.vars ∪ varsAll ts ↔ _
      rw [Std.ExtTreeSet.mem_union_iff, ih]
      simp only [List.mem_cons, exists_eq_or_imp]

end Names

section Substitution

variable {ε : Type} (f : String → Except ε String) (ν μ : Valuation)

mutual

/-- What a term stands for after its names were replaced: each new name has to
    mean under `ν` what the old one means under `μ`. -/
theorem eval_of_traverse (t u : Term) (h : t.traverse f = .ok u)
    (hnames : ∀ x ∈ t.vars, ∀ y, f x = .ok y → ν y = μ x) : u.eval ν = t.eval μ := by
  -- The names are replaced part by part, in the order of evaluation. All names of a part are names
  -- of the whole, so the assumption about them is handed down.
  cases t with
  | var x =>
      rcases (except_single_ok _ _ _).mp h with ⟨y, hy, rfl⟩
      rw [eval, eval, hnames x ((mem_vars_var x x).mpr rfl) y hy]
  | int n =>
      cases (except_pure_ok _ _).mp h
      rfl
  | bool b =>
      cases (except_pure_ok _ _).mp h
      rfl
  | arith op a b =>
      rw [traverse] at h
      rcases (except_pair_ok _ _ _ _).mp h with ⟨a', b', ha, hb, rfl⟩
      simp only [mem_vars_arith] at hnames
      rw [eval, eval, eval_of_traverse a a' ha fun x hx => hnames x (Or.inl hx),
        eval_of_traverse b b' hb fun x hx => hnames x (Or.inr hx)]
  | cmp op a b =>
      rw [traverse] at h
      rcases (except_pair_ok _ _ _ _).mp h with ⟨a', b', ha, hb, rfl⟩
      simp only [mem_vars_cmp] at hnames
      rw [eval, eval, eval_of_traverse a a' ha fun x hx => hnames x (Or.inl hx),
        eval_of_traverse b b' hb fun x hx => hnames x (Or.inr hx)]
  | conj ts =>
      rw [traverse] at h
      rcases (except_single_ok _ _ _).mp h with ⟨us, hus, rfl⟩
      simp only [mem_vars_conj] at hnames
      rw [eval, eval, evalAll_of_traverseAll ts us hus hnames]
  | disj ts =>
      rw [traverse] at h
      rcases (except_single_ok _ _ _).mp h with ⟨us, hus, rfl⟩
      simp only [mem_vars_disj] at hnames
      rw [eval, eval, evalAll_of_traverseAll ts us hus hnames]
  | not a =>
      rw [traverse] at h
      rcases (except_single_ok _ _ _).mp h with ⟨a', ha, rfl⟩
      simp only [mem_vars_not] at hnames
      rw [eval, eval, eval_of_traverse a a' ha hnames]
  | implies a b =>
      rw [traverse] at h
      rcases (except_pair_ok _ _ _ _).mp h with ⟨a', b', ha, hb, rfl⟩
      simp only [mem_vars_implies] at hnames
      rw [eval, eval, eval_of_traverse a a' ha fun x hx => hnames x (Or.inl hx),
        eval_of_traverse b b' hb fun x hx => hnames x (Or.inr hx)]
  | ite c a b =>
      rw [traverse] at h
      rcases (except_bind_ok _ _ _).mp h with ⟨c', hc, h⟩
      rcases (except_pair_ok _ _ _ _).mp h with ⟨a', b', ha, hb, rfl⟩
      simp only [mem_vars_ite] at hnames
      rw [eval, eval, eval_of_traverse c c' hc fun x hx => hnames x (Or.inl hx),
        eval_of_traverse a a' ha fun x hx => hnames x (Or.inr (Or.inl hx)),
        eval_of_traverse b b' hb fun x hx => hnames x (Or.inr (Or.inr hx))]

theorem evalAll_of_traverseAll (ts us : List Term) (h : traverseAll f ts = .ok us)
    (hnames : ∀ x ∈ varsAll ts, ∀ y, f x = .ok y → ν y = μ x) : evalAll ν us = evalAll μ ts := by
  cases ts with
  | nil =>
      cases (except_pure_ok _ _).mp h
      rfl
  | cons t ts =>
      rw [traverseAll] at h
      rcases (except_pair_ok _ _ _ _).mp h with ⟨u, us, hu, hus, rfl⟩
      -- The names of a list are those of its head and its tail.
      simp only [varsAll, Std.ExtTreeSet.mem_union_iff] at hnames
      rw [evalAll, evalAll, eval_of_traverse t u hu fun x hx => hnames x (Or.inl hx),
        evalAll_of_traverseAll ts us hus fun x hx => hnames x (Or.inr hx)]

end

mutual

/-- A replacement that changes no name of a term leaves it as it is. -/
theorem traverse_of_fixed (t : Term) (hfixed : ∀ x ∈ t.vars, f x = .ok x) :
    t.traverse f = .ok t := by
  -- The same recursion as before, but this time the replacement is known to succeed.
  cases t with
  | var x =>
      rw [traverse, hfixed x ((mem_vars_var x x).mpr rfl)]
      rfl
  | int n => rfl
  | bool b => rfl
  | arith op a b =>
      simp only [mem_vars_arith] at hfixed
      rw [traverse, traverse_of_fixed a fun x hx => hfixed x (Or.inl hx),
        traverse_of_fixed b fun x hx => hfixed x (Or.inr hx)]
      rfl
  | cmp op a b =>
      simp only [mem_vars_cmp] at hfixed
      rw [traverse, traverse_of_fixed a fun x hx => hfixed x (Or.inl hx),
        traverse_of_fixed b fun x hx => hfixed x (Or.inr hx)]
      rfl
  | conj ts =>
      simp only [mem_vars_conj] at hfixed
      rw [traverse, traverseAll_of_fixed ts hfixed]
      rfl
  | disj ts =>
      simp only [mem_vars_disj] at hfixed
      rw [traverse, traverseAll_of_fixed ts hfixed]
      rfl
  | not a =>
      simp only [mem_vars_not] at hfixed
      rw [traverse, traverse_of_fixed a hfixed]
      rfl
  | implies a b =>
      simp only [mem_vars_implies] at hfixed
      rw [traverse, traverse_of_fixed a fun x hx => hfixed x (Or.inl hx),
        traverse_of_fixed b fun x hx => hfixed x (Or.inr hx)]
      rfl
  | ite c a b =>
      simp only [mem_vars_ite] at hfixed
      rw [traverse, traverse_of_fixed c fun x hx => hfixed x (Or.inl hx),
        traverse_of_fixed a fun x hx => hfixed x (Or.inr (Or.inl hx)),
        traverse_of_fixed b fun x hx => hfixed x (Or.inr (Or.inr hx))]
      rfl

theorem traverseAll_of_fixed (ts : List Term) (hfixed : ∀ x ∈ varsAll ts, f x = .ok x) :
    traverseAll f ts = .ok ts := by
  cases ts with
  | nil => rfl
  | cons t ts =>
      simp only [varsAll, Std.ExtTreeSet.mem_union_iff] at hfixed
      rw [traverseAll, traverse_of_fixed t fun x hx => hfixed x (Or.inl hx),
        traverseAll_of_fixed ts fun x hx => hfixed x (Or.inr hx)]
      rfl

end

end Substitution

/-- Only the names that occur in a term matter. -/
theorem eval_congr (ν μ : Valuation) (t : Term) (h : ∀ x ∈ t.vars, ν x = μ x) :
    t.eval ν = t.eval μ := by
  -- The replacement that changes nothing, read as one between two valuations.
  refine eval_of_traverse (fun x => (.ok x : Except Unit String)) ν μ t t ?_ ?_
  · exact traverse_of_fixed _ t fun x _ => rfl
  · intro x hx y hy
    cases hy
    exact h x hx

end Term

end ActorCheck
