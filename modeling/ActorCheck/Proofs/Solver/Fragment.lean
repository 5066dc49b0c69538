import ActorCheck.Proofs.Solver.Emptiness
import ActorCheck.Proofs.Term.Meaning

/-!
# What the Literals of a Formula Say

The literals of a formula under a polarity are to hold exactly if the formula has
that truth value, so a negation changes the polarity and nothing else. They also
have to mention the variables of the formula in the same roles: as formulas, or as
sides of comparisons. No part of a formula is dropped, not even beside a part that
is `false`, so a variable with two roles has literals of both kinds.

`Represents` is all of this, and each connective preserves it. Where the polarity
makes a connective a choice, it is accepted with fewer than two operands only: one
operand decides alone, and without operands the literal `false` says that the
connective cannot have this truth value.

## Main definitions

* `Term.AsFormula`: A variable stands where a formula is expected.
* `Term.Compared`: A variable stands in a comparison.
* `Literal.Holds`: A literal is true.
* `Represents`: Literals say what a formula says.

## Theorems

* `literalsOf_represents`: The literals of a formula say what it says.
* `role_of_literalsOf`: Every variable of a formula of the fragment has a role.
-/

namespace ActorCheck

/-- A variable stands where a formula is expected. -/
inductive Term.AsFormula (x : String) : Term → Prop where
  | var : AsFormula x (.var x)
  | conj (ts : List Term) (t : Term) : t ∈ ts → AsFormula x t → AsFormula x (.conj ts)
  | disj (ts : List Term) (t : Term) : t ∈ ts → AsFormula x t → AsFormula x (.disj ts)
  | not (a : Term) : AsFormula x a → AsFormula x (.not a)
  | premise (a b : Term) : AsFormula x a → AsFormula x (.implies a b)
  | conclusion (a b : Term) : AsFormula x b → AsFormula x (.implies a b)
  | condition (c a b : Term) : AsFormula x c → AsFormula x (.ite c a b)
  | thenBranch (c a b : Term) : AsFormula x a → AsFormula x (.ite c a b)
  | elseBranch (c a b : Term) : AsFormula x b → AsFormula x (.ite c a b)

/-- A variable stands in a comparison. -/
inductive Term.Compared (x : String) : Term → Prop where
  | left (op : Comparison) (a b : Term) : x ∈ a.vars → Compared x (.cmp op a b)
  | right (op : Comparison) (a b : Term) : x ∈ b.vars → Compared x (.cmp op a b)
  | conj (ts : List Term) (t : Term) : t ∈ ts → Compared x t → Compared x (.conj ts)
  | disj (ts : List Term) (t : Term) : t ∈ ts → Compared x t → Compared x (.disj ts)
  | not (a : Term) : Compared x a → Compared x (.not a)
  | premise (a b : Term) : Compared x a → Compared x (.implies a b)
  | conclusion (a b : Term) : Compared x b → Compared x (.implies a b)
  | condition (c a b : Term) : Compared x c → Compared x (.ite c a b)
  | thenBranch (c a b : Term) : Compared x a → Compared x (.ite c a b)
  | elseBranch (c a b : Term) : Compared x b → Compared x (.ite c a b)

namespace Term

variable (x : String)

theorem asFormula_conj_iff (ts : List Term) :
    (conj ts).AsFormula x ↔ ∃ t ∈ ts, t.AsFormula x :=
  ⟨fun | .conj _ t ht h => ⟨t, ht, h⟩, fun ⟨t, ht, h⟩ => .conj ts t ht h⟩

theorem asFormula_disj_iff (ts : List Term) :
    (disj ts).AsFormula x ↔ ∃ t ∈ ts, t.AsFormula x :=
  ⟨fun | .disj _ t ht h => ⟨t, ht, h⟩, fun ⟨t, ht, h⟩ => .disj ts t ht h⟩

theorem asFormula_not_iff (a : Term) : (not a).AsFormula x ↔ a.AsFormula x :=
  ⟨fun | .not _ h => h, .not a⟩

theorem compared_conj_iff (ts : List Term) : (conj ts).Compared x ↔ ∃ t ∈ ts, t.Compared x :=
  ⟨fun | .conj _ t ht h => ⟨t, ht, h⟩, fun ⟨t, ht, h⟩ => .conj ts t ht h⟩

theorem compared_disj_iff (ts : List Term) : (disj ts).Compared x ↔ ∃ t ∈ ts, t.Compared x :=
  ⟨fun | .disj _ t ht h => ⟨t, ht, h⟩, fun ⟨t, ht, h⟩ => .disj ts t ht h⟩

theorem compared_not_iff (a : Term) : (not a).Compared x ↔ a.Compared x :=
  ⟨fun | .not _ h => h, .not a⟩

theorem compared_cmp_iff (op : Comparison) (a b : Term) :
    (cmp op a b).Compared x ↔ x ∈ a.vars ∨ x ∈ b.vars := by
  constructor
  · intro h
    cases h with
    | left _ _ _ hx => exact Or.inl hx
    | right _ _ _ hx => exact Or.inr hx
  · rintro (hx | hx)
    · exact .left op a b hx
    · exact .right op a b hx

theorem mem_vars_of_asFormula (t : Term) (h : t.AsFormula x) : x ∈ t.vars := by
  induction h with
  | var => exact (mem_vars_var x x).mpr rfl
  | conj ts t ht _ ih => exact (mem_varsAll x ts).mpr ⟨t, ht, ih⟩
  | disj ts t ht _ ih => exact (mem_varsAll x ts).mpr ⟨t, ht, ih⟩
  | not a _ ih => exact ih
  | premise a b _ ih => exact (mem_vars_implies x a b).mpr (Or.inl ih)
  | conclusion a b _ ih => exact (mem_vars_implies x a b).mpr (Or.inr ih)
  | condition c a b _ ih => exact (mem_vars_ite x c a b).mpr (Or.inl ih)
  | thenBranch c a b _ ih => exact (mem_vars_ite x c a b).mpr (Or.inr (Or.inl ih))
  | elseBranch c a b _ ih => exact (mem_vars_ite x c a b).mpr (Or.inr (Or.inr ih))

theorem mem_vars_of_compared (t : Term) (h : t.Compared x) : x ∈ t.vars := by
  induction h with
  | left op a b hx => exact (mem_vars_cmp x op a b).mpr (Or.inl hx)
  | right op a b hx => exact (mem_vars_cmp x op a b).mpr (Or.inr hx)
  | conj ts t ht _ ih => exact (mem_varsAll x ts).mpr ⟨t, ht, ih⟩
  | disj ts t ht _ ih => exact (mem_varsAll x ts).mpr ⟨t, ht, ih⟩
  | not a _ ih => exact ih
  | premise a b _ ih => exact (mem_vars_implies x a b).mpr (Or.inl ih)
  | conclusion a b _ ih => exact (mem_vars_implies x a b).mpr (Or.inr ih)
  | condition c a b _ ih => exact (mem_vars_ite x c a b).mpr (Or.inl ih)
  | thenBranch c a b _ ih => exact (mem_vars_ite x c a b).mpr (Or.inr (Or.inl ih))
  | elseBranch c a b _ ih => exact (mem_vars_ite x c a b).mpr (Or.inr (Or.inr ih))

end Term

/-- A literal is true under a valuation. -/
def Literal.Holds (ν : Valuation) : Literal → Prop
  | .bound x rel n => ∃ m, ν x = .int m ∧ rel.Holds m n.toInt
  | .truth x b => ν x = .bool b
  | .const b => b = true

namespace BoundRel

theorem holds_negate (rel : BoundRel) (m n : Int) : rel.negate.Holds m n ↔ ¬ rel.Holds m n := by
  cases rel <;> simp only [negate, Holds] <;> omega

theorem holds_converse (rel : BoundRel) (m n : Int) : rel.converse.Holds m n ↔ rel.Holds n m := by
  cases rel <;> simp only [converse, Holds] <;> omega

theorem holds_ofComparison (op : Comparison) (m n : Int) :
    (ofComparison op).Holds m n ↔ op.holds m n = true := by
  cases op <;> simp only [ofComparison, Holds, Comparison.holds, beq_iff_eq, decide_eq_true_eq]

/-- A relation under a polarity holds exactly if the comparison has that truth value. -/
theorem holds_oriented (positive : Bool) (rel : BoundRel) (m n : Int) (b : Bool)
    (hrel : rel.Holds m n ↔ b = true) :
    (if positive then rel else rel.negate).Holds m n ↔ b = positive := by
  -- Under the other polarity the relation is negated, and so is the truth value.
  cases positive with
  | true => exact hrel
  | false =>
      rw [if_neg Bool.false_ne_true, holds_negate, hrel, Bool.not_eq_true]

end BoundRel

/-- The shapes of a comparison that is a literal. -/
theorem Literal.ofComparison?_cases (positive : Bool) (op : Comparison) (a b : Term) (l : Literal)
    (h : ofComparison? positive op a b = some l) :
    (∃ x n, a = .var x ∧ b = .int n
        ∧ l = .bound x (if positive then .ofComparison op else (BoundRel.ofComparison op).negate) n)
      ∨ ∃ x n, a = .int n ∧ b = .var x
        ∧ l = .bound x (if positive then (BoundRel.ofComparison op).converse
          else (BoundRel.ofComparison op).converse.negate) n := by
  unfold ofComparison? at h
  -- The polarity is kept out of the way while the sides are told apart.
  extract_lets oriented at h
  split at h
  next x n =>
    cases h
    exact Or.inl ⟨x, n, rfl, rfl, rfl⟩
  next n x =>
    cases h
    exact Or.inr ⟨x, n, rfl, rfl, rfl⟩
  next => cases h

/-- Literals say what formulas say that are to have one truth value. -/
structure Represents (positive : Bool) (ts : List Term) (ls : List Literal) : Prop where
  holds : ∀ ν : Valuation, (∀ t ∈ ts, t.eval ν = some (.bool positive)) ↔ ∀ l ∈ ls, l.Holds ν
  asFormula : ∀ x, (∃ t ∈ ts, t.AsFormula x) ↔ ∃ b, .truth x b ∈ ls
  compared : ∀ x, (∃ t ∈ ts, t.Compared x) ↔ ∃ rel n, .bound x rel n ∈ ls

namespace Represents

variable (positive : Bool)

theorem nil : Represents positive [] [] := by
  refine ⟨fun ν => ⟨nofun, nofun⟩, fun x => ⟨nofun, nofun⟩, fun x => ⟨nofun, nofun⟩⟩

theorem cons (t : Term) (ts : List Term) (ls ks : List Literal)
    (ht : Represents positive [t] ls) (hts : Represents positive ts ks) :
    Represents positive (t :: ts) (ls ++ ks) := by
  -- Literals of both lists have to hold, and a variable has a role if it has one in either list.
  refine ⟨fun ν => ?_, fun x => ?_, fun x => ?_⟩
  · rw [List.forall_mem_append, ← ht.holds, ← hts.holds, List.forall_mem_cons,
      List.forall_mem_singleton]
  · simp only [List.mem_append, exists_or, ← ht.asFormula, ← hts.asFormula, List.mem_cons,
      exists_eq_or_imp, exists_eq_left, List.not_mem_nil, or_false]
  · simp only [List.mem_append, exists_or, ← ht.compared, ← hts.compared, List.mem_cons,
      exists_eq_or_imp, exists_eq_left, List.not_mem_nil, or_false]

/-- A formula that is decided by its parts and has no variables of its own. -/
theorem of_parts (positive' : Bool) (t : Term) (ts : List Term) (ls : List Literal)
    (h : Represents positive ts ls)
    (heval : ∀ ν, t.eval ν = some (.bool positive')
      ↔ ∀ u ∈ ts, u.eval ν = some (.bool positive))
    (hformula : ∀ x, t.AsFormula x ↔ ∃ u ∈ ts, u.AsFormula x)
    (hcompared : ∀ x, t.Compared x ↔ ∃ u ∈ ts, u.Compared x) : Represents positive' [t] ls := by
  -- One formula stands for the list of its parts in each of the three respects.
  refine ⟨fun ν => ?_, fun x => ?_, fun x => ?_⟩
  · rw [List.forall_mem_singleton, heval, h.holds]
  · rw [← h.asFormula, ← hformula]
    simp only [List.mem_singleton, exists_eq_left]
  · rw [← h.compared, ← hcompared]
    simp only [List.mem_singleton, exists_eq_left]

theorem const (b : Bool) : Represents positive [.bool b] [.const (b == positive)] := by
  refine ⟨fun ν => ?_, fun x => ?_, fun x => ?_⟩
  · rw [List.forall_mem_singleton, List.forall_mem_singleton, Literal.Holds, Term.eval_bool,
      beq_iff_eq, Option.some.injEq, Meaning.bool.injEq]
  · simp only [List.mem_singleton, exists_eq_left]
    exact ⟨nofun, nofun⟩
  · simp only [List.mem_singleton, exists_eq_left]
    exact ⟨nofun, nofun⟩

theorem var (x : String) : Represents positive [.var x] [.truth x positive] := by
  refine ⟨fun ν => ?_, fun y => ?_, fun y => ?_⟩
  · rw [List.forall_mem_singleton, List.forall_mem_singleton, Literal.Holds, Term.eval_var,
      Option.some.injEq]
  · simp only [List.mem_singleton, exists_eq_left]
    constructor
    · rintro ⟨⟩
      exact ⟨positive, rfl⟩
    · rintro ⟨b, hb⟩
      cases hb
      exact .var
  · simp only [List.mem_singleton, exists_eq_left]
    exact ⟨nofun, nofun⟩

/-- A formula that never has this truth value and has no variables. -/
theorem absurdity (t : Term) (heval : ∀ ν, t.eval ν ≠ some (.bool positive))
    (hformula : ∀ x, ¬ t.AsFormula x) (hcompared : ∀ x, ¬ t.Compared x) :
    Represents positive [t] [.const false] := by
  refine ⟨fun ν => ?_, fun x => ?_, fun x => ?_⟩
  · rw [List.forall_mem_singleton, List.forall_mem_singleton]
    exact ⟨fun h => absurd h (heval ν), nofun⟩
  · simp only [List.mem_singleton, exists_eq_left]
    exact ⟨fun h => absurd h (hformula x), nofun⟩
  · simp only [List.mem_singleton, exists_eq_left]
    exact ⟨fun h => absurd h (hcompared x), nofun⟩

/-- A comparison of one variable with a literal, on whichever side they are. -/
theorem bound (op : Comparison) (a b : Term) (x : String) (rel : BoundRel) (n : Int64)
    (heval : ∀ ν, (Term.cmp op a b).eval ν = some (.bool positive)
      ↔ ∃ m, ν x = .int m ∧ rel.Holds m n.toInt)
    (hvars : ∀ y, y ∈ a.vars ∨ y ∈ b.vars ↔ y = x) :
    Represents positive [.cmp op a b] [.bound x rel n] := by
  refine ⟨fun ν => ?_, fun y => ?_, fun y => ?_⟩
  · rw [List.forall_mem_singleton, List.forall_mem_singleton, heval, Literal.Holds]
  · simp only [List.mem_singleton, exists_eq_left]
    exact ⟨nofun, nofun⟩
  · simp only [List.mem_singleton, exists_eq_left, Term.compared_cmp_iff, hvars]
    constructor
    · rintro rfl
      exact ⟨rel, n, rfl⟩
    · rintro ⟨_, _, h⟩
      cases h
      rfl

theorem comparison (op : Comparison) (a b : Term) (l : Literal)
    (h : Literal.ofComparison? positive op a b = some l) :
    Represents positive [.cmp op a b] [l] := by
  rcases Literal.ofComparison?_cases positive op a b l h with
    ⟨x, n, rfl, rfl, rfl⟩ | ⟨x, n, rfl, rfl, rfl⟩
  · refine bound positive op _ _ x _ n (fun ν => ?_) (fun y => ?_)
    · rw [Term.eval_cmp_var_left]
      refine exists_congr fun m => and_congr_right fun _ => ?_
      exact (BoundRel.holds_oriented positive _ _ _ _ (BoundRel.holds_ofComparison op _ _)).symm
    · rw [Term.mem_vars_var, Term.mem_vars_int, or_false]
  · refine bound positive op _ _ x _ n (fun ν => ?_) (fun y => ?_)
    · rw [Term.eval_cmp_var_right]
      refine exists_congr fun m => and_congr_right fun _ => ?_
      refine (BoundRel.holds_oriented positive _ _ _ _ ?_).symm
      rw [BoundRel.holds_converse, BoundRel.holds_ofComparison]
    · rw [Term.mem_vars_var, Term.mem_vars_int, false_or]

theorem not (a : Term) (ls : List Literal) (h : Represents (!positive) [a] ls) :
    Represents positive [.not a] ls := by
  -- The polarity of the operand is the other one. The variables keep their roles.
  refine of_parts _ _ _ [a] ls h (fun ν => ?_) (fun x => ?_) (fun x => ?_)
  · rw [List.forall_mem_singleton, Term.eval_not_iff]
  · simp only [List.mem_singleton, exists_eq_left, Term.asFormula_not_iff]
  · simp only [List.mem_singleton, exists_eq_left, Term.compared_not_iff]

theorem conj (ts : List Term) (ls : List Literal) (h : Represents true ts ls) :
    Represents true [.conj ts] ls :=
  of_parts true true _ ts ls h (fun ν => Term.eval_conj_iff ν ts)
    (fun x => Term.asFormula_conj_iff x ts) (fun x => Term.compared_conj_iff x ts)

theorem disj (ts : List Term) (ls : List Literal) (h : Represents false ts ls) :
    Represents false [.disj ts] ls :=
  of_parts false false _ ts ls h (fun ν => Term.eval_disj_iff ν ts)
    (fun x => Term.asFormula_disj_iff x ts) (fun x => Term.compared_disj_iff x ts)

theorem conj_single (a : Term) (ls : List Literal) (h : Represents positive [a] ls) :
    Represents positive [.conj [a]] ls := by
  refine of_parts positive positive _ [a] ls h (fun ν => ?_)
    (fun x => Term.asFormula_conj_iff x [a]) (fun x => Term.compared_conj_iff x [a])
  rw [List.forall_mem_singleton, Term.eval_conj_single]

theorem disj_single (a : Term) (ls : List Literal) (h : Represents positive [a] ls) :
    Represents positive [.disj [a]] ls := by
  refine of_parts positive positive _ [a] ls h (fun ν => ?_)
    (fun x => Term.asFormula_disj_iff x [a]) (fun x => Term.compared_disj_iff x [a])
  rw [List.forall_mem_singleton, Term.eval_disj_single]

theorem conj_nil : Represents false [.conj []] [.const false] := by
  refine absurdity false _ (fun ν => ?_) (fun x => ?_) (fun x => ?_)
  · rw [Term.eval_conj, Term.evalAll_nil]
    exact nofun
  · rw [Term.asFormula_conj_iff]
    exact nofun
  · rw [Term.compared_conj_iff]
    exact nofun

theorem disj_nil : Represents true [.disj []] [.const false] := by
  refine absurdity true _ (fun ν => ?_) (fun x => ?_) (fun x => ?_)
  · rw [Term.eval_disj, Term.evalAll_nil]
    exact nofun
  · rw [Term.asFormula_disj_iff]
    exact nofun
  · rw [Term.compared_disj_iff]
    exact nofun

end Represents

mutual

/-- The literals of a formula under a polarity hold exactly if the formula has that truth
    value, and mention its variables in the same roles. -/
theorem literalsOf_represents (positive : Bool) (t : Term) (ls : List Literal)
    (h : literalsOf positive t = .ok ls) : Represents positive [t] ls := by
  -- The recursion is that of the translation itself. A case in which it refuses the formula is
  -- impossible.
  cases t with
  | var x =>
      cases h
      exact .var positive x
  | int n => cases h
  | bool b =>
      cases h
      exact .const positive b
  | arith op a b => cases h
  | cmp op a b =>
      rw [literalsOf] at h
      split at h
      next l hl =>
        cases h
        exact .comparison positive op a b l hl
      next => cases h
  | conj ts =>
      cases positive with
      | true => exact .conj ts ls (literalsOfAll_represents true ts ls h)
      | false =>
          -- A negated conjunction is a choice, unless it has fewer than two operands.
          rcases ts with _ | ⟨a, _ | ⟨b, ts⟩⟩
          · cases h
            exact .conj_nil
          · exact .conj_single false a ls (literalsOf_represents false a ls h)
          · cases h
  | disj ts =>
      cases positive with
      | true =>
          rcases ts with _ | ⟨a, _ | ⟨b, ts⟩⟩
          -- A disjunction is a choice here in the same way.
          · cases h
            exact .disj_nil
          · exact .disj_single true a ls (literalsOf_represents true a ls h)
          · cases h
      | false => exact .disj ts ls (literalsOfAll_represents false ts ls h)
  | not a => exact .not positive a ls (literalsOf_represents (!positive) a ls h)
  | implies a b => cases h
  | ite c a b => cases h

theorem literalsOfAll_represents (positive : Bool) (ts : List Term) (ls : List Literal)
    (h : literalsOfAll positive ts = .ok ls) : Represents positive ts ls := by
  cases ts with
  | nil =>
      cases h
      exact .nil positive
  | cons t ts =>
      rw [literalsOfAll] at h
      rcases (except_pair_ok _ _ _ _).mp h with ⟨ks, rest, hks, hrest, rfl⟩
      exact .cons positive t ts ks rest (literalsOf_represents positive t ks hks)
        (literalsOfAll_represents positive ts rest hrest)

end

mutual

/-- The variables of a formula of the fragment are those used as formulas and those in
    comparisons. -/
theorem role_of_literalsOf (positive : Bool) (t : Term) (ls : List Literal)
    (h : literalsOf positive t = .ok ls) (x : String) (hx : x ∈ t.vars) :
    t.AsFormula x ∨ t.Compared x := by
  -- A formula that was translated passes its role on to the parts, and the atoms decide it.
  cases t with
  | var y =>
      rw [Term.mem_vars_var] at hx
      rw [hx]
      exact Or.inl .var
  | int n => cases h
  | bool b => exact absurd hx Std.ExtTreeSet.not_mem_empty
  | arith op a b => cases h
  | cmp op a b =>
      rw [Term.mem_vars_cmp] at hx
      exact Or.inr ((Term.compared_cmp_iff x op a b).mpr hx)
  | conj ts =>
      rw [Term.mem_vars_conj, Term.mem_varsAll] at hx
      rw [Term.asFormula_conj_iff, Term.compared_conj_iff]
      cases positive with
      | true => exact role_of_literalsOfAll true ts ls h x hx
      | false =>
          rcases ts with _ | ⟨a, _ | ⟨b, ts⟩⟩
          · rcases hx with ⟨_, hmem, -⟩
            cases hmem
          · simp only [List.mem_singleton, exists_eq_left] at hx ⊢
            exact role_of_literalsOf false a ls h x hx
          · cases h
  | disj ts =>
      rw [Term.mem_vars_disj, Term.mem_varsAll] at hx
      rw [Term.asFormula_disj_iff, Term.compared_disj_iff]
      cases positive with
      | true =>
          rcases ts with _ | ⟨a, _ | ⟨b, ts⟩⟩
          · rcases hx with ⟨_, hmem, -⟩
            cases hmem
          · simp only [List.mem_singleton, exists_eq_left] at hx ⊢
            exact role_of_literalsOf true a ls h x hx
          · cases h
      | false => exact role_of_literalsOfAll false ts ls h x hx
  | not a =>
      rw [Term.mem_vars_not] at hx
      rw [Term.asFormula_not_iff, Term.compared_not_iff]
      exact role_of_literalsOf (!positive) a ls h x hx
  | implies a b => cases h
  | ite c a b => cases h

theorem role_of_literalsOfAll (positive : Bool) (ts : List Term) (ls : List Literal)
    (h : literalsOfAll positive ts = .ok ls) (x : String) (hx : ∃ t ∈ ts, x ∈ t.vars) :
    (∃ t ∈ ts, t.AsFormula x) ∨ ∃ t ∈ ts, t.Compared x := by
  cases ts with
  | nil =>
      rcases hx with ⟨_, hmem, -⟩
      cases hmem
  | cons t ts =>
      rw [literalsOfAll] at h
      rcases (except_pair_ok _ _ _ _).mp h with ⟨ks, rest, hks, hrest, -⟩
      simp only [List.mem_cons, exists_eq_or_imp] at hx ⊢
      -- The variable occurs in the first formula or in one of the others.
      rcases hx with hx | hx
      · rcases role_of_literalsOf positive t ks hks x hx with hrole | hrole
        · exact Or.inl (Or.inl hrole)
        · exact Or.inr (Or.inl hrole)
      · rcases role_of_literalsOfAll positive ts rest hrest x hx with hrole | hrole
        · exact Or.inl (Or.inr hrole)
        · exact Or.inr (Or.inr hrole)

end

theorem literalsOf_isOk_of_mem (positive : Bool) (ts : List Term) (ls : List Literal)
    (h : literalsOfAll positive ts = .ok ls) (t : Term) (ht : t ∈ ts) :
    ∃ ks, literalsOf positive t = .ok ks := by
  induction ts generalizing ls with
  | nil => cases ht
  | cons u ts ih =>
      rw [literalsOfAll] at h
      rcases (except_pair_ok _ _ _ _).mp h with ⟨ks, rest, hks, hrest, -⟩
      rcases List.mem_cons.mp ht with rfl | ht
      · exact ⟨ks, hks⟩
      · exact ih rest hrest ht

end ActorCheck
