import ActorCheck.Proofs.Solver.Fragment
import ActorCheck.Solver.Constraints
import Mathlib.Tactic.Choose

/-!
# What Constraints Admit

Constraints collect what literals say about each variable. A valuation that makes all
literals true gives every constrained variable a value that its constraint admits,
and there has been no conflict; and the other way round.

The constraints know two kinds of variables, those with bounds and those with a truth
value, and no variable is of both kinds: adding a literal that would make it so is an
error. That is all that can go wrong, so an error names a variable with literals of
both kinds.

Since a variable is constrained by itself only, constraints that each admit a value
admit a valuation, which is put together from these values.

## Main definitions

* `Constraints.Admits`: A valuation gives every variable a value that is admitted.
* `Constraints.Collects`: Constraints say what literals say.
* `Constraints.Added`: What adding a literal can do.

## Theorems

* `Constraints.admits_of_added`: Adding a literal keeps the valuations that make it true.
* `Constraints.collects_addAll`: Adding literals collects them.
* `Constraints.sortMismatch_of_addAll`: The only error, and when it occurs.
* `Constraints.addTerms_eq_addAll`: Adding formulas adds their literals.
* `Constraints.isSat_iff`: Constraints are satisfiable if they admit a valuation.
-/

namespace ActorCheck

namespace Constraints

/-- A valuation gives every variable a value that its constraint admits. -/
structure Admits (c : Constraints) (ν : Valuation) : Prop where
  bounded : ∀ x b, c.bounds[x]? = some b → ∃ n, ν x = .int n ∧ b.Admits n
  settled : ∀ x v, c.truths[x]? = some v → ν x = .bool v
  consistent : c.conflict = false

/-- Constraints say what literals say, each about one variable of one kind. -/
structure Collects (ls : List Literal) (c : Constraints) : Prop where
  admits : ∀ ν, c.Admits ν ↔ ∀ l ∈ ls, l.Holds ν
  compared : ∀ x, x ∈ c.bounds ↔ ∃ rel n, .bound x rel n ∈ ls
  asFormula : ∀ x, x ∈ c.truths ↔ ∃ b, .truth x b ∈ ls
  apart : ∀ x ∈ c.bounds, x ∉ c.truths

theorem collects_empty : Collects [] empty := by
  refine ⟨fun ν => ⟨fun _ => nofun, fun _ => ⟨?_, ?_, rfl⟩⟩, fun x => ?_, fun x => ?_, ?_⟩
  · intro x b h
    cases Std.ExtTreeMap.getElem?_empty.symm.trans h
  · intro x v h
    cases Std.ExtTreeMap.getElem?_empty.symm.trans h
  · exact ⟨fun h => absurd h Std.ExtTreeMap.not_mem_empty, nofun⟩
  · exact ⟨fun h => absurd h Std.ExtTreeMap.not_mem_empty, nofun⟩
  · exact fun x h => absurd h Std.ExtTreeMap.not_mem_empty

/-- What adding a literal can do to constraints. -/
inductive Added (c : Constraints) : Literal → Constraints → Prop where
  | nothing : Added c (.const true) c
  | absurdity : Added c (.const false) { c with conflict := true }
  | narrowed (x : String) (rel : BoundRel) (n : Int64) (integer : x ∉ c.truths) :
      Added c (.bound x rel n) { c with
        bounds := c.bounds.insert x ((c.bounds.getD x Bounds.full).restrict rel n.toInt) }
  | known (x : String) (v : Bool) (formula : x ∉ c.bounds) (same : c.truths[x]? = some v) :
      Added c (.truth x v) c
  | clash (x : String) (v w : Bool) (formula : x ∉ c.bounds) (other : c.truths[x]? = some w)
      (differs : w ≠ v) : Added c (.truth x v) { c with conflict := true }
  | settled (x : String) (v : Bool) (formula : x ∉ c.bounds) (new : c.truths[x]? = none) :
      Added c (.truth x v) { c with truths := c.truths.insert x v }

section Adding

variable (c c' : Constraints) (l : Literal) (ν : Valuation)

theorem added_of_add (h : c.add l = .ok c') : Added c l c' := by
  -- Each case follows the checks that adding a literal of this kind makes.
  cases l with
  | bound x rel n =>
      rw [add, addBound] at h
      split at h
      next => cases h
      next hx =>
        cases h
        exact .narrowed x rel n hx
  | truth x v =>
      rw [add, addTruth] at h
      split at h
      next => cases h
      next hx =>
        split at h
        next w hw =>
          cases h
          by_cases hwv : w = v
          · rw [if_pos hwv]
            exact .known x v hx (hwv ▸ hw)
          · rw [if_neg hwv]
            exact .clash x v w hx hw hwv
        next hnew =>
          cases h
          exact .settled x v hx hnew
  | const b =>
      cases b with
      | true =>
          cases h
          exact .nothing
      | false =>
          cases h
          exact .absurdity

theorem getElem?_insert_name {β : Type} (m : Std.ExtTreeMap String β) (x y : String) (v : β) :
    (m.insert x v)[y]? = if x = y then some v else m[y]? := by
  simp only [Std.ExtTreeMap.getElem?_insert, Std.LawfulEqCmp.compare_eq_iff_eq]

theorem mem_insert_name {β : Type} (m : Std.ExtTreeMap String β) (x y : String) (v : β) :
    y ∈ m.insert x v ↔ y ∈ m ∨ y = x := by
  rw [Std.ExtTreeMap.mem_insert, Std.LawfulEqCmp.compare_eq_iff_eq, or_comm, eq_comm]

theorem mem_of_getElem?_name {β : Type} (m : Std.ExtTreeMap String β) (x : String) (v : β)
    (h : m[x]? = some v) : x ∈ m := by
  rw [Std.ExtTreeMap.mem_iff_isSome_getElem?, h]
  rfl

theorem not_admits_conflict : ¬ Admits { c with conflict := true } ν := by
  rintro ⟨_, _, hconflict⟩
  cases hconflict

theorem admits_narrowed (x : String) (rel : BoundRel) (n : Int) :
    Admits { c with bounds := c.bounds.insert x ((c.bounds.getD x Bounds.full).restrict rel n) } ν
      ↔ c.Admits ν ∧ ∃ m, ν x = .int m ∧ rel.Holds m n := by
  constructor
  · rintro ⟨hbounded, hsettled, hconflict⟩
    rcases hbounded x _ Std.ExtTreeMap.getElem?_insert_self with ⟨m, hm, hadmits⟩
    rw [Bounds.admits_restrict] at hadmits
    -- The bounds of the variable itself were wider before, and those of others are the same.
    refine ⟨⟨fun y b hy => ?_, hsettled, hconflict⟩, m, hm, hadmits.2⟩
    by_cases hxy : x = y
    · rw [← hxy] at hy ⊢
      rw [Std.ExtTreeMap.getD_eq_getD_getElem?, hy] at hadmits
      exact ⟨m, hm, hadmits.1⟩
    · refine hbounded y b ?_
      rw [getElem?_insert_name, if_neg hxy]
      exact hy
  · rintro ⟨⟨hbounded, hsettled, hconflict⟩, m, hm, hrel⟩
    refine ⟨fun y b hy => ?_, hsettled, hconflict⟩
    rw [getElem?_insert_name] at hy
    by_cases hxy : x = y
    · rw [if_pos hxy] at hy
      cases hy
      rw [← hxy]
      refine ⟨m, hm, (Bounds.admits_restrict _ _ _ _).mpr ⟨?_, hrel⟩⟩
      -- A variable without bounds so far starts with all integers.
      rw [Std.ExtTreeMap.getD_eq_getD_getElem?]
      rcases hx : c.bounds[x]? with _ | b
      · exact Bounds.admits_full m
      · rcases hbounded x b hx with ⟨m', hm', hadmits⟩
        cases hm.symm.trans hm'
        exact hadmits
    · rw [if_neg hxy] at hy
      exact hbounded y b hy

theorem admits_settled (x : String) (v : Bool) (hnew : c.truths[x]? = none) :
    Admits { c with truths := c.truths.insert x v } ν ↔ c.Admits ν ∧ ν x = .bool v := by
  constructor
  · rintro ⟨hbounded, hsettled, hconflict⟩
    refine ⟨⟨hbounded, fun y w hy => hsettled y w ?_, hconflict⟩,
      hsettled x v Std.ExtTreeMap.getElem?_insert_self⟩
    -- The variable had no truth value before, so this is about another one.
    have hxy : x ≠ y := by
      rintro rfl
      cases hnew.symm.trans hy
    rw [getElem?_insert_name, if_neg hxy]
    exact hy
  · rintro ⟨⟨hbounded, hsettled, hconflict⟩, hx⟩
    refine ⟨hbounded, fun y w hy => ?_, hconflict⟩
    rw [getElem?_insert_name] at hy
    by_cases hxy : x = y
    · rw [if_pos hxy] at hy
      cases hy
      rw [← hxy]
      exact hx
    · rw [if_neg hxy] at hy
      exact hsettled y w hy

variable (h : Added c l c')

include h

/-- Adding a literal keeps the valuations that make it true. -/
theorem admits_of_added : c'.Admits ν ↔ c.Admits ν ∧ l.Holds ν := by
  cases h with
  | nothing => exact (and_iff_left rfl).symm
  | absurdity => exact iff_of_false (not_admits_conflict c ν) (fun hc => nomatch hc.2)
  | narrowed x rel n _ => exact admits_narrowed c ν x rel n.toInt
  | known x v _ hsame => exact ⟨fun hc => ⟨hc, hc.settled x v hsame⟩, And.left⟩
  | clash x v w _ hother hne =>
      refine iff_of_false (not_admits_conflict c ν) ?_
      rintro ⟨hc, hx⟩
      cases (hc.settled x w hother).symm.trans hx
      exact hne rfl
  | settled x v _ hnew => exact admits_settled c ν x v hnew

theorem mem_bounds_of_added (x : String) :
    x ∈ c'.bounds ↔ x ∈ c.bounds ∨ ∃ rel n, l = .bound x rel n := by
  cases h with
  | narrowed y rel n _ =>
      rw [mem_insert_name]
      refine or_congr_right ⟨fun hx => ⟨rel, n, by rw [hx]⟩, ?_⟩
      rintro ⟨_, _, hx⟩
      cases hx
      rfl
  | nothing | absurdity | known | clash | settled => exact (or_iff_left nofun).symm

theorem mem_truths_of_added (x : String) :
    x ∈ c'.truths ↔ x ∈ c.truths ∨ ∃ v, l = .truth x v := by
  cases h with
  | nothing | absurdity | narrowed => exact (or_iff_left nofun).symm
  | known y v _ hsame =>
      refine ⟨Or.inl, fun hx => hx.elim id ?_⟩
      rintro ⟨_, hx⟩
      cases hx
      exact mem_of_getElem?_name c.truths _ v hsame
  | clash y v w _ hother _ =>
      refine ⟨Or.inl, fun hx => hx.elim id ?_⟩
      rintro ⟨_, hx⟩
      cases hx
      exact mem_of_getElem?_name c.truths _ w hother
  | settled y v _ _ =>
      rw [mem_insert_name]
      refine or_congr_right ⟨fun hx => ⟨v, by rw [hx]⟩, ?_⟩
      rintro ⟨_, hx⟩
      cases hx
      rfl

theorem apart_of_added (hapart : ∀ x ∈ c.bounds, x ∉ c.truths) :
    ∀ x ∈ c'.bounds, x ∉ c'.truths := by
  intro x hbounds htruths
  rw [mem_bounds_of_added c c' l h] at hbounds
  -- Were a variable of both kinds now, the literal would have made it so, and adding is guarded
  -- against that.
  rw [mem_truths_of_added c c' l h] at htruths
  rcases hbounds with hbounds | ⟨rel, n, rfl⟩
  · rcases htruths with htruths | ⟨v, rfl⟩
    · exact hapart x hbounds htruths
    · cases h with
      | known _ _ hformula | clash _ _ _ hformula | settled _ _ hformula => exact hformula hbounds
  · rcases htruths with htruths | ⟨v, hv⟩
    · cases h with
      | narrowed _ _ _ hinteger => exact hinteger htruths
    · cases hv

end Adding

section Collecting

variable (ls : List Literal) (c : Constraints) (hc : Collects ls c)

include hc

theorem collects_add (c' : Constraints) (l : Literal) (h : c.add l = .ok c') :
    Collects (ls ++ [l]) c' := by
  have hadded := added_of_add c c' l h
  -- The literal is added to what the constraints say, and to one of the two kinds.
  refine ⟨fun ν => ?_, fun x => ?_, fun x => ?_, apart_of_added c c' l hadded hc.apart⟩
  · rw [admits_of_added c c' l ν hadded, hc.admits, List.forall_mem_append,
      List.forall_mem_singleton]
  · simp only [mem_bounds_of_added c c' l hadded, hc.compared, List.mem_append,
      List.mem_singleton, exists_or, eq_comm]
  · simp only [mem_truths_of_added c c' l hadded, hc.asFormula, List.mem_append,
      List.mem_singleton, exists_or, eq_comm]

/-- The only error of adding a literal is a variable that would get a second kind. -/
theorem sortMismatch_of_add (l : Literal) (e : IntervalError) (h : c.add l = .error e) :
    ∃ x, e = .sortMismatch x ∧ (∃ rel n, .bound x rel n ∈ ls ++ [l])
      ∧ ∃ v, .truth x v ∈ ls ++ [l] := by
  cases l with
  | bound x rel n =>
      rw [add, addBound] at h
      split at h
      next hx =>
        cases h
        -- The other kind of literal is among those that were collected before.
        rcases (hc.asFormula x).mp hx with ⟨v, hv⟩
        exact ⟨x, rfl, ⟨rel, n, List.mem_append_right _ List.mem_cons_self⟩, v,
          List.mem_append_left _ hv⟩
      next => cases h
  | truth x v =>
      rw [add, addTruth] at h
      split at h
      next hx =>
        cases h
        rcases (hc.compared x).mp hx with ⟨rel, n, hbound⟩
        exact ⟨x, rfl, ⟨rel, n, List.mem_append_left _ hbound⟩, v,
          List.mem_append_right _ List.mem_cons_self⟩
      next => split at h <;> cases h
  | const b => cases b <;> cases h

end Collecting

/-- Adding literals collects them. -/
theorem collects_addAll (ls ks : List Literal) (c c' : Constraints) (hc : Collects ls c)
    (h : c.addAll ks = .ok c') : Collects (ls ++ ks) c' := by
  induction ks generalizing ls c with
  | nil =>
      cases h
      rw [List.append_nil]
      exact hc
  | cons k ks ih =>
      rw [addAll] at h
      rcases (except_bind_ok _ _ _).mp h with ⟨c₁, hadd, h⟩
      -- The literal goes over to those that were collected, and the rest is added to that.
      rw [List.append_cons]
      exact ih (ls ++ [k]) c₁ (collects_add ls c hc c₁ k hadd) h

/-- The only error of adding literals is a variable with literals of both kinds. -/
theorem sortMismatch_of_addAll (ls ks : List Literal) (c : Constraints) (hc : Collects ls c)
    (e : IntervalError) (h : c.addAll ks = .error e) :
    ∃ x, e = .sortMismatch x ∧ (∃ rel n, .bound x rel n ∈ ls ++ ks)
      ∧ ∃ v, .truth x v ∈ ls ++ ks := by
  induction ks generalizing ls c with
  | nil => cases h
  | cons k ks ih =>
      rw [addAll] at h
      rw [List.append_cons]
      rcases hadd : c.add k with e' | c₁
      · rw [hadd] at h
        cases h
        rcases sortMismatch_of_add ls c hc k _ hadd with ⟨x, rfl, ⟨rel, n, hbound⟩, v, hv⟩
        exact ⟨x, rfl, ⟨rel, n, List.mem_append_left _ hbound⟩, v, List.mem_append_left _ hv⟩
      · rw [hadd] at h
        exact ih (ls ++ [k]) c₁ (collects_add ls c hc c₁ k hadd) h

theorem addAll_append (c : Constraints) (ls ks : List Literal) :
    c.addAll (ls ++ ks) = c.addAll ls >>= fun c' => c'.addAll ks := by
  induction ls generalizing c with
  | nil => rfl
  | cons l ls ih =>
      rw [List.cons_append, addAll, addAll, bind_assoc]
      exact bind_congr fun c' => ih c'

/-- Adding formulas of the fragment adds their literals. -/
theorem addTerms_eq_addAll (c : Constraints) (ts : List Term) (ls : List Literal)
    (h : literalsOfAll true ts = .ok ls) : c.addTerms ts = c.addAll ls := by
  induction ts generalizing c ls with
  | nil =>
      cases h
      rfl
  | cons t ts ih =>
      rw [literalsOfAll] at h
      rcases (except_pair_ok _ _ _ _).mp h with ⟨ks, rest, hks, hrest, rfl⟩
      -- The literals of the first formula are added first, and by induction the rest is added to
      -- what they led to.
      rw [addTerms, hks, addAll_append]
      exact bind_congr fun c' => ih c' rest hrest

/-- Constraints are satisfiable exactly if they admit a valuation. -/
theorem isSat_iff (c : Constraints) (hapart : ∀ x ∈ c.bounds, x ∉ c.truths) :
    c.isSat = true ↔ ∃ ν, c.Admits ν := by
  rw [isSat, Bool.and_eq_true, Bool.not_eq_true', List.all_eq_true]
  constructor
  · rintro ⟨hconflict, hinhabited⟩
    -- The value of a variable is found without regard to the others.
    have hvalue : ∀ x : String, ∃ m : Meaning,
        (∀ b : Bounds, c.bounds[x]? = some b → ∃ n, m = .int n ∧ b.Admits n)
          ∧ ∀ v : Bool, c.truths[x]? = some v → m = .bool v := by
      intro x
      rcases hx : c.bounds[x]? with _ | b
      -- Without bounds it takes its truth value, if it has one.
      · exact ⟨.bool (c.truths.getD x false), nofun, fun v hv => by
          rw [Std.ExtTreeMap.getD_eq_getD_getElem?, hv, Option.getD_some]⟩
      · have hb := hinhabited (x, b) (Std.ExtTreeMap.mem_toList_iff_getElem?_eq_some.mpr hx)
        -- With bounds it takes an admitted value; it has no truth value then.
        rcases (Bounds.tighten_isSome_iff b).mp hb with ⟨n, hn⟩
        refine ⟨.int n, fun b' hb' => ?_, fun v hv => ?_⟩
        · cases hb'
          exact ⟨n, rfl, hn⟩
        · exact absurd (mem_of_getElem?_name c.truths x v hv)
            (hapart x (mem_of_getElem?_name c.bounds x b hx))
    choose ν hbounds htruths using hvalue
    exact ⟨ν, hbounds, htruths, hconflict⟩
  · rintro ⟨ν, hbounded, _, hconflict⟩
    refine ⟨hconflict, ?_⟩
    rintro ⟨x, b⟩ hb
    rcases hbounded x b (Std.ExtTreeMap.mem_toList_iff_getElem?_eq_some.mp hb) with ⟨n, _, hn⟩
    exact (Bounds.tighten_isSome_iff b).mpr ⟨n, hn⟩

end Constraints

end ActorCheck
