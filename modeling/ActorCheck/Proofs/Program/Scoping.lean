import ActorCheck.Proofs.Outcome
import ActorCheck.Scope

/-!
# Scoped Forms

What scoping makes of an expression or a statement, told by rules instead of a computation. There is
one rule for each construct, and all but two of them keep the construct and go on with its parts. A
variable stays the same variable in a place of its own. An attribute is replaced as a whole by the
variable that it is, so the expression for its actor is gone afterwards and need not be scoped.

The rules say what scoping yields and also when it yields something, so the rest is about the rules
alone. Whatever a rule yields is in place: no variable is left without one, and no attribute is left
at all. Conversely what is in place is its own form, under any scoping, since the only rules that
change anything are for variables without a place and for attributes. Together a form is never
changed any more. The scheduler relies on this where it scopes conditions a second time, possibly
for another thread.

## Main definitions

* `Scoping.VariableForm`, `Scoping.ExprForm`, `Scoping.StatementForm`: The scoped forms, by rules.
* `Expr.InPlace`, `Statement.InPlace`: No variable without a place and no attribute is left.

## Theorems

* `Scoping.expr_ok_iff`, `Scoping.statement_ok_iff`: Scoping yields exactly the scoped forms.
* `Scoping.inPlace_of_statementForm`: A scoped form is in place.
* `Scoping.statement_eq_self_iff`: What is in place is what scoping leaves as it is.
* `Scoping.statement_settled`: Scoping is complete and is not undone or redone by another scoping.
-/

namespace ActorCheck

/-- Every variable is in its place and no attribute has to be resolved. -/
def Expr.InPlace : Expr → Prop
  | .num _ | .bool _ | .str _ | .usher => True
  | .var v => v.isUnqualified = false
  | .arith _ a b | .cmp _ a b | .and a b | .or a b => a.InPlace ∧ b.InPlace
  | .not a | .locateActor a | .startClone a => a.InPlace
  | .attributeOf _ _ _ => False

/-- Both parts of a message are in place. -/
def Message.InPlace (m : Message) : Prop := m.space.InPlace ∧ m.id.InPlace

/-- Everything that a statement mentions is in place, what it writes as well as what it reads. -/
def Statement.InPlace : Statement → Prop
  | .epsilon | .beginAtomic | .endAtomic | .signal _ => True
  | .assume e | .waitUntil e | .waitSecs e | .evaluate e => e.InPlace
  | .declare v => v.isUnqualified = false
  | .store v e => v.isUnqualified = false ∧ e.InPlace
  | .call _ args result => (∀ e ∈ args, e.InPlace) ∧ ∀ v ∈ result, v.isUnqualified = false
  | .ret result => ∀ v ∈ result, v.isUnqualified = false
  | .broadcast m | .broadcastAndWait m => m.InPlace

namespace Scoping

section Rules

variable (s : Scoping)

/-- The place of a variable that is looked for in a scope. Its name and its type stay. -/
inductive VariableForm (scope : List String) (v : Variable) : Variable → Prop where
  | known (h : v.isUnqualified = false) : VariableForm scope v v
  | ofActor (h : v.isUnqualified = true) (hown : s.actor.owns v.ident = true) :
      VariableForm scope v (.within v.ident v.type [s.actor.name])
  | ofScope (h : v.isUnqualified = true) (hown : s.actor.owns v.ident = false) :
      VariableForm scope v (.within v.ident v.type scope)

/-- The actor that is known before the program runs. -/
inductive Denotes : Expr → ActorName → Prop where
  | usher : Denotes .usher s.actor.name
  | located (name : String) : Denotes (.locateActor (.str name)) name
  | referred (v w : Variable) (name : ActorName) (htype : v.type = .actor)
      (hread : s.VariableForm s.readScope v w) (h : s.resolve w = some name) :
      Denotes (.var v) name

/-- The scoped form of an expression. -/
inductive ExprForm : Expr → Expr → Prop where
  | num (n : Int64) : ExprForm (.num n) (.num n)
  | bool (b : Bool) : ExprForm (.bool b) (.bool b)
  | str (t : String) : ExprForm (.str t) (.str t)
  | usher : ExprForm .usher .usher
  | var {v w : Variable} (h : s.VariableForm s.readScope v w) : ExprForm (.var v) (.var w)
  | attributeOf {a : Expr} {owner : ActorName} (field : String) (type : DataType)
      (h : s.Denotes a owner) :
      ExprForm (.attributeOf a field type) (.var (.within field type [owner]))
  | arith {a a' b b' : Expr} (op : ArithOp) (ha : ExprForm a a') (hb : ExprForm b b') :
      ExprForm (.arith op a b) (.arith op a' b')
  | cmp {a a' b b' : Expr} (op : Comparison) (ha : ExprForm a a') (hb : ExprForm b b') :
      ExprForm (.cmp op a b) (.cmp op a' b')
  | and {a a' b b' : Expr} (ha : ExprForm a a') (hb : ExprForm b b') :
      ExprForm (.and a b) (.and a' b')
  | or {a a' b b' : Expr} (ha : ExprForm a a') (hb : ExprForm b b') :
      ExprForm (.or a b) (.or a' b')
  | not {a a' : Expr} (ha : ExprForm a a') : ExprForm (.not a) (.not a')
  | locateActor {a a' : Expr} (ha : ExprForm a a') : ExprForm (.locateActor a) (.locateActor a')
  | startClone {a a' : Expr} (ha : ExprForm a a') : ExprForm (.startClone a) (.startClone a')

/-- The scoped form of a message. -/
structure MessageForm (m m' : Message) : Prop where
  space : s.ExprForm m.space m'.space
  id : s.ExprForm m.id m'.id

/-- The scoped form of a statement. What is assigned to is looked for in the scope that is written,
    all else in the scope that is read. -/
inductive StatementForm : Statement → Statement → Prop where
  | epsilon : StatementForm .epsilon .epsilon
  | beginAtomic : StatementForm .beginAtomic .beginAtomic
  | endAtomic : StatementForm .endAtomic .endAtomic
  | signal (properties : Std.ExtTreeSet String) :
      StatementForm (.signal properties) (.signal properties)
  | assume {e e' : Expr} (h : s.ExprForm e e') : StatementForm (.assume e) (.assume e')
  | declare {v w : Variable} (h : s.VariableForm s.writeScope v w) :
      StatementForm (.declare v) (.declare w)
  | store {v w : Variable} {e e' : Expr} (hv : s.VariableForm s.writeScope v w)
      (he : s.ExprForm e e') : StatementForm (.store v e) (.store w e')
  | call {args args' : List Expr} {result result' : Option Variable} (method : String)
      (hargs : List.Forall₂ s.ExprForm args args')
      (hresult : Option.Rel (s.VariableForm s.writeScope) result result') :
      StatementForm (.call method args result) (.call method args' result')
  | ret {result result' : Option Variable}
      (hresult : Option.Rel (s.VariableForm s.readScope) result result') :
      StatementForm (.ret result) (.ret result')
  | broadcast {m m' : Message} (h : s.MessageForm m m') :
      StatementForm (.broadcast m) (.broadcast m')
  | broadcastAndWait {m m' : Message} (h : s.MessageForm m m') :
      StatementForm (.broadcastAndWait m) (.broadcastAndWait m')
  | waitUntil {e e' : Expr} (h : s.ExprForm e e') : StatementForm (.waitUntil e) (.waitUntil e')
  | waitSecs {e e' : Expr} (h : s.ExprForm e e') : StatementForm (.waitSecs e) (.waitSecs e')
  | evaluate {e e' : Expr} (h : s.ExprForm e e') : StatementForm (.evaluate e) (.evaluate e')

end Rules

section Variables

variable (s : Scoping) (scope : List String)

theorem place_eq_iff (v w : Variable) : s.place scope v = w ↔ s.VariableForm scope v w := by
  -- The three branches of the search are the three rules, and their conditions exclude each other.
  unfold place
  cases hplace : v.isUnqualified with
  | false =>
      rw [if_neg Bool.false_ne_true]
      constructor
      · rintro rfl
        exact .known hplace
      · intro h
        cases h with
        | known => rfl
        | ofActor h | ofScope h => exact absurd (hplace.symm.trans h) Bool.false_ne_true
  | true =>
      rw [if_pos rfl]
      cases hown : s.actor.owns v.ident with
      | true =>
          rw [if_pos rfl]
          constructor
          · rintro rfl
            exact .ofActor hplace hown
          · intro h
            cases h with
            | ofActor => rfl
            | known h => exact absurd (h.symm.trans hplace) Bool.false_ne_true
            | ofScope _ h => exact absurd (h.symm.trans hown) Bool.false_ne_true
      | false =>
          rw [if_neg Bool.false_ne_true]
          constructor
          · rintro rfl
            exact .ofScope hplace hown
          · intro h
            cases h with
            | ofScope => rfl
            | known h => exact absurd (h.symm.trans hplace) Bool.false_ne_true
            | ofActor _ h => exact absurd (hown.symm.trans h) Bool.false_ne_true

/-- The places of a variable that may be missing. -/
theorem map_place_eq_iff (v w : Option Variable) :
    v.map (s.place scope) = w ↔ Option.Rel (s.VariableForm scope) v w := by
  cases v with
  | none =>
      constructor
      · rintro rfl
        exact .none
      · intro h
        cases h
        rfl
  | some v =>
      constructor
      · rintro rfl
        exact .some ((s.place_eq_iff scope v _).mp rfl)
      · intro h
        cases h with
        | some h => exact congrArg some ((s.place_eq_iff scope v _).mpr h)

theorem qualified_of_variableForm (v w : Variable) (h : s.VariableForm scope v w) :
    w.isUnqualified = false := by
  cases h with
  | known h => exact h
  | ofActor | ofScope => rfl

theorem qualified_of_rel (v w : Option Variable) (h : Option.Rel (s.VariableForm scope) v w) :
    ∀ u ∈ w, u.isUnqualified = false := by
  cases h with
  | none => exact nofun
  | some h =>
      intro u hu
      rw [← Option.mem_some.mp hu]
      exact s.qualified_of_variableForm scope _ _ h

theorem rel_self_of_qualified (v : Option Variable) (h : ∀ u ∈ v, u.isUnqualified = false) :
    Option.Rel (s.VariableForm scope) v v := by
  cases v with
  | none => exact .none
  | some v => exact .some (.known (h v rfl))

end Variables

section Expressions

variable (s : Scoping)

theorem actorOf_ok_iff (e : Expr) (name : ActorName) :
    s.actorOf e = .ok name ↔ s.Denotes e name := by
  constructor
  · intro h
    unfold actorOf at h
    split at h
    next =>
      cases h
      exact .usher
    next name' =>
      cases h
      exact .located name
    next v =>
      split at h
      next htype =>
        split at h
        next found hfound =>
          cases h
          exact .referred v _ name htype ((s.place_eq_iff s.readScope v _).mp rfl) hfound
        next => cases h
      next => cases h
    next => cases h
  · intro h
    cases h with
    | usher => rfl
    | located => rfl
    | referred v w name htype hread h =>
        -- The rule names the place of the variable, and the search finds the same one.
        have hplace : s.read v = w := (s.place_eq_iff s.readScope v w).mpr hread
        simp only [actorOf, htype, if_true, hplace, h]

/-- A construct without parts is kept, and its only form is itself. -/
theorem kept_form_iff {α : Type} {x : Except ScopeError α} (form : α → Prop) {c : α}
    (hx : x = .ok c) (hrule : form c) (honly : ∀ c', form c' → c' = c) (c' : α) :
    x = .ok c' ↔ form c' := by
  rw [hx]
  constructor
  · rintro ⟨⟩
    exact hrule
  · intro hform
    rw [honly c' hform]

/-- A construct that only puts a variable, or one that may be missing, in its place. -/
theorem placed_form_iff {α γ : Type} (form : γ → Prop) (k : α → γ) {w : α} {place : α → Prop}
    (hplace : ∀ v, w = v ↔ place v) (hrule : ∀ v, place v → form (k v))
    (honly : ∀ c, form c → ∃ v, place v ∧ k v = c) (c : γ) :
    (Except.ok (k w) : Except ScopeError γ) = .ok c ↔ form c := by
  constructor
  · rintro ⟨⟩
    exact hrule w ((hplace w).mp rfl)
  · intro hform
    obtain ⟨v, hv, rfl⟩ := honly c hform
    rw [(hplace v).mpr hv]

/-- A construct with one part has the forms that its part gives it. -/
theorem single_form_iff {α γ : Type} (form : γ → Prop) (k : α → γ) {x : Except ScopeError α}
    {part : α → Prop} (hx : ∀ a, x = .ok a ↔ part a) (hrule : ∀ a, part a → form (k a))
    (honly : ∀ c, form c → ∃ a, part a ∧ k a = c) (c : γ) :
    (do return k (← x)) = Except.ok c ↔ form c := by
  rw [except_single_ok]
  constructor
  · rintro ⟨a, ha, rfl⟩
    exact hrule a ((hx a).mp ha)
  · intro hform
    obtain ⟨a, ha, rfl⟩ := honly c hform
    exact ⟨a, (hx a).mpr ha, rfl⟩

/-- A construct with two parts has the forms that its parts give it. -/
theorem pair_form_iff {α β γ : Type} (form : γ → Prop) (k : α → β → γ)
    {x : Except ScopeError α} {y : Except ScopeError β} {left : α → Prop} {right : β → Prop}
    (hx : ∀ a, x = .ok a ↔ left a) (hy : ∀ b, y = .ok b ↔ right b)
    (hrule : ∀ a b, left a → right b → form (k a b))
    (honly : ∀ c, form c → ∃ a b, left a ∧ right b ∧ k a b = c) (c : γ) :
    (do return k (← x) (← y)) = Except.ok c ↔ form c := by
  rw [except_pair_ok]
  constructor
  · rintro ⟨a, b, ha, hb, rfl⟩
    exact hrule a b ((hx a).mp ha) ((hy b).mp hb)
  · intro hform
    obtain ⟨a, b, ha, hb, rfl⟩ := honly c hform
    exact ⟨a, b, (hx a).mpr ha, (hy b).mpr hb, rfl⟩

/-- An attribute has a form exactly if its actor is known. The expression for the actor is not
    scoped, so this needs nothing about its parts. -/
theorem attributeOf_ok_iff (a : Expr) (field : String) (type : DataType) (e' : Expr) :
    s.expr (.attributeOf a field type) = .ok e' ↔ s.ExprForm (.attributeOf a field type) e' := by
  rw [expr, Expr.replace]
  constructor
  · intro h
    -- The replacement is found first, from the actor alone.
    rcases (except_bind_ok _ _ _).mp h with ⟨found, hfound, h⟩
    rcases (except_single_ok _ _ _).mp hfound with ⟨owner, howner, rfl⟩
    rw [← (except_pure_ok _ _).mp h]
    exact .attributeOf field type ((s.actorOf_ok_iff a owner).mp howner)
  · intro h
    cases h with
    | attributeOf _ _ howner =>
        refine (except_bind_ok _ _ _).mpr ⟨some (.var (.within field type [_])), ?_, rfl⟩
        exact (except_single_ok _ _ _).mpr ⟨_, (s.actorOf_ok_iff a _).mpr howner, rfl⟩

/-- Scoping an expression yields exactly its scoped forms. -/
theorem expr_ok_iff (e e' : Expr) : s.expr e = .ok e' ↔ s.ExprForm e e' := by
  -- A constructor falls into one of the groups above by how many of its parts are scoped. What is
  -- left of a case is to read its own rule backwards.
  induction e generalizing e' with
  | num | bool | str | usher =>
      rw [expr, Expr.replace]
      exact kept_form_iff (s.ExprForm _) rfl (by constructor) (by rintro _ ⟨⟩; rfl) e'
  | var v =>
      rw [expr, Expr.replace]
      refine placed_form_iff (s.ExprForm (.var v)) .var (s.place_eq_iff s.readScope v)
        (fun _ => .var) (fun e' h => ?_) e'
      cases h with
      | var hplace => exact ⟨_, hplace, rfl⟩
  | attributeOf a field type => exact s.attributeOf_ok_iff a field type e'
  | arith op a b iha ihb =>
      rw [expr, Expr.replace]
      refine pair_form_iff (s.ExprForm (.arith op a b)) (.arith op) iha ihb
        (fun _ _ => .arith op) (fun e' h => ?_) e'
      cases h with
      | arith _ ha hb => exact ⟨_, _, ha, hb, rfl⟩
  | cmp op a b iha ihb =>
      rw [expr, Expr.replace]
      refine pair_form_iff (s.ExprForm (.cmp op a b)) (.cmp op) iha ihb
        (fun _ _ => .cmp op) (fun e' h => ?_) e'
      cases h with
      | cmp _ ha hb => exact ⟨_, _, ha, hb, rfl⟩
  | and a b iha ihb =>
      rw [expr, Expr.replace]
      refine pair_form_iff (s.ExprForm (.and a b)) .and iha ihb
        (fun _ _ => .and) (fun e' h => ?_) e'
      cases h with
      | and ha hb => exact ⟨_, _, ha, hb, rfl⟩
  | or a b iha ihb =>
      rw [expr, Expr.replace]
      refine pair_form_iff (s.ExprForm (.or a b)) .or iha ihb
        (fun _ _ => .or) (fun e' h => ?_) e'
      cases h with
      | or ha hb => exact ⟨_, _, ha, hb, rfl⟩
  | not a ih =>
      rw [expr, Expr.replace]
      refine single_form_iff (s.ExprForm (.not a)) .not ih
        (fun _ => .not) (fun e' h => ?_) e'
      cases h with
      | not ha => exact ⟨_, ha, rfl⟩
  | locateActor a ih =>
      rw [expr, Expr.replace]
      refine single_form_iff (s.ExprForm (.locateActor a)) .locateActor ih
        (fun _ => .locateActor) (fun e' h => ?_) e'
      cases h with
      | locateActor ha => exact ⟨_, ha, rfl⟩
  | startClone a ih =>
      rw [expr, Expr.replace]
      refine single_form_iff (s.ExprForm (.startClone a)) .startClone ih
        (fun _ => .startClone) (fun e' h => ?_) e'
      cases h with
      | startClone ha => exact ⟨_, ha, rfl⟩

/-- A scoped form is in place. -/
theorem inPlace_of_exprForm (e e' : Expr) (h : s.ExprForm e e') : e'.InPlace := by
  -- Only variables and attributes become variables, and both rules give them a place. All else is
  -- in place part by part.
  induction h with
  | num | bool | str | usher => trivial
  | var h => exact s.qualified_of_variableForm s.readScope _ _ h
  | attributeOf => exact rfl
  | arith _ _ _ iha ihb | cmp _ _ _ iha ihb | and _ _ iha ihb | or _ _ iha ihb => exact ⟨iha, ihb⟩
  | not _ ih | locateActor _ ih | startClone _ ih => exact ih

/-- An expression that is in place is its own scoped form, whatever the scoping. -/
theorem exprForm_self (e : Expr) (h : e.InPlace) : s.ExprForm e e := by
  -- What is in place has no attribute, and each of its variables falls under the rule for those
  -- with a place.
  induction e with
  | num n => exact .num n
  | bool b => exact .bool b
  | str t => exact .str t
  | usher => exact .usher
  | var v => exact .var (.known h)
  | attributeOf => exact h.elim
  | arith op a b iha ihb => exact .arith op (iha h.1) (ihb h.2)
  | cmp op a b iha ihb => exact .cmp op (iha h.1) (ihb h.2)
  | and a b iha ihb => exact .and (iha h.1) (ihb h.2)
  | or a b iha ihb => exact .or (iha h.1) (ihb h.2)
  | not a ih => exact .not (ih h)
  | locateActor a ih => exact .locateActor (ih h)
  | startClone a ih => exact .startClone (ih h)

end Expressions

section Statements

variable (s : Scoping)

theorem message_ok_iff (m m' : Message) : s.message m = .ok m' ↔ s.MessageForm m m' := by
  refine pair_form_iff (s.MessageForm m) Message.mk (s.expr_ok_iff m.space)
    (s.expr_ok_iff m.id) (fun _ _ hspace hid => ⟨hspace, hid⟩) (fun m' h => ?_) m'
  exact ⟨m'.space, m'.id, h.space, h.id, rfl⟩

theorem args_ok_iff (args args' : List Expr) :
    args.mapM s.expr = .ok args' ↔ List.Forall₂ s.ExprForm args args' := by
  rw [except_mapM_ok]
  -- As relations the two sides are equal, so one rewrite does it for all members.
  have hrules : (fun e e' => s.expr e = .ok e') = s.ExprForm :=
    funext₂ fun e e' => propext (s.expr_ok_iff e e')
  rw [hrules]

/-- Scoping a statement yields exactly its scoped forms. -/
theorem statement_ok_iff (statement placed : Statement) :
    s.statement statement = .ok placed ↔ s.StatementForm statement placed := by
  -- No induction: a statement has no statements in it. The cases are by what is scoped with it, and
  -- a store and a call also put the variable they write in its place.
  cases statement with
  | epsilon | beginAtomic | endAtomic | signal =>
      exact kept_form_iff (s.StatementForm _) rfl (by constructor) (by rintro _ ⟨⟩; rfl) placed
  | assume e =>
      refine single_form_iff (s.StatementForm (.assume e)) .assume
        (s.expr_ok_iff e) (fun _ => .assume) (fun placed h => ?_) placed
      cases h with
      | assume he => exact ⟨_, he, rfl⟩
  | declare v =>
      refine placed_form_iff (s.StatementForm (.declare v)) .declare
        (s.place_eq_iff s.writeScope v) (fun _ => .declare) (fun placed h => ?_) placed
      cases h with
      | declare hplace => exact ⟨_, hplace, rfl⟩
  | store v e =>
      have htarget : s.VariableForm s.writeScope v (s.target v) :=
        (s.place_eq_iff s.writeScope v _).mp rfl
      refine single_form_iff (s.StatementForm (.store v e)) (.store (s.target v))
        (s.expr_ok_iff e) (fun _ => .store htarget) (fun placed h => ?_) placed
      cases h with
      | store hv he =>
          have hplace := (s.place_eq_iff s.writeScope v _).mpr hv
          exact ⟨_, he, congrArg (fun w => Statement.store w _) hplace⟩
  | call method args result =>
      have htarget : Option.Rel (s.VariableForm s.writeScope) result (result.map s.target) :=
        (s.map_place_eq_iff s.writeScope result _).mp rfl
      refine single_form_iff (s.StatementForm (.call method args result))
        (fun args' => .call method args' (result.map s.target)) (s.args_ok_iff args)
        (fun _ hargs => .call method hargs htarget) (fun placed h => ?_) placed
      cases h with
      | call _ hargs hresult =>
          have hplace := (s.map_place_eq_iff s.writeScope result _).mpr hresult
          exact ⟨_, hargs, congrArg (Statement.call method _) hplace⟩
  | ret result =>
      refine placed_form_iff (s.StatementForm (.ret result)) .ret
        (s.map_place_eq_iff s.readScope result) (fun _ => .ret) (fun placed h => ?_) placed
      cases h with
      | ret hplace => exact ⟨_, hplace, rfl⟩
  | broadcast m =>
      refine single_form_iff (s.StatementForm (.broadcast m)) .broadcast
        (s.message_ok_iff m) (fun _ => .broadcast) (fun placed h => ?_) placed
      cases h with
      | broadcast hm => exact ⟨_, hm, rfl⟩
  | broadcastAndWait m =>
      refine single_form_iff (s.StatementForm (.broadcastAndWait m)) .broadcastAndWait
        (s.message_ok_iff m) (fun _ => .broadcastAndWait) (fun placed h => ?_) placed
      cases h with
      | broadcastAndWait hm => exact ⟨_, hm, rfl⟩
  | waitUntil e =>
      refine single_form_iff (s.StatementForm (.waitUntil e)) .waitUntil
        (s.expr_ok_iff e) (fun _ => .waitUntil) (fun placed h => ?_) placed
      cases h with
      | waitUntil he => exact ⟨_, he, rfl⟩
  | waitSecs e =>
      refine single_form_iff (s.StatementForm (.waitSecs e)) .waitSecs
        (s.expr_ok_iff e) (fun _ => .waitSecs) (fun placed h => ?_) placed
      cases h with
      | waitSecs he => exact ⟨_, he, rfl⟩
  | evaluate e =>
      refine single_form_iff (s.StatementForm (.evaluate e)) .evaluate
        (s.expr_ok_iff e) (fun _ => .evaluate) (fun placed h => ?_) placed
      cases h with
      | evaluate he => exact ⟨_, he, rfl⟩

/-- Requiring a condition requires its scoped form. -/
theorem operation_assume (id : OperationId) (e e' : Expr) (h : s.expr e = .ok e') :
    s.operation ⟨id, .assume e⟩ = .ok ⟨id, .assume e'⟩ := by
  unfold operation
  rw [statement, h]
  rfl

/-- The scoped form of a statement is in place. -/
theorem inPlace_of_statementForm (statement placed : Statement)
    (h : s.StatementForm statement placed) : placed.InPlace := by
  -- Each part of the result is in place by its own rule, the written variables in the scope that is
  -- written.
  cases h with
  | epsilon | beginAtomic | endAtomic | signal => trivial
  | assume h | waitUntil h | waitSecs h | evaluate h => exact s.inPlace_of_exprForm _ _ h
  | declare h => exact s.qualified_of_variableForm s.writeScope _ _ h
  | store hv he =>
      exact ⟨s.qualified_of_variableForm s.writeScope _ _ hv, s.inPlace_of_exprForm _ _ he⟩
  | call method hargs hresult =>
      -- Each argument of the result comes from one of the statement by the rules for expressions.
      refine ⟨fun e' he' => ?_, s.qualified_of_rel s.writeScope _ _ hresult⟩
      rcases mem_of_forall₂_right _ _ _ hargs e' he' with ⟨e, _, hform⟩
      exact s.inPlace_of_exprForm e e' hform
  | ret hresult => exact s.qualified_of_rel s.readScope _ _ hresult
  | broadcast h | broadcastAndWait h =>
      exact ⟨s.inPlace_of_exprForm _ _ h.space, s.inPlace_of_exprForm _ _ h.id⟩

/-- A statement that is in place is its own scoped form, whatever the scoping. -/
theorem statementForm_self (statement : Statement) (h : statement.InPlace) :
    s.StatementForm statement statement := by
  cases statement with
  | epsilon => exact .epsilon
  | beginAtomic => exact .beginAtomic
  | endAtomic => exact .endAtomic
  | signal properties => exact .signal properties
  | assume e => exact .assume (s.exprForm_self e h)
  | declare v => exact .declare (.known h)
  | store v e => exact .store (.known h.1) (s.exprForm_self e h.2)
  | call method args result =>
      refine .call method ?_ (s.rel_self_of_qualified s.writeScope result h.2)
      exact List.forall₂_same.mpr fun e he => s.exprForm_self e (h.1 e he)
  | ret result => exact .ret (s.rel_self_of_qualified s.readScope result h)
  | broadcast m => exact .broadcast ⟨s.exprForm_self _ h.1, s.exprForm_self _ h.2⟩
  | broadcastAndWait m => exact .broadcastAndWait ⟨s.exprForm_self _ h.1, s.exprForm_self _ h.2⟩
  | waitUntil e => exact .waitUntil (s.exprForm_self e h)
  | waitSecs e => exact .waitSecs (s.exprForm_self e h)
  | evaluate e => exact .evaluate (s.exprForm_self e h)

/-- What is in place is exactly what scoping leaves as it is. -/
theorem statement_eq_self_iff (statement : Statement) :
    s.statement statement = .ok statement ↔ statement.InPlace :=
  (s.statement_ok_iff statement statement).trans
    ⟨s.inPlace_of_statementForm statement statement, s.statementForm_self statement⟩

/-- If a statement can be scoped, the result is its scoped form: the same constructs with every
    variable in its place and a variable for every attribute. Nothing in it is left to be resolved,
    and any other scoping accepts it and leaves it as it is. -/
theorem statement_settled (statement placed : Statement) (h : s.statement statement = .ok placed) :
    s.StatementForm statement placed ∧ placed.InPlace
      ∧ ∀ other : Scoping, other.statement placed = .ok placed := by
  have hform := (s.statement_ok_iff statement placed).mp h
  have hplace := s.inPlace_of_statementForm statement placed hform
  exact ⟨hform, hplace, fun other => (other.statement_eq_self_iff placed).mpr hplace⟩

/-- A dog that knows where its friend lives. -/
def guide : Scoping where
  actor := (Actor.new "dog" .program).addVariable "distance"
  readScope := ["dog", "main"]
  writeScope := ["dog", "visit"]
  resolve v := if v.cellName = "dog::main::friend" then some "cat" else none

/-- A bird that knows nobody. -/
def stranger : Scoping := Scoping.new (Actor.new "bird" .program) ["bird", "sing"]

/-- A call that visits whoever the friend names, some steps beyond the own kennel. -/
def errand : Statement :=
  .call "visit"
    [.startClone (.locateActor
        (.attributeOf (.var ⟨"friend", .actor, .unqualified⟩) "boss" .string)),
      .arith .add (.var ⟨"steps", .number, .unqualified⟩) (.attributeOf .usher "kennel" .number)]
    (some ⟨"distance", .number, .unqualified⟩)

/-- The same call with everything in its place. -/
def scopedErrand : Statement :=
  .call "visit"
    [.startClone (.locateActor (.var (.within "boss" .string ["cat"]))),
      .arith .add (.var (.within "steps" .number ["dog", "main"]))
        (.var (.within "kennel" .number ["dog"]))]
    (some (.within "distance" .number ["dog"]))

/-- The call is settled by the dog, and nothing changes when a bird looks at it afterwards. -/
theorem statement_settled_errand : guide.statement errand = .ok scopedErrand
    ∧ scopedErrand.InPlace ∧ stranger.statement scopedErrand = .ok scopedErrand := by
  have hscoped : guide.statement errand = .ok scopedErrand := by decide +kernel
  rcases guide.statement_settled errand scopedErrand hscoped with ⟨_, hplace, hsame⟩
  exact ⟨hscoped, hplace, hsame stranger⟩

end Statements

end Scoping

end ActorCheck
