import ActorCheck.Data.Explicit
import ActorCheck.Proofs.Outcome

/-!
# What Statements Do to Stores

The explicit analysis seen from single cells. The value of an expression depends on the cells it
reads, and a statement changes the cells it writes and no others. A sequence of operations is
taken apart in the same way, so that a cell which none of them writes is as it was at the end.

Declarations and assignments have one outcome. A sequence of pairs of them, which is how
arguments are passed, is therefore a computation on stores, `bindAll`. A value is computed after
the declaration of the variable that gets it and after all earlier pairs.

## Main definitions

* `Expr.cells`: The cells that an expression reads.
* `Statement.written`: The variables that a statement writes.
* `Explicit.bindAll`: The store after declaring and assigning variables one by one.

## Theorems

* `eval_congr`: The value of an expression depends on the cells it reads.
* `eval_arith_ok` and the like: When an operation has a value, and which.
* `exact_of_eval_arith`: The value of an arithmetic expression is exact.
* `Explicit.frame`: A statement changes the cells it writes and no others.
* `Explicit.run_frame`: The same for a sequence of operations.
* `Explicit.run_binding`: Passing arguments has one outcome.
* `Explicit.value_of_bindAll`: The value that a variable gets.
-/

namespace ActorCheck

/-- The cells that the value of an expression depends on. -/
def Expr.cells : Expr → List String
  | .var v => [v.cellName]
  | .arith _ a b => a.cells ++ b.cells
  | .cmp _ a b => a.cells ++ b.cells
  | .and a b => a.cells ++ b.cells
  | .or a b => a.cells ++ b.cells
  | .not a => a.cells
  | _ => []

/-- The variables that a statement writes. -/
def Statement.written : Statement → List Variable
  | .declare v => [v]
  | .store v _ => [v]
  | .call _ _ result => result.toList
  | _ => []

namespace Store

theorem getElem?_write (s : Store) (v : Variable) (value : Value) (cell : String) :
    (s.write v value)[cell]? = if v.cellName = cell then some value else s[cell]? := by
  unfold write
  rw [Std.ExtTreeMap.getElem?_insert]
  simp only [Std.LawfulEqCmp.compare_eq_iff_eq]

theorem getElem?_write_ne (s : Store) (v : Variable) (value : Value) (cell : String)
    (h : v.cellName ≠ cell) : (s.write v value)[cell]? = s[cell]? := by
  rw [getElem?_write, if_neg h]

theorem getElem?_write_self (s : Store) (v : Variable) (value : Value) :
    (s.write v value)[v.cellName]? = some value := by
  rw [getElem?_write, if_pos rfl]

theorem read_congr (s u : Store) (v : Variable) (h : s[v.cellName]? = u[v.cellName]?) :
    s.read v = u.read v := by
  unfold read
  rw [h]

/-- A number that the clock holds is the time. -/
theorem time_of_cell (s : Store) (t : Int64) (h : s[Builtin.clock.cellName]? = some (.int t)) :
    s.time = t := by
  unfold time
  rw [h]

/-- What is read from the clock, if it is a number, is the time. -/
theorem time_of_read (s : Store) (t : Int64) (h : s.read Builtin.clock = .ok (.int t)) :
    s.time = t := by
  unfold read at h
  unfold time
  -- A cell that was never written counts as 0 for both of them.
  cases hcell : s[Builtin.clock.cellName]? with
  | none =>
      rw [hcell] at h
      cases h
      rfl
  | some value =>
      rw [hcell] at h
      cases h
      rfl

theorem time_congr (s u : Store) (h : s[Builtin.clock.cellName]? = u[Builtin.clock.cellName]?) :
    s.time = u.time := by
  unfold time
  rw [h]

end Store

/-- The value of an expression depends on the cells it reads. -/
theorem eval_congr (s u : Store) (e : Expr) (h : ∀ cell ∈ e.cells, s[cell]? = u[cell]?) :
    eval s e = eval u e := by
  have hboth : ∀ a b : Expr, (∀ cell ∈ a.cells ++ b.cells, s[cell]? = u[cell]?) →
      (∀ cell ∈ a.cells, s[cell]? = u[cell]?) ∧ ∀ cell ∈ b.cells, s[cell]? = u[cell]? :=
    fun a b hab => List.forall_mem_append.mp hab
  induction e with
  | var v => exact s.read_congr u v (h v.cellName (List.mem_singleton_self _))
  | arith op a b iha ihb =>
      rw [eval, eval, iha (hboth a b h).1, ihb (hboth a b h).2]
  | cmp op a b iha ihb =>
      -- Equality compares values of any kind. The other comparisons have a branch of their own
      -- each.
      cases op with
      | eq => rw [eval, eval, iha (hboth a b h).1, ihb (hboth a b h).2]
      | _ => simp only [eval, iha (hboth a b h).1, ihb (hboth a b h).2]
  | and a b iha ihb => rw [eval, eval, iha (hboth a b h).1, ihb (hboth a b h).2]
  | or a b iha ihb => rw [eval, eval, iha (hboth a b h).1, ihb (hboth a b h).2]
  | not a iha => rw [eval, eval, iha h]
  | _ => rw [eval, eval]

theorem asInt_ok (source : Expr) (value : Value) (n : Int64) :
    value.asInt source = .ok n ↔ value = .int n := by
  cases value with
  | int m =>
      constructor
      · intro h
        cases h
        rfl
      · intro h
        cases h
        rfl
  | bool b => exact iff_of_false nofun nofun
  | str t => exact iff_of_false nofun nofun

theorem asBool_ok (source : Expr) (value : Value) (b : Bool) :
    value.asBool source = .ok b ↔ value = .bool b := by
  cases value with
  | bool b' =>
      constructor
      · intro h
        cases h
        rfl
      · intro h
        cases h
        rfl
  | int n => exact iff_of_false nofun nofun
  | str t => exact iff_of_false nofun nofun

section Steps

variable {β : Type} (x : Except AnalysisError Value) (source : Expr) (b : β)

theorem bind_asInt_ok (f : Int64 → Except AnalysisError β) :
    (do f (← (← x).asInt source)) = .ok b ↔ ∃ m, x = .ok (.int m) ∧ f m = .ok b := by
  constructor
  · intro h
    rcases (except_bind_ok _ _ _).mp h with ⟨value, hvalue, h⟩
    rcases (except_bind_ok _ _ _).mp h with ⟨m, hm, h⟩
    rw [(asInt_ok _ _ _).mp hm] at hvalue
    exact ⟨m, hvalue, h⟩
  · rintro ⟨m, rfl, h⟩
    exact h

theorem bind_asBool_ok (f : Bool → Except AnalysisError β) :
    (do f (← (← x).asBool source)) = .ok b ↔ ∃ p, x = .ok (.bool p) ∧ f p = .ok b := by
  constructor
  · intro h
    rcases (except_bind_ok _ _ _).mp h with ⟨value, hvalue, h⟩
    rcases (except_bind_ok _ _ _).mp h with ⟨p, hp, h⟩
    rw [(asBool_ok _ _ _).mp hp] at hvalue
    exact ⟨p, hvalue, h⟩
  · rintro ⟨p, rfl, h⟩
    exact h

end Steps

section Cases

variable (s : Store) (a b : Expr) (value : Value)

theorem eval_arith_ok (op : ArithOp) : eval s (.arith op a b) = .ok value
    ↔ ∃ m n r, eval s a = .ok (.int m) ∧ eval s b = .ok (.int n)
      ∧ toInt64? (op.apply m.toInt n.toInt) = some r ∧ value = .int r := by
  refine (bind_asInt_ok _ _ _ _).trans ?_
  constructor
  · rintro ⟨m, hm, h⟩
    rcases (bind_asInt_ok _ _ _ _).mp h with ⟨n, hn, h⟩
    -- The exact result is kept if it is in range. There is no other way to succeed.
    unfold arithResult at h
    split at h
    next r hr =>
      cases h
      exact ⟨m, n, r, hm, hn, hr, rfl⟩
    next => cases h
  · rintro ⟨m, n, r, hm, hn, hr, rfl⟩
    refine ⟨m, hm, (bind_asInt_ok _ _ _ _).mpr ⟨n, hn, ?_⟩⟩
    unfold arithResult
    rw [hr]

theorem eval_eq_ok : eval s (.cmp .eq a b) = .ok value
    ↔ ∃ x y, eval s a = .ok x ∧ eval s b = .ok y ∧ value = .bool (x == y) := by
  refine (except_bind_ok _ _ _).trans ?_
  constructor
  · rintro ⟨x, hx, h⟩
    rcases (except_bind_ok _ _ _).mp h with ⟨y, hy, h⟩
    exact ⟨x, y, hx, hy, ((except_pure_ok _ _).mp h).symm⟩
  · rintro ⟨x, y, hx, hy, rfl⟩
    exact ⟨x, hx, (except_bind_ok _ _ _).mpr ⟨y, hy, rfl⟩⟩

/-- The comparisons other than equality are of integers. -/
theorem eval_order_ok (op : Comparison) (hop : op ≠ .eq) : eval s (.cmp op a b) = .ok value
    ↔ ∃ m n, eval s a = .ok (.int m) ∧ eval s b = .ok (.int n)
      ∧ value = .bool (op.holds m.toInt n.toInt) := by
  have heval : eval s (.cmp op a b) = (do
      let m ← (← eval s a).asInt a
      let n ← (← eval s b).asInt b
      return .bool (op.holds m.toInt n.toInt)) := by
    cases op with
    | eq => exact absurd rfl hop
    | _ => rfl
  rw [heval, bind_asInt_ok]
  constructor
  · rintro ⟨m, hm, h⟩
    rcases (bind_asInt_ok _ _ _ _).mp h with ⟨n, hn, h⟩
    exact ⟨m, n, hm, hn, ((except_pure_ok _ _).mp h).symm⟩
  · rintro ⟨m, n, hm, hn, rfl⟩
    exact ⟨m, hm, (bind_asInt_ok _ _ _ _).mpr ⟨n, hn, rfl⟩⟩

theorem eval_and_ok : eval s (.and a b) = .ok value
    ↔ (eval s a = .ok (.bool false) ∧ value = .bool false)
      ∨ (eval s a = .ok (.bool true) ∧ ∃ p, eval s b = .ok (.bool p) ∧ value = .bool p) := by
  refine (bind_asBool_ok _ _ _ _).trans ?_
  constructor
  · rintro ⟨p, hp, h⟩
    -- If the first operand decides, the second one is not looked at.
    cases p with
    | false => exact Or.inl ⟨hp, ((except_pure_ok _ _).mp h).symm⟩
    | true =>
        rcases (bind_asBool_ok _ _ _ _).mp h with ⟨q, hq, h⟩
        exact Or.inr ⟨hp, q, hq, ((except_pure_ok _ _).mp h).symm⟩
  · rintro (⟨ha, rfl⟩ | ⟨ha, p, hp, rfl⟩)
    · exact ⟨false, ha, rfl⟩
    · exact ⟨true, ha, (bind_asBool_ok _ _ _ _).mpr ⟨p, hp, rfl⟩⟩

theorem eval_or_ok : eval s (.or a b) = .ok value
    ↔ (eval s a = .ok (.bool true) ∧ value = .bool true)
      ∨ (eval s a = .ok (.bool false) ∧ ∃ p, eval s b = .ok (.bool p) ∧ value = .bool p) := by
  refine (bind_asBool_ok _ _ _ _).trans ?_
  constructor
  · rintro ⟨p, hp, h⟩
    cases p with
    | true => exact Or.inl ⟨hp, ((except_pure_ok _ _).mp h).symm⟩
    | false =>
        rcases (bind_asBool_ok _ _ _ _).mp h with ⟨q, hq, h⟩
        exact Or.inr ⟨hp, q, hq, ((except_pure_ok _ _).mp h).symm⟩
  · rintro (⟨ha, rfl⟩ | ⟨ha, p, hp, rfl⟩)
    · exact ⟨true, ha, rfl⟩
    · exact ⟨false, ha, (bind_asBool_ok _ _ _ _).mpr ⟨p, hp, rfl⟩⟩

theorem eval_not_ok : eval s (.not a) = .ok value
    ↔ ∃ p, eval s a = .ok (.bool p) ∧ value = .bool (!p) := by
  refine (bind_asBool_ok _ _ _ _).trans ?_
  refine exists_congr fun p => and_congr_right fun _ => ?_
  rw [except_pure_ok]
  exact eq_comm

end Cases

/-- An expression whose negation holds does not. -/
theorem eval_of_not (s : Store) (e : Expr) (h : eval s (.not e) = .ok (.bool true)) :
    eval s e = .ok (.bool false) := by
  rcases (eval_not_ok s e _).mp h with ⟨p, hp, htrue⟩
  cases p with
  | false => exact hp
  | true => cases htrue

/-- The value of an arithmetic expression is exact. -/
theorem exact_of_eval_arith (s : Store) (op : ArithOp) (a b : Expr) (value : Value)
    (h : eval s (.arith op a b) = .ok value) :
    ∃ m n r : Int64, eval s a = .ok (.int m) ∧ eval s b = .ok (.int n) ∧ value = .int r
      ∧ r.toInt = op.apply m.toInt n.toInt := by
  rcases (eval_arith_ok s a b value op).mp h with ⟨m, n, r, hm, hn, hr, hvalue⟩
  exact ⟨m, n, r, hm, hn, hvalue, toInt_toInt64? _ r hr⟩

namespace Explicit

theorem getElem?_declare_ne (s : Store) (v : Variable) (cell : String) (h : v.cellName ≠ cell) :
    (declare s v)[cell]? = s[cell]? := by
  unfold declare
  split
  · exact s.getElem?_write_ne v _ cell h
  · rfl

/-- A statement changes the cells it writes and no others. -/
theorem frame (s t : Store) (statement : Statement) (found : List Store)
    (h : successors s statement = .ok found) (ht : t ∈ found) (cell : String)
    (hcell : ∀ v ∈ statement.written, v.cellName ≠ cell) : t[cell]? = s[cell]? := by
  have hsame : found = [s] → t[cell]? = s[cell]? := by
    rintro rfl
    rw [List.mem_singleton.mp ht]
  -- Statements that only look at the store leave it alone. The waiting ones are no business of the
  -- data analysis and fail.
  cases statement with
  | assume e =>
      rcases (except_bind_ok _ _ _).mp h with ⟨value, _, h⟩
      rcases (except_bind_ok _ _ _).mp h with ⟨holds, _, h⟩
      cases holds with
      | true => exact hsame ((except_pure_ok _ _).mp h).symm
      | false =>
          rw [← (except_pure_ok _ _).mp h] at ht
          cases ht
  | declare v =>
      cases h
      rw [List.mem_singleton.mp ht]
      exact getElem?_declare_ne s v cell (hcell v (List.mem_singleton_self v))
  | store v e =>
      rcases (except_bind_ok _ _ _).mp h with ⟨value, _, h⟩
      rw [← (except_pure_ok _ _).mp h] at ht
      rw [List.mem_singleton.mp ht]
      exact s.getElem?_write_ne v value cell (hcell v (List.mem_singleton_self v))
  | evaluate e =>
      rcases (except_bind_ok _ _ _).mp h with ⟨_, _, h⟩
      exact hsame ((except_pure_ok _ _).mp h).symm
  | call method args result =>
      rw [successors] at h
      split at h
      · cases h
        rw [List.mem_singleton.mp ht]
        cases result with
        | none => rfl
        | some v => exact s.getElem?_write_ne v _ cell (hcell v (List.mem_singleton_self v))
      · cases h
  | waitUntil e => cases h
  | waitSecs e => cases h
  | _ => exact hsame (Except.ok.inj h).symm

section Runs

theorem mem_runAll (states found : List Store) (op : Operation) (concern : Concern)
    (h : DataAnalysis.explicit.runAll op concern states = .ok found) (t : Store) (ht : t ∈ found) :
    ∃ s ∈ states, ∃ next, successors s op.statement = .ok next ∧ t ∈ next := by
  unfold DataAnalysis.runAll at h
  rcases (except_bind_ok _ _ _).mp h with ⟨results, hresults, h⟩
  rw [← (except_pure_ok _ _).mp h] at ht
  rcases List.mem_flatten.mp ht with ⟨next, hnext, ht⟩
  rcases mem_of_forall₂_right _ _ _ ((except_mapM_ok _ _ _).mp hresults) next hnext with
    ⟨s, hs, hone⟩
  exact ⟨s, hs, next, hone, ht⟩

/-- A sequence of operations changes the cells it writes and no others. -/
theorem run_frame (s t : Store) (ops : List Operation) (concern : Concern) (found : List Store)
    (h : DataAnalysis.explicit.run s ops concern = .ok found) (ht : t ∈ found) (cell : String)
    (hcell : ∀ op ∈ ops, ∀ v ∈ op.statement.written, v.cellName ≠ cell) : t[cell]? = s[cell]? := by
  -- For any list of stores that agree with the first one on the cell, as an operation may have
  -- several outcomes.
  have hfrom : ∀ states : List Store, (∀ u ∈ states, u[cell]? = s[cell]?) →
      DataAnalysis.explicit.runFrom concern states ops = .ok found → t[cell]? = s[cell]? := by
    clear h
    induction ops with
    | nil =>
        intro states hstates h
        cases h
        exact hstates t ht
    | cons op ops ih =>
        intro states hstates h
        have hops := fun op' hop' => hcell op' (List.mem_cons_of_mem op hop')
        unfold DataAnalysis.runFrom at h
        split at h
        · exact ih hops states hstates h
        · rcases (except_bind_ok _ _ _).mp h with ⟨next, hnext, h⟩
          refine ih hops next (fun u hu => ?_) h
          rcases mem_runAll states next op concern hnext u hu with ⟨v, hv, results, hresults, hmem⟩
          exact (frame v u op.statement results hresults hmem cell
            (hcell op List.mem_cons_self)).trans (hstates v hv)
  exact hfrom [s] (List.forall_mem_singleton.mpr rfl) h

/-- The first operation of a sequence that starts from one store. -/
theorem successors_of_runFrom (s : Store) (op : Operation) (ops : List Operation)
    (concern : Concern) (found : List Store) (hop : op.id ≠ epsilonId)
    (h : DataAnalysis.explicit.runFrom concern [s] (op :: ops) = .ok found) :
    ∃ next, successors s op.statement = .ok next
      ∧ DataAnalysis.explicit.runFrom concern next ops = .ok found := by
  have hnot : op.isEpsilon = false := beq_false_of_ne hop
  unfold DataAnalysis.runFrom DataAnalysis.runAll at h
  rw [hnot, if_neg Bool.false_ne_true] at h
  rcases (except_bind_ok _ _ _).mp h with ⟨all, hall, h⟩
  rcases (except_bind_ok _ _ _).mp hall with ⟨results, hresults, hflat⟩
  rcases List.forall₂_cons_left_iff.mp ((except_mapM_ok _ _ _).mp hresults) with
    ⟨next, rest, hnext, hrest, rfl⟩
  -- From one store there is one list of results, so to put all lists together changes nothing.
  rw [List.forall₂_nil_left_iff.mp hrest] at hflat
  rw [← (except_pure_ok _ _).mp hflat, List.flatten_singleton] at h
  exact ⟨next, hnext, h⟩

end Runs

/-- The store after variables were declared and got their values one by one. -/
def bindAll : Store → List (Variable × Expr) → Except AnalysisError Store
  | s, [] => .ok s
  | s, (v, e) :: rest => do
    let value ← eval (declare s v) e
    bindAll ((declare s v).write v value) rest

/-- The statements that pass arguments. -/
def binding (pairs : List (Variable × Expr)) : List Statement :=
  pairs.flatMap fun (v, e) => [.declare v, .store v e]

/-- Passing arguments has one outcome. -/
theorem run_binding (s : Store) (pairs : List (Variable × Expr)) (ops : List Operation)
    (concern : Concern) (found : List Store) (hops : ops.map Operation.statement = binding pairs)
    (hids : ∀ op ∈ ops, op.id ≠ epsilonId)
    (h : DataAnalysis.explicit.run s ops concern = .ok found) :
    ∃ t, bindAll s pairs = .ok t ∧ found = [t] := by
  unfold DataAnalysis.run at h
  -- By induction on the pairs. The store is generalized, as the later ones start from what the
  -- earlier ones have left.
  induction pairs generalizing s ops with
  | nil =>
      rw [List.map_eq_nil_iff.mp hops] at h
      cases h
      exact ⟨s, rfl, rfl⟩
  | cons pair rest ih =>
      rcases pair with ⟨v, e⟩
      -- A declaration and an assignment come first.
      rcases List.map_eq_cons_iff.mp hops with ⟨first, others, rfl, hfirst, hothers⟩
      rcases List.map_eq_cons_iff.mp hothers with ⟨second, others, rfl, hsecond, hothers⟩
      have hids' := fun op hop => hids op (List.mem_cons_of_mem first hop)
      rcases successors_of_runFrom s first _ concern found (hids first List.mem_cons_self) h with
        ⟨declared, hdeclared, h⟩
      rw [hfirst] at hdeclared
      cases hdeclared
      rcases successors_of_runFrom _ second _ concern found (hids' second List.mem_cons_self) h with
        ⟨stored, hstored, h⟩
      rw [hsecond] at hstored
      rcases (except_bind_ok _ _ _).mp hstored with ⟨value, hvalue, hstored⟩
      rw [← (except_pure_ok _ _).mp hstored] at h
      rcases ih _ others hothers (fun op hop => hids' op (List.mem_cons_of_mem second hop)) h with
        ⟨t, ht, hfound⟩
      exact ⟨t, (except_bind_ok _ _ _).mpr ⟨value, hvalue, ht⟩, hfound⟩

/-- What is passed later does not change a cell that it does not write. -/
theorem bindAll_frame (s t : Store) (pairs : List (Variable × Expr)) (h : bindAll s pairs = .ok t)
    (cell : String) (hcell : ∀ pair ∈ pairs, pair.1.cellName ≠ cell) : t[cell]? = s[cell]? := by
  induction pairs generalizing s with
  | nil =>
      cases h
      rfl
  | cons pair rest ih =>
      rcases pair with ⟨v, e⟩
      rcases (except_bind_ok _ _ _).mp h with ⟨value, _, h⟩
      -- Neither the declaration nor the assignment writes the cell, and the later pairs do not
      -- either.
      rw [ih _ h (fun pair hpair => hcell pair (List.mem_cons_of_mem _ hpair)),
        Store.getElem?_write_ne _ v value cell (hcell _ List.mem_cons_self),
        getElem?_declare_ne s v cell (hcell _ List.mem_cons_self)]

/-- The value that a variable gets: that of its expression after all earlier variables got theirs
    and after its own declaration. -/
theorem value_of_bindAll (s t : Store) (before after : List (Variable × Expr)) (v : Variable)
    (e : Expr) (h : bindAll s (before ++ (v, e) :: after) = .ok t)
    (hafter : ∀ pair ∈ after, pair.1.cellName ≠ v.cellName) :
    ∃ u value, bindAll s before = .ok u ∧ eval (declare u v) e = .ok value
      ∧ t[v.cellName]? = some value := by
  induction before generalizing s with
  | nil =>
      rcases (except_bind_ok _ _ _).mp h with ⟨value, hvalue, h⟩
      refine ⟨s, value, rfl, hvalue, ?_⟩
      -- What comes behind does not write the variable, so it keeps what it has just got.
      rw [bindAll_frame _ t after h v.cellName hafter, Store.getElem?_write_self]
  | cons pair rest ih =>
      rcases pair with ⟨w, d⟩
      rcases (except_bind_ok _ _ _).mp h with ⟨first, hfirst, h⟩
      rcases ih _ h with ⟨u, value, hu, hvalue, ht⟩
      exact ⟨u, value, (except_bind_ok _ _ _).mpr ⟨first, hfirst, hu⟩, hvalue, ht⟩

end Explicit

end ActorCheck
