import ActorCheck.Proofs.Data.Stores

/-!
# Evaluation Is Exact

Programs compute with integers of 64 bits, and evaluation refuses a result that does not fit instead
of wrapping it. What that means is said here against an evaluation that knows no bounds. `Exact` is
that evaluation, as a relation: it goes through an expression in the same order, does not enter the
right side of a connective whose left side decides, and lists the results of arithmetic that it
meets on its way.

The two evaluations are compared in both directions. A value that is returned is the exact one, and
all results on the way to it fit. Conversely evaluation follows the exact one as long as the results
fit. Neither direction speaks of types: where an operand is of the wrong type, neither evaluation
yields anything.

So the only other reason for evaluation to fail is that there is no exact value. An expression that
is well typed has one, provided that the cells it reads hold values of the types they are read at.
Reading respects the connectives too: what stands behind a side that decides may be anything.

## Main definitions

* `Datum`: Data without bounds.
* `Exact`: Evaluation without bounds, with the results of arithmetic it meets.
* `Fits`: The range of integers of 64 bits.
* `HasType`: Well-typed expressions that are not about actors.
* `Reads`: The variables that an evaluation reads.

## Theorems

* `Exact.unique`: Evaluation without bounds has one outcome.
* `exact_of_eval`: A value that is returned is exact, and no result on the way overflows.
* `eval_of_exact`: Evaluation follows the exact one while the results fit.
* `HasType.exists_exact`: Well-typed expressions have an exact value.
* `eval_exact`: Evaluation never wraps, and an overflow is the only failure of what is well typed.
-/

namespace ActorCheck

/-- Data as values are, with integers of any size. -/
inductive Datum where
  | int (n : Int)
  | bool (b : Bool)
  | str (s : String)
  deriving DecidableEq

/-- The type of data. -/
def Datum.type : Datum → DataType
  | .int _ => .number
  | .bool _ => .boolean
  | .str _ => .string

namespace Value

/-- What a value stands for. -/
def exact : Value → Datum
  | .int n => .int n.toInt
  | .bool b => .bool b
  | .str s => .str s

theorem exact_eq_int (value : Value) (n : Int) :
    value.exact = .int n ↔ ∃ m : Int64, value = .int m ∧ m.toInt = n := by
  cases value with
  | int m =>
      refine Datum.int.injEq _ _ ▸ ⟨fun h => ⟨m, rfl, h⟩, ?_⟩
      rintro ⟨k, hk, rfl⟩
      cases hk
      rfl
  | bool b => exact iff_of_false nofun nofun
  | str t => exact iff_of_false nofun nofun

theorem exact_eq_bool (value : Value) (b : Bool) : value.exact = .bool b ↔ value = .bool b := by
  cases value with
  | bool p => exact (Datum.bool.injEq _ _ ▸ Value.bool.injEq _ _ ▸ Iff.rfl)
  | int n => exact iff_of_false nofun nofun
  | str t => exact iff_of_false nofun nofun

/-- Values that stand for the same are the same. -/
theorem exact_inj (x y : Value) : x.exact = y.exact ↔ x = y := by
  refine ⟨fun h => ?_, congrArg exact⟩
  cases y with
  | int n =>
      rcases (exact_eq_int x _).mp h with ⟨m, rfl, hm⟩
      rw [Int64.toInt_inj.mp hm]
  | bool b => exact (exact_eq_bool x b).mp h
  | str t =>
      cases x with
      | str u => rw [Datum.str.inj h]
      | int n => cases h
      | bool b => cases h

/-- A default is of the type that it is the default of. -/
theorem type_of_default (t : DataType) (value : Value) (h : default? t = some value) :
    value.exact.type = t := by
  cases t with
  | actor => cases h
  | _ =>
      cases h
      rfl

/-- Actors apart, every type has a default. -/
theorem exists_default (t : DataType) (h : t ≠ .actor) : ∃ value, default? t = some value := by
  cases t with
  | actor => exact absurd rfl h
  | _ => exact ⟨_, rfl⟩

end Value

/-- Evaluation on unbounded integers, from left to right, with the results of additions,
    subtractions and multiplications in the order in which they are met. The right side of a
    connective is entered only if the left side does not decide. -/
inductive Exact (s : Store) : Expr → Datum → List Int → Prop
  | num (n : Int64) : Exact s (.num n) (.int n.toInt) []
  | bool (b : Bool) : Exact s (.bool b) (.bool b) []
  | str (t : String) : Exact s (.str t) (.str t) []
  | var (v : Variable) (value : Value)
      (h : s[v.cellName]?.or (Value.default? v.type) = some value) :
      Exact s (.var v) value.exact []
  | arith (op : ArithOp) {a b : Expr} {m n : Int} {xs ys : List Int} (ha : Exact s a (.int m) xs)
      (hb : Exact s b (.int n) ys) :
      Exact s (.arith op a b) (.int (op.apply m n)) (xs ++ ys ++ [op.apply m n])
  | eq {a b : Expr} {x y : Datum} {xs ys : List Int} (ha : Exact s a x xs) (hb : Exact s b y ys) :
      Exact s (.cmp .eq a b) (.bool (x == y)) (xs ++ ys)
  | order (op : Comparison) (hop : op ≠ .eq) {a b : Expr} {m n : Int} {xs ys : List Int}
      (ha : Exact s a (.int m) xs) (hb : Exact s b (.int n) ys) :
      Exact s (.cmp op a b) (.bool (op.holds m n)) (xs ++ ys)
  | andFalse {a : Expr} (b : Expr) {xs : List Int} (ha : Exact s a (.bool false) xs) :
      Exact s (.and a b) (.bool false) xs
  | andTrue {a b : Expr} {p : Bool} {xs ys : List Int} (ha : Exact s a (.bool true) xs)
      (hb : Exact s b (.bool p) ys) : Exact s (.and a b) (.bool p) (xs ++ ys)
  | orTrue {a : Expr} (b : Expr) {xs : List Int} (ha : Exact s a (.bool true) xs) :
      Exact s (.or a b) (.bool true) xs
  | orFalse {a b : Expr} {p : Bool} {xs ys : List Int} (ha : Exact s a (.bool false) xs)
      (hb : Exact s b (.bool p) ys) : Exact s (.or a b) (.bool p) (xs ++ ys)
  | not {a : Expr} {p : Bool} {xs : List Int} (ha : Exact s a (.bool p) xs) :
      Exact s (.not a) (.bool (!p)) xs

/-- The number is one of the integers of 64 bits, which lie below 2 ^ 63 and not below its
    negative. -/
def Fits (n : Int) : Prop := -9223372036854775808 ≤ n ∧ n < 9223372036854775808

/-- Well-typed expressions that are not about actors. Values of any two types can be asked for
    equality. -/
inductive HasType : Expr → DataType → Prop
  | num (n : Int64) : HasType (.num n) .number
  | bool (b : Bool) : HasType (.bool b) .boolean
  | str (t : String) : HasType (.str t) .string
  | var (v : Variable) (h : v.type ≠ .actor) : HasType (.var v) v.type
  | arith (op : ArithOp) {a b : Expr} (ha : HasType a .number) (hb : HasType b .number) :
      HasType (.arith op a b) .number
  | eq {a b : Expr} {t u : DataType} (ha : HasType a t) (hb : HasType b u) :
      HasType (.cmp .eq a b) .boolean
  | order (op : Comparison) (hop : op ≠ .eq) {a b : Expr} (ha : HasType a .number)
      (hb : HasType b .number) : HasType (.cmp op a b) .boolean
  | and {a b : Expr} (ha : HasType a .boolean) (hb : HasType b .boolean) :
      HasType (.and a b) .boolean
  | or {a b : Expr} (ha : HasType a .boolean) (hb : HasType b .boolean) : HasType (.or a b) .boolean
  | not {a : Expr} (ha : HasType a .boolean) : HasType (.not a) .boolean

/-- The variables that the evaluation of an expression reads. -/
inductive Reads (s : Store) : Expr → Variable → Prop
  | var (v : Variable) : Reads s (.var v) v
  | arithLeft (op : ArithOp) {a : Expr} (b : Expr) {v : Variable} (h : Reads s a v) :
      Reads s (.arith op a b) v
  | arithRight (op : ArithOp) (a : Expr) {b : Expr} {v : Variable} (h : Reads s b v) :
      Reads s (.arith op a b) v
  | cmpLeft (op : Comparison) {a : Expr} (b : Expr) {v : Variable} (h : Reads s a v) :
      Reads s (.cmp op a b) v
  | cmpRight (op : Comparison) (a : Expr) {b : Expr} {v : Variable} (h : Reads s b v) :
      Reads s (.cmp op a b) v
  | andLeft {a : Expr} (b : Expr) {v : Variable} (h : Reads s a v) : Reads s (.and a b) v
  | andRight {a b : Expr} {v : Variable} {xs : List Int} (ha : Exact s a (.bool true) xs)
      (h : Reads s b v) : Reads s (.and a b) v
  | orLeft {a : Expr} (b : Expr) {v : Variable} (h : Reads s a v) : Reads s (.or a b) v
  | orRight {a b : Expr} {v : Variable} {xs : List Int} (ha : Exact s a (.bool false) xs)
      (h : Reads s b v) : Reads s (.or a b) v
  | not {a : Expr} {v : Variable} (h : Reads s a v) : Reads s (.not a) v

/-- A number fits if it is converted to an integer of 64 bits. -/
theorem fits_iff (n : Int) : Fits n ↔ ∃ m, toInt64? n = some m := by
  unfold toInt64?
  constructor
  · intro h
    exact ⟨_, if_pos ⟨h.1, Int.lt_add_one_iff.mp h.2⟩⟩
  · rintro ⟨m, hm⟩
    split at hm
    next h => exact ⟨h.1, Int.lt_add_one_iff.mpr h.2⟩
    next => cases hm

/-- Evaluation without bounds has one outcome, and meets the same results each time. -/
theorem Exact.unique {s : Store} {e : Expr} {x y : Datum} {xs ys : List Int} (hx : Exact s e x xs)
    (hy : Exact s e y ys) : y = x ∧ ys = xs := by
  -- By induction on the first evaluation. The second one is the same case, or the left side of a
  -- connective would be both true and false.
  induction hx generalizing y ys with
  | num n =>
      cases hy
      exact ⟨rfl, rfl⟩
  | bool b =>
      cases hy
      exact ⟨rfl, rfl⟩
  | str t =>
      cases hy
      exact ⟨rfl, rfl⟩
  | var v value h =>
      cases hy with
      | var _ other hother =>
          rw [Option.some.inj (h.symm.trans hother)]
          exact ⟨rfl, rfl⟩
  | arith op _ _ iha ihb =>
      cases hy with
      | arith _ ha hb =>
          rcases iha ha with ⟨hm, rfl⟩
          rcases ihb hb with ⟨hn, rfl⟩
          cases hm
          cases hn
          exact ⟨rfl, rfl⟩
  | eq _ _ iha ihb =>
      cases hy with
      | eq ha hb =>
          rcases iha ha with ⟨rfl, rfl⟩
          rcases ihb hb with ⟨rfl, rfl⟩
          exact ⟨rfl, rfl⟩
      | order _ hop => exact absurd rfl hop
  | order op hop _ _ iha ihb =>
      cases hy with
      | eq => exact absurd rfl hop
      | order _ _ ha hb =>
          rcases iha ha with ⟨hm, rfl⟩
          rcases ihb hb with ⟨hn, rfl⟩
          cases hm
          cases hn
          exact ⟨rfl, rfl⟩
  | andFalse b _ iha =>
      cases hy with
      | andFalse _ ha => exact ⟨rfl, (iha ha).2⟩
      | andTrue ha _ => cases (iha ha).1
  | andTrue _ _ iha ihb =>
      cases hy with
      | andFalse _ ha => cases (iha ha).1
      | andTrue ha hb =>
          rcases iha ha with ⟨_, rfl⟩
          rcases ihb hb with ⟨hp, rfl⟩
          exact ⟨hp, rfl⟩
  | orTrue b _ iha =>
      cases hy with
      | orTrue _ ha => exact ⟨rfl, (iha ha).2⟩
      | orFalse ha _ => cases (iha ha).1
  | orFalse _ _ iha ihb =>
      cases hy with
      | orTrue _ ha => cases (iha ha).1
      | orFalse ha hb =>
          rcases iha ha with ⟨_, rfl⟩
          rcases ihb hb with ⟨hp, rfl⟩
          exact ⟨hp, rfl⟩
  | not _ iha =>
      cases hy with
      | not ha =>
          rcases iha ha with ⟨hp, rfl⟩
          cases hp
          exact ⟨rfl, rfl⟩

/-- A value that is returned is the exact one, and all results on the way fit. -/
theorem exact_of_eval (s : Store) (e : Expr) (value : Value) (h : eval s e = .ok value) :
    ∃ met, Exact s e value.exact met ∧ ∀ n ∈ met, Fits n := by
  -- By induction on the expression. What is met on the two sides is joined in the order of
  -- evaluation.
  induction e generalizing value with
  | num n =>
      cases h
      exact ⟨[], .num n, List.forall_mem_nil _⟩
  | bool b =>
      cases h
      exact ⟨[], .bool b, List.forall_mem_nil _⟩
  | str t =>
      cases h
      exact ⟨[], .str t, List.forall_mem_nil _⟩
  | var v =>
      rw [eval, Store.read] at h
      split at h
      next w hw =>
        cases h
        exact ⟨[], .var v value hw, List.forall_mem_nil _⟩
      next => cases h
  | arith op a b iha ihb =>
      rcases (eval_arith_ok s a b value op).mp h with ⟨m, n, r, hm, hn, hr, rfl⟩
      rcases iha _ hm with ⟨xs, ha, hxs⟩
      rcases ihb _ hn with ⟨ys, hb, hys⟩
      -- The result was returned, so it was converted to 64 bits and hence fits.
      have hresult := List.forall_mem_singleton.mpr ((fits_iff _).mpr ⟨r, hr⟩)
      refine ⟨xs ++ ys ++ [op.apply m.toInt n.toInt], ?_, List.forall_mem_append.mpr
        ⟨List.forall_mem_append.mpr ⟨hxs, hys⟩, hresult⟩⟩
      rw [Value.exact, toInt_toInt64? _ r hr]
      exact .arith op ha hb
  | cmp op a b iha ihb =>
      by_cases hop : op = .eq
      · subst hop
        rcases (eval_eq_ok s a b value).mp h with ⟨x, y, hx, hy, rfl⟩
        rcases iha x hx with ⟨xs, ha, hxs⟩
        rcases ihb y hy with ⟨ys, hb, hys⟩
        -- Equality of values is equality of what they stand for, so it may be asked for of values
        -- of any types.
        have hsame : (x == y) = (x.exact == y.exact) :=
          decide_eq_decide.mpr (Value.exact_inj x y).symm
        rw [hsame]
        exact ⟨xs ++ ys, .eq ha hb, List.forall_mem_append.mpr ⟨hxs, hys⟩⟩
      · rcases (eval_order_ok s a b value op hop).mp h with ⟨m, n, hm, hn, rfl⟩
        rcases iha _ hm with ⟨xs, ha, hxs⟩
        rcases ihb _ hn with ⟨ys, hb, hys⟩
        exact ⟨xs ++ ys, .order op hop ha hb, List.forall_mem_append.mpr ⟨hxs, hys⟩⟩
  | and a b iha ihb =>
      rcases (eval_and_ok s a b value).mp h with ⟨hp, rfl⟩ | ⟨hp, q, hq, rfl⟩
      · rcases iha _ hp with ⟨xs, ha, hxs⟩
        exact ⟨xs, .andFalse b ha, hxs⟩
      · rcases iha _ hp with ⟨xs, ha, hxs⟩
        rcases ihb _ hq with ⟨ys, hb, hys⟩
        exact ⟨xs ++ ys, .andTrue ha hb, List.forall_mem_append.mpr ⟨hxs, hys⟩⟩
  | or a b iha ihb =>
      rcases (eval_or_ok s a b value).mp h with ⟨hp, rfl⟩ | ⟨hp, q, hq, rfl⟩
      · rcases iha _ hp with ⟨xs, ha, hxs⟩
        exact ⟨xs, .orTrue b ha, hxs⟩
      · rcases iha _ hp with ⟨xs, ha, hxs⟩
        rcases ihb _ hq with ⟨ys, hb, hys⟩
        exact ⟨xs ++ ys, .orFalse ha hb, List.forall_mem_append.mpr ⟨hxs, hys⟩⟩
  | not a iha =>
      rcases (eval_not_ok s a value).mp h with ⟨p, hp, rfl⟩
      rcases iha _ hp with ⟨xs, ha, hxs⟩
      exact ⟨xs, .not ha, hxs⟩
  -- What is asked of actors is not evaluated at all, so no value was returned.
  | _ => cases h

/-- Evaluation follows the exact one as long as the results fit. -/
theorem eval_of_exact {s : Store} {e : Expr} {x : Datum} {met : List Int} (h : Exact s e x met)
    (hfits : ∀ n ∈ met, Fits n) : ∃ value, eval s e = .ok value ∧ value.exact = x := by
  -- By induction on the exact evaluation. Each side gets the results that were met on it, and they
  -- fit as all of them do.
  induction h with
  | num n => exact ⟨.int n, rfl, rfl⟩
  | bool b => exact ⟨.bool b, rfl, rfl⟩
  | str t => exact ⟨.str t, rfl, rfl⟩
  | var v value hvalue =>
      refine ⟨value, ?_, rfl⟩
      rw [eval, Store.read, hvalue]
  | arith op ha hb iha ihb =>
      rw [List.forall_mem_append, List.forall_mem_append, List.forall_mem_singleton] at hfits
      rcases iha hfits.1.1 with ⟨left, hleft, hm⟩
      rcases ihb hfits.1.2 with ⟨right, hright, hn⟩
      rcases (left.exact_eq_int _).mp hm with ⟨m, rfl, rfl⟩
      rcases (right.exact_eq_int _).mp hn with ⟨n, rfl, rfl⟩
      rcases (fits_iff _).mp hfits.2 with ⟨r, hr⟩
      refine ⟨.int r, (eval_arith_ok s _ _ _ op).mpr ⟨m, n, r, hleft, hright, hr, rfl⟩, ?_⟩
      rw [Value.exact, toInt_toInt64? _ r hr]
  | eq ha hb iha ihb =>
      rw [List.forall_mem_append] at hfits
      rcases iha hfits.1 with ⟨left, hleft, rfl⟩
      rcases ihb hfits.2 with ⟨right, hright, rfl⟩
      refine ⟨_, (eval_eq_ok s _ _ _).mpr ⟨left, right, hleft, hright, rfl⟩, ?_⟩
      exact congrArg Datum.bool (decide_eq_decide.mpr (Value.exact_inj left right).symm)
  | order op hop ha hb iha ihb =>
      rw [List.forall_mem_append] at hfits
      rcases iha hfits.1 with ⟨left, hleft, hm⟩
      rcases ihb hfits.2 with ⟨right, hright, hn⟩
      rcases (left.exact_eq_int _).mp hm with ⟨m, rfl, rfl⟩
      rcases (right.exact_eq_int _).mp hn with ⟨n, rfl, rfl⟩
      exact ⟨_, (eval_order_ok s _ _ _ op hop).mpr ⟨m, n, hleft, hright, rfl⟩, rfl⟩
  | andFalse b ha iha =>
      rcases iha hfits with ⟨left, hleft, hp⟩
      rw [(left.exact_eq_bool _).mp hp] at hleft
      exact ⟨_, (eval_and_ok s _ b _).mpr (Or.inl ⟨hleft, rfl⟩), rfl⟩
  | andTrue ha hb iha ihb =>
      rw [List.forall_mem_append] at hfits
      rcases iha hfits.1 with ⟨left, hleft, hp⟩
      rcases ihb hfits.2 with ⟨right, hright, hq⟩
      rw [(left.exact_eq_bool _).mp hp] at hleft
      rw [(right.exact_eq_bool _).mp hq] at hright
      exact ⟨_, (eval_and_ok s _ _ _).mpr (Or.inr ⟨hleft, _, hright, rfl⟩), rfl⟩
  | orTrue b ha iha =>
      rcases iha hfits with ⟨left, hleft, hp⟩
      rw [(left.exact_eq_bool _).mp hp] at hleft
      exact ⟨_, (eval_or_ok s _ b _).mpr (Or.inl ⟨hleft, rfl⟩), rfl⟩
  | orFalse ha hb iha ihb =>
      rw [List.forall_mem_append] at hfits
      rcases iha hfits.1 with ⟨left, hleft, hp⟩
      rcases ihb hfits.2 with ⟨right, hright, hq⟩
      rw [(left.exact_eq_bool _).mp hp] at hleft
      rw [(right.exact_eq_bool _).mp hq] at hright
      exact ⟨_, (eval_or_ok s _ _ _).mpr (Or.inr ⟨hleft, _, hright, rfl⟩), rfl⟩
  | not ha iha =>
      rcases iha hfits with ⟨operand, hoperand, hp⟩
      rw [(operand.exact_eq_bool _).mp hp] at hoperand
      exact ⟨_, (eval_not_ok s _ _).mpr ⟨_, hoperand, rfl⟩, rfl⟩

theorem Datum.int_of_type (x : Datum) (h : x.type = .number) : ∃ n, x = .int n := by
  cases x with
  | int n => exact ⟨n, rfl⟩
  | bool b => cases h
  | str t => cases h

theorem Datum.bool_of_type (x : Datum) (h : x.type = .boolean) : ∃ b, x = .bool b := by
  cases x with
  | bool b => exact ⟨b, rfl⟩
  | int n => cases h
  | str t => cases h

/-- A well-typed expression has an exact value, of its type, if every cell that it reads and that
    was written holds a value of the type it is read at. -/
theorem HasType.exists_exact (s : Store) {e : Expr} {t : DataType} (h : HasType e t)
    (hreads : ∀ v, Reads s e v → ∀ value, s[v.cellName]? = some value → value.exact.type = v.type) :
    ∃ x met, Exact s e x met ∧ x.type = t := by
  -- By induction on the typing. Where a side is not entered its variables need not be read, which
  -- is why the premise is about reads.
  induction h with
  | num n => exact ⟨_, _, .num n, rfl⟩
  | bool b => exact ⟨_, _, .bool b, rfl⟩
  | str u => exact ⟨_, _, .str u, rfl⟩
  | var v hactor =>
      cases hcell : s[v.cellName]? with
      | some value =>
          refine ⟨_, _, .var v value ?_, hreads v (.var v) value hcell⟩
          rw [hcell, Option.some_or]
      -- A cell that was never written reads as the default, which is of the right type.
      | none =>
          rcases Value.exists_default v.type hactor with ⟨value, hvalue⟩
          refine ⟨_, _, .var v value ?_, Value.type_of_default _ value hvalue⟩
          rw [hcell, Option.none_or, hvalue]
  | arith op _ _ iha ihb =>
      rcases iha fun v hv => hreads v (.arithLeft op _ hv) with ⟨x, xs, ha, hx⟩
      rcases ihb fun v hv => hreads v (.arithRight op _ hv) with ⟨y, ys, hb, hy⟩
      rcases x.int_of_type hx with ⟨m, rfl⟩
      rcases y.int_of_type hy with ⟨n, rfl⟩
      exact ⟨_, _, .arith op ha hb, rfl⟩
  | eq _ _ iha ihb =>
      rcases iha fun v hv => hreads v (.cmpLeft _ _ hv) with ⟨x, xs, ha, _⟩
      rcases ihb fun v hv => hreads v (.cmpRight _ _ hv) with ⟨y, ys, hb, _⟩
      exact ⟨_, _, .eq ha hb, rfl⟩
  | order op hop _ _ iha ihb =>
      rcases iha fun v hv => hreads v (.cmpLeft op _ hv) with ⟨x, xs, ha, hx⟩
      rcases ihb fun v hv => hreads v (.cmpRight op _ hv) with ⟨y, ys, hb, hy⟩
      rcases x.int_of_type hx with ⟨m, rfl⟩
      rcases y.int_of_type hy with ⟨n, rfl⟩
      exact ⟨_, _, .order op hop ha hb, rfl⟩
  | and _ _ iha ihb =>
      rcases iha fun v hv => hreads v (.andLeft _ hv) with ⟨x, xs, ha, hx⟩
      rcases x.bool_of_type hx with ⟨p, rfl⟩
      cases p with
      -- The right side is not entered, so nothing is known of what it would read.
      | false => exact ⟨_, _, .andFalse _ ha, rfl⟩
      | true =>
          rcases ihb fun v hv => hreads v (.andRight ha hv) with ⟨y, ys, hb, hy⟩
          rcases y.bool_of_type hy with ⟨q, rfl⟩
          exact ⟨_, _, .andTrue ha hb, rfl⟩
  | or _ _ iha ihb =>
      rcases iha fun v hv => hreads v (.orLeft _ hv) with ⟨x, xs, ha, hx⟩
      rcases x.bool_of_type hx with ⟨p, rfl⟩
      cases p with
      | true => exact ⟨_, _, .orTrue _ ha, rfl⟩
      | false =>
          rcases ihb fun v hv => hreads v (.orRight ha hv) with ⟨y, ys, hb, hy⟩
          rcases y.bool_of_type hy with ⟨q, rfl⟩
          exact ⟨_, _, .orFalse ha hb, rfl⟩
  | not _ iha =>
      rcases iha fun v hv => hreads v (.not hv) with ⟨x, xs, ha, hx⟩
      rcases x.bool_of_type hx with ⟨p, rfl⟩
      exact ⟨_, _, .not ha, rfl⟩

/-- Evaluation never wraps. A value that it returns is that of the expression over unbounded
    integers, which has only one. If the expression is well typed and not about actors, and the
    cells it reads hold values of the right types, then it has an exact value, and evaluation fails
    exactly if on the way to it some sum, difference or product is out of range. -/
theorem eval_exact (s : Store) (e : Expr) :
    (∀ value, eval s e = .ok value →
      ∃ met, Exact s e value.exact met ∧ ∀ x xs, Exact s e x xs → x = value.exact ∧ xs = met)
    ∧ ∀ t, HasType e t →
      (∀ v, Reads s e v → ∀ value, s[v.cellName]? = some value → value.exact.type = v.type) →
      ∃ x met, Exact s e x met ∧ (∀ y ys, Exact s e y ys → y = x ∧ ys = met)
        ∧ ((∃ failure, eval s e = .error failure) ↔ ∃ n ∈ met, ¬Fits n) := by
  refine ⟨fun value h => ?_, fun t htype hreads => ?_⟩
  · rcases exact_of_eval s e value h with ⟨met, hexact, _⟩
    exact ⟨met, hexact, fun x xs hx => hexact.unique hx⟩
  · rcases htype.exists_exact s hreads with ⟨x, met, hexact, _⟩
    refine ⟨x, met, hexact, fun y ys hy => hexact.unique hy, ?_, ?_⟩
    · rintro ⟨failure, hfailure⟩
      -- If everything that is met fits, evaluation follows and does not fail.
      by_contra hnone
      have hfits : ∀ n ∈ met, Fits n := fun n hn => by_contra fun hnot => hnone ⟨n, hn, hnot⟩
      rcases eval_of_exact hexact hfits with ⟨value, hvalue, _⟩
      cases hfailure.symm.trans hvalue
    · rintro ⟨n, hn, hnot⟩
      cases heval : eval s e with
      | error failure => exact ⟨failure, rfl⟩
      | ok value =>
          -- A value would only be returned if what is met fits, and what is met is the same each
          -- time.
          rcases exact_of_eval s e value heval with ⟨met', hexact', hfits⟩
          rw [(hexact'.unique hexact).2] at hn
          exact absurd (hfits n hn) hnot

/-- The counter is not negative, and yet its successor is. -/
def successorGuard : Expr :=
  .and (.cmp .le (.num 0) (.var ⟨"n", .number, .global⟩))
    (.cmp .lt (.arith .add (.var ⟨"n", .number, .global⟩) (.num 1)) (.num 0))

/-- The counter has reached the greatest integer of 64 bits. -/
def counterAtMax : Store := (∅ : Store).insert "n" (.int 9223372036854775807)

/-- The left side is true, so the sum on the right is met. It has no place in 64 bits, and
    evaluation fails instead of finding the successor to be negative. -/
theorem eval_exact_successorGuard :
    HasType successorGuard .boolean
      ∧ (∀ v, Reads counterAtMax successorGuard v →
        ∀ value, counterAtMax[v.cellName]? = some value → value.exact.type = v.type)
      ∧ Exact counterAtMax successorGuard (.bool false) [9223372036854775808]
      ∧ ∃ failure, eval counterAtMax successorGuard = .error failure := by
  have htype : HasType successorGuard .boolean :=
    .and (.order .le (by decide) (.num 0) (.var _ (by decide)))
      (.order .lt (by decide) (.arith .add (.var _ (by decide)) (.num 1)) (.num 0))
  have hcell : counterAtMax["n"]? = some (.int 9223372036854775807) :=
    Std.ExtTreeMap.getElem?_insert_self
  -- The counter is the only variable, and its cell holds a number.
  have hreads : ∀ v, Reads counterAtMax successorGuard v →
      ∀ value, counterAtMax[v.cellName]? = some value → value.exact.type = v.type := by
    intro v hv value hvalue
    have hcounter : v = ⟨"n", .number, .global⟩ := by
      cases hv with
      | andLeft _ hv =>
          cases hv with
          | cmpLeft _ _ hv => cases hv
          | cmpRight _ _ hv =>
              cases hv
              rfl
      | andRight _ hv =>
          cases hv with
          | cmpLeft _ _ hv =>
              cases hv with
              | arithLeft _ _ hv =>
                  cases hv
                  rfl
              | arithRight _ _ hv => cases hv
          | cmpRight _ _ hv => cases hv
    subst hcounter
    cases hcell.symm.trans hvalue
    rfl
  have hvar : Exact counterAtMax (.var ⟨"n", .number, .global⟩) (.int 9223372036854775807) [] :=
    .var _ (.int 9223372036854775807) (by
      change (counterAtMax["n"]?).or _ = _
      rw [hcell]
      rfl)
  have hexact : Exact counterAtMax successorGuard (.bool false) [9223372036854775808] :=
    .andTrue (.order .le (by decide) (.num 0) hvar)
      (.order .lt (by decide) (.arith .add hvar (.num 1)) (.num 0))
  -- What is met on the way to the one exact value is this sum, which does not fit.
  rcases (eval_exact counterAtMax successorGuard).2 .boolean htype hreads with
    ⟨x, met, _, hunique, hfails⟩
  rcases hunique _ _ hexact with ⟨_, rfl⟩
  refine ⟨htype, hreads, hexact, hfails.mpr ⟨_, List.mem_singleton_self _, ?_⟩⟩
  unfold Fits
  decide

/-- The left side decides, so the sum that is too large is not met. -/
example : eval ∅ (.and (.bool false) (.cmp .lt
    (.arith .add (.num 9223372036854775807) (.num 1)) (.num 0))) = .ok (.bool false) := by
  rfl

end ActorCheck
