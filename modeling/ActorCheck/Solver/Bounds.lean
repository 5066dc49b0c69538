import ActorCheck.Integer
import ActorCheck.Solver.Literal
import Std.Data.ExtTreeSet

/-!
# Intervals with Excluded Points

What a list of bound literals says about one integer variable: a least and a
greatest value, either of which may be absent, and finitely many values in
between that are excluded.

An excluded value at an end of the interval moves that end, which may uncover
the next excluded value. `tighten` carries this to its conclusion. As the
excluded values are sorted, one pass upwards settles the lower end and one
pass downwards the upper one. Afterwards the interval is empty exactly when
its ends cross, because with an open end infinitely many values remain.

Bounds are unbounded integers: `x > n` for the greatest literal has the least
value one beyond the range, and a literal that states such a bound again has
to be the strict comparison.

## Main definitions

* `Bounds`: An interval with excluded points.
* `Bounds.restrict`: Intersect with one literal.
* `Bounds.tighten`: The ends after skipping excluded values, unless empty.
* `Bounds.literals`: The bounds as formulas.
-/

namespace ActorCheck

/-- An integer interval with finitely many excluded points. An absent end is
    unbounded. -/
structure Bounds where
  lo : Option Int
  hi : Option Int
  excluded : Std.ExtTreeSet Int
  deriving DecidableEq

namespace Bounds

/-- All integers. -/
def full : Bounds := ⟨none, none, ∅⟩

/-- Raise the lower end to at least `n`. -/
def raise (b : Bounds) (n : Int) : Bounds :=
  { b with lo := some ((b.lo.map fun l => max l n).getD n) }

/-- Lower the upper end to at most `n`. -/
def lower (b : Bounds) (n : Int) : Bounds :=
  { b with hi := some ((b.hi.map fun h => min h n).getD n) }

/-- Exclude a value. -/
def exclude (b : Bounds) (n : Int) : Bounds :=
  { b with excluded := b.excluded.insert n }

/-- Keep the values that stand in a relation to `n`. -/
def restrict (b : Bounds) (rel : BoundRel) (n : Int) : Bounds :=
  match rel with
  | .eq => (b.raise n).lower n
  | .ne => b.exclude n
  | .lt => b.lower (n - 1)
  | .le => b.lower n
  | .gt => b.raise (n + 1)
  | .ge => b.raise n

/-- The least value from `l` upwards that is not among ascending points. -/
def skipUp (points : List Int) (l : Int) : Int :=
  points.foldl (fun cur p => if cur = p then cur + 1 else cur) l

/-- The greatest value from `h` downwards that is not among ascending
    points. -/
def skipDown (points : List Int) (h : Int) : Int :=
  points.foldr (fun p cur => if cur = p then cur - 1 else cur) h

/-- The ends after skipping excluded values, or `none` if no value is left. -/
def tighten (b : Bounds) : Option (Option Int × Option Int) :=
  let points := b.excluded.toList
  let lo := b.lo.map (skipUp points)
  let hi := b.hi.map (skipDown points)
  match lo, hi with
  | some l, some h => if h < l then none else some (lo, hi)
  | _, _ => some (lo, hi)

/-- The formula that a variable is at least `l`. Beyond the greatest literal
    only a strict comparison can say so. -/
def atLeast (var : String) (l : Int) : Term :=
  match toInt64? l with
  | some n => .cmp .ge (.var var) (.int n)
  | none => .cmp .gt (.var var) (.int Int64.maxValue)

/-- The formula that a variable is at most `h`. Beyond the least literal only
    a strict comparison can say so. -/
def atMost (var : String) (h : Int) : Term :=
  match toInt64? h with
  | some n => .cmp .le (.var var) (.int n)
  | none => .cmp .lt (.var var) (.int Int64.minValue)

/-- The formula that a variable equals the only value of an interval, if the
    interval has one value and a literal denotes it. -/
def pinned? (var : String) (lo hi : Option Int) : Option Term :=
  match lo, hi with
  | some l, some h =>
    if l = h then (toInt64? l).map fun n => .cmp .eq (.var var) (.int n) else none
  | _, _ => none

/-- A point lies strictly inside an interval. -/
def isInside (lo hi : Option Int) (p : Int) : Bool :=
  lo.all (· < p) && hi.all (p < ·)

/-- The formulas that exclude the points inside an interval. -/
def exclusions (var : String) (lo hi : Option Int) (points : List Int) : List Term :=
  points.filterMap fun p =>
    if isInside lo hi p then
      (toInt64? p).map fun n => .not (.cmp .eq (.var var) (.int n))
    else none

/-- The bounds of a variable as formulas, or `none` if no value is left. -/
def literals (var : String) (b : Bounds) : Option (List Term) :=
  b.tighten.map fun (lo, hi) =>
    match pinned? var lo hi with
    | some t => [t]
    | none =>
      (lo.map (atLeast var)).toList ++ (hi.map (atMost var)).toList
        ++ exclusions var lo hi b.excluded.toList

end Bounds

end ActorCheck
