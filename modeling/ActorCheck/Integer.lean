/-!
# The Range of Machine Integers

Programs compute with 64-bit integers and report a result that does not fit
instead of wrapping. All intermediate arithmetic of this library is therefore
done on unbounded integers, and the one way back is `toInt64?`, which refuses
a number outside the range.

## Main definitions

* `toInt64?`: The 64-bit integer of a number, if it fits.

## Theorems

* `toInt_toInt64?`: Conversion keeps the value.
* `toInt64?_toInt`: Every 64-bit integer is converted back.
-/

namespace ActorCheck

/-- The 64-bit integer that denotes a number, if the number is in range. -/
def toInt64? (n : Int) : Option Int64 :=
  if Int64.minValue.toInt ≤ n ∧ n ≤ Int64.maxValue.toInt then some (Int64.ofInt n) else none

/-- The conversion keeps the value. -/
theorem toInt_toInt64? (n : Int) (m : Int64) (h : toInt64? n = some m) : m.toInt = n := by
  unfold toInt64? at h
  split at h
  · rename_i hn
    rw [← Option.some.inj h]
    exact Int64.toInt_ofInt_of_le hn.1 (Int.lt_add_one_iff.mpr hn.2)
  · exact absurd h (by simp only [reduceCtorEq, not_false_eq_true])

/-- Every 64-bit integer is converted back to itself. -/
theorem toInt64?_toInt (m : Int64) : toInt64? m.toInt = some m := by
  unfold toInt64?
  rw [if_pos ⟨Int64.minValue_le_toInt m, Int64.toInt_le m⟩, Int64.ofInt_toInt]

end ActorCheck
