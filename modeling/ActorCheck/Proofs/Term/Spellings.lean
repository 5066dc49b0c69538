import ActorCheck.Proofs.Term.ZeroOffsets
import Mathlib.Data.Nat.Digits.Defs

/-!
# Spellings of Instances

Which texts are read as an instance, and as which one. An instance can be spelled in more ways than
the one in which it is written: the digits may begin with zeros, and a plus sign may stand before
them. The base may contain separators, and may even look like an instance itself.

Reading goes from the outside to the inside, and so do the proofs. The last separator divides a text
in one way only, because nothing after it is a separator. What follows has to spell an index, which
is a matter of the sign and then of the digits alone. Their value is computed digit by digit from
the front. Read from the back it is a sum of powers of ten, which is how it is meant.

## Main definitions

* `decimalValue`: What decimal digits are worth.
* `SpellsNumber`, `SpellsIndex`, `SpellsInstance`: Which texts spell what.

## Theorems

* `ofDigitChars_eq_decimalValue`: The value of digits that are read from the front.
* `readIndex_eq_some_iff`: What is read as an index.
* `splitLast_eq_some_iff`: How a text is divided.
* `splitInstance_eq_some_iff`: What is read as an instance.
* `instances_decoded`: Names are decoded exactly.
-/

namespace ActorCheck

/-- What decimal digits are worth: the last one counts ones, the one before it tens. -/
def decimalValue (digits : List Char) : Nat :=
  Nat.ofDigits 10 (digits.reverse.map fun c => c.toNat - '0'.toNat)

/-- A text spells a number if it consists of decimal digits, at least one, that are worth it. -/
structure SpellsNumber (digits : List Char) (n : Nat) : Prop where
  nonempty : digits ≠ []
  decimal : ∀ c ∈ digits, '0' ≤ c ∧ c ≤ '9'
  value : decimalValue digits = n

/-- A text spells an index if it spells its number, perhaps after a plus sign. -/
inductive SpellsIndex (k : UInt32) : List Char → Prop
  | plain (digits : List Char) (h : SpellsNumber digits k.toNat) : SpellsIndex k digits
  | signed (digits : List Char) (h : SpellsNumber digits k.toNat) : SpellsIndex k ('+' :: digits)

/-- A text spells an instance if it consists of the base, which is not empty, the separator and a
    spelling of the index. -/
structure SpellsInstance (name base : String) (k : UInt32) : Prop where
  base_ne_empty : base ≠ ""
  index : ∃ text, SpellsIndex k text ∧ name = base ++ "@" ++ String.ofList text

section Numbers

theorem decimalValue_cons (c : Char) (digits : List Char) :
    decimalValue (c :: digits)
      = 10 ^ digits.length * (c.toNat - '0'.toNat) + decimalValue digits := by
  unfold decimalValue
  rw [List.reverse_cons, List.map_append, Nat.ofDigits_append, List.length_map,
    List.length_reverse, List.map_singleton, Nat.ofDigits_singleton, Nat.add_comm]

/-- Reading digits from the front gives the sum of powers of ten. -/
theorem ofDigitChars_eq_decimalValue (digits : List Char) :
    Nat.ofDigitChars 10 digits 0 = decimalValue digits := by
  induction digits with
  | nil => rfl
  | cons c digits ih =>
      rw [Nat.ofDigitChars_cons, Nat.ofDigitChars_eq_ofDigitChars_zero, ih, decimalValue_cons,
        Nat.mul_zero, Nat.zero_add]

theorem isDigit_iff (c : Char) : c.isDigit = true ↔ '0' ≤ c ∧ c ≤ '9' := by
  rw [Char.isDigit, Bool.and_eq_true, decide_eq_true_eq, decide_eq_true_eq, Char.le_def,
    Char.le_def, ge_iff_le]

theorem indexOfNat?_eq_some_iff (n : Nat) (k : UInt32) : indexOfNat? n = some k ↔ n = k.toNat := by
  -- Only numbers that fit are read, so the index is worth the number.
  refine ⟨fun h => (toNat_of_indexOfNat? n k h).symm, ?_⟩
  rintro rfl
  exact indexOfNat?_toNat k

theorem readDigits_eq_some_iff (digits : List Char) (k : UInt32) :
    readDigits digits = some k ↔ SpellsNumber digits k.toNat := by
  unfold readDigits
  split
  next hbad =>
    -- Nothing is read from a text that is empty or has something else in it than digits, and such a
    -- text spells no number.
    refine ⟨nofun, fun h => ?_⟩
    rw [Bool.or_eq_true, List.isEmpty_iff, Bool.not_eq_true', ← Bool.not_eq_true,
      List.all_eq_true] at hbad
    rcases hbad with hempty | hother
    · exact absurd hempty h.nonempty
    · exact absurd (fun c hc => (isDigit_iff c).mpr (h.decimal c hc)) hother
  next hgood =>
    rw [Bool.or_eq_true, not_or, List.isEmpty_iff, Bool.not_eq_true', Bool.not_eq_false,
      List.all_eq_true] at hgood
    rw [indexOfNat?_eq_some_iff, ofDigitChars_eq_decimalValue]
    exact ⟨fun h => ⟨hgood.1, fun c hc => (isDigit_iff c).mp (hgood.2 c hc), h⟩, fun h => h.value⟩

/-- What is read as an index. A sign is no digit, so there is only one way to read it. -/
theorem readIndex_eq_some_iff (text : List Char) (k : UInt32) :
    readIndex text = some k ↔ SpellsIndex k text := by
  have hsign (digits : List Char) : ¬ SpellsNumber ('+' :: digits) k.toNat := fun h =>
    absurd (h.decimal '+' List.mem_cons_self) (by decide)
  unfold readIndex
  split
  next digits =>
    rw [readDigits_eq_some_iff]
    refine ⟨SpellsIndex.signed digits, fun h => ?_⟩
    cases h with
    | plain _ h => exact absurd h (hsign digits)
    | signed _ h => exact h
  next hplain =>
    rw [readDigits_eq_some_iff]
    refine ⟨SpellsIndex.plain text, fun h => ?_⟩
    cases h with
    | plain _ h => exact h
    | signed digits _ => exact absurd rfl (hplain digits)

end Numbers

section Names

/-- A text is divided at a separator after which there is no other one. -/
theorem splitLast_eq_some_iff (sep : Char) (cs before after : List Char) :
    splitLast sep cs = some (before, after) ↔ cs = before ++ sep :: after ∧ sep ∉ after := by
  refine ⟨fun h => ?_, ?_⟩
  -- The search goes from the right, as far as a later separator is preferred to an earlier one.
  · induction cs generalizing before with
    | nil => cases h
    | cons c cs ih =>
        unfold splitLast at h
        split at h
        next before' after' hlater =>
          cases h
          rcases ih before' hlater with ⟨rfl, hafter⟩
          exact ⟨rfl, hafter⟩
        next hnone =>
          split at h
          next heq =>
            cases h
            exact ⟨congrArg (fun c => c :: after) heq, (splitLast_eq_none_iff sep after).mp hnone⟩
          next => cases h
  · rintro ⟨rfl, hafter⟩
    exact splitLast_append sep before after hafter

/-- An index is spelled without separators. -/
theorem separator_not_mem_index (k : UInt32) (text : List Char) (h : SpellsIndex k text) :
    instanceSeparator ∉ text := by
  have hdigits (digits : List Char) (h : SpellsNumber digits k.toNat) :
      instanceSeparator ∉ digits := fun hmem => absurd (h.decimal _ hmem) (by decide)
  cases h with
  | plain _ h => exact hdigits text h
  | signed digits h => exact List.not_mem_cons_of_ne_of_not_mem (by decide) (hdigits digits h)

theorem toList_spelled (base : String) (text : List Char) :
    (base ++ "@" ++ String.ofList text).toList = base.toList ++ instanceSeparator :: text := by
  simp only [String.toList_append, String.toList_ofList, List.append_assoc]
  rfl

/-- What is read as an instance, and as which one. -/
theorem splitInstance_eq_some_iff (name base : String) (k : UInt32) :
    splitInstance name = .ok (some (base, k)) ↔ SpellsInstance name base k := by
  constructor
  · intro h
    refine ⟨base_ne_empty_of_splitInstance name base k h, ?_⟩
    unfold splitInstance at h
    split at h
    next => cases h
    next before index hsplit =>
      split at h
      next => cases h
      next => cases h
      next hindex =>
        cases h
        -- Two texts are the same if their characters are, and the division puts these back
        -- together.
        refine ⟨index, (readIndex_eq_some_iff index k).mp hindex, String.toList_injective ?_⟩
        rw [toList_spelled, String.toList_ofList]
        exact ((splitLast_eq_some_iff _ _ _ _).mp hsplit).1
  · rintro ⟨hbase, text, htext, rfl⟩
    unfold splitInstance
    rw [toList_spelled, splitLast_append _ _ _ (separator_not_mem_index k text htext)]
    dsimp only
    rw [(readIndex_eq_some_iff text k).mpr htext]
    -- The base has characters, so what comes before the separator is not empty either.
    cases hchars : base.toList with
    | nil => exact absurd (String.toList_eq_nil_iff.mp hchars) hbase
    | cons c cs =>
        dsimp only
        rw [← hchars, String.ofList_toList]

/-- A name that is neither plain nor an instance is refused as malformed. -/
theorem splitInstance_cases (name : String) :
    splitInstance name = .ok none ∨ (∃ base k, splitInstance name = .ok (some (base, k)))
      ∨ splitInstance name = .error (.malformedName name) := by
  unfold splitInstance
  split
  next => exact Or.inl rfl
  next =>
    split
    next => exact Or.inr (Or.inr rfl)
    next => exact Or.inr (Or.inr rfl)
    next => exact Or.inr (Or.inl ⟨_, _, rfl⟩)

end Names

/-- Names are decoded exactly. The name of an instance is read back as base and index, whatever the
    base looks like. A text is no instance exactly if it has no separator. It is read as the
    instance that it spells, and a text with a separator that spells no instance is refused as
    malformed. -/
theorem instances_decoded :
    (∀ (base : String) (k : UInt32), base ≠ "" →
        splitInstance (instanceName base k) = .ok (some (base, k)))
      ∧ ∀ name : String,
        (splitInstance name = .ok none ↔ '@' ∉ name.toList)
        ∧ (∀ base k, splitInstance name = .ok (some (base, k)) ↔ SpellsInstance name base k)
        ∧ (splitInstance name = .error (.malformedName name)
          ↔ '@' ∈ name.toList ∧ ∀ base k, ¬ SpellsInstance name base k) := by
  refine ⟨splitInstance_nameAt, fun name => ?_⟩
  have hplain : splitInstance name = .ok none ↔ '@' ∉ name.toList :=
    ⟨plain_of_splitInstance name, splitInstance_plain name⟩
  refine ⟨hplain, splitInstance_eq_some_iff name, fun h => ⟨?_, fun base k hspelled => ?_⟩, ?_⟩
  -- Each of the three answers rules out the other two.
  · by_contra hmem
    rw [hplain.mpr hmem] at h
    cases h
  · rw [(splitInstance_eq_some_iff name base k).mpr hspelled] at h
    cases h
  · rintro ⟨hmem, hnone⟩
    rcases splitInstance_cases name with h | ⟨base, k, h⟩ | h
    · exact absurd hmem (hplain.mp h)
    · exact absurd ((splitInstance_eq_some_iff name base k).mp h) (hnone base k)
    · exact h

/-- A base that looks like an instance, with the greatest index, and a padded index with a sign. -/
theorem instances_decoded_nested :
    "x@7" ≠ "" ∧ splitInstance (instanceName "x@7" 4294967295) = .ok (some ("x@7", 4294967295))
      ∧ splitInstance "x@+007" = .ok (some ("x", 7)) := by
  have hdigits : ['0', '0', '7'].all Char.isDigit = true := by decide
  have hnumber : SpellsNumber ['0', '0', '7'] (7 : UInt32).toNat :=
    ⟨by decide, fun c hc => (isDigit_iff c).mp (List.all_eq_true.mp hdigits c hc), by decide⟩
  have hspelled : SpellsInstance "x@+007" "x" 7 :=
    ⟨by decide, ['+', '0', '0', '7'], .signed ['0', '0', '7'] hnumber, by decide⟩
  exact ⟨by decide, instances_decoded.1 "x@7" 4294967295 (by decide),
    ((instances_decoded.2 "x@+007").2.1 "x" 7).mpr hspelled⟩

end ActorCheck
