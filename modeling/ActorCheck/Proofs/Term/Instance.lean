import ActorCheck.Term.Instance

/-!
# Reading Names Back

The name of an instance is its base, the separator, and its index in decimal
digits. Digits contain no separator, so the last separator of the name is the one
that was put there, whatever the base looks like, and the name can be read back.

An instance is given here by a natural number, since sums of indices are easier to
speak about before it is known that they fit 32 bits.

## Main definitions

* `nameAt`: The name of an instance with any index.
* `readName`: Base name and index of a name with a separator.

## Theorems

* `splitLast_append`: The last separator is found.
* `readName_nameAt`: Names are read back.
* `splitInstance_plain`, `splitInstance_nameAt`: What the checked reading says.
-/

namespace ActorCheck

theorem splitLast_eq_none (sep : Char) (cs : List Char) (h : sep ∉ cs) :
    splitLast sep cs = none := by
  induction cs with
  | nil => rfl
  | cons c cs ih =>
      rw [List.mem_cons, not_or] at h
      rw [splitLast, ih h.2]
      exact if_neg (Ne.symm h.1)

/-- The separator before which everything else comes and after which there is no
    other one. -/
theorem splitLast_append (sep : Char) (before after : List Char) (h : sep ∉ after) :
    splitLast sep (before ++ sep :: after) = some (before, after) := by
  induction before with
  | nil =>
      rw [List.nil_append, splitLast, splitLast_eq_none sep after h]
      exact if_pos rfl
  | cons c cs ih =>
      rw [List.cons_append, splitLast, ih]

/-- The name of an instance with any index. -/
def nameAt (base : String) (n : Nat) : String := base ++ "@" ++ toString n

theorem instanceName_eq (base : String) (k : UInt32) : instanceName base k = nameAt base k.toNat :=
  rfl

/-- Base name and index of a name with a separator. Neither the base nor the index
    is checked. -/
def readName (name : String) : Option (String × Nat) :=
  (splitLast instanceSeparator name.toList).map fun (base, index) =>
    (String.ofList base, Nat.ofDigitChars 10 index 0)

theorem toList_nameAt (base : String) (n : Nat) :
    (nameAt base n).toList = base.toList ++ instanceSeparator :: Nat.toDigits 10 n := by
  simp only [nameAt, String.toList_append, Nat.toString_eq_ofList_toDigits, String.toList_ofList,
    List.append_assoc]
  rfl

theorem separator_mem_instanceName (base : String) (k : UInt32) :
    instanceSeparator ∈ (instanceName base k).toList := by
  rw [instanceName_eq, toList_nameAt]
  exact List.mem_append_right _ List.mem_cons_self

theorem separator_not_mem_toDigits (n : Nat) : instanceSeparator ∉ Nat.toDigits 10 n := by
  intro h
  exact absurd (Nat.isDigit_of_mem_toDigits (by decide) (by decide) h) (by decide)

theorem splitLast_nameAt (base : String) (n : Nat) :
    splitLast instanceSeparator (nameAt base n).toList
      = some (base.toList, Nat.toDigits 10 n) := by
  rw [toList_nameAt, splitLast_append _ _ _ (separator_not_mem_toDigits n)]

theorem indexOfNat?_toNat (k : UInt32) : indexOfNat? k.toNat = some k := by
  unfold indexOfNat?
  rw [dif_pos k.toNat_lt_size]
  exact congrArg some (UInt32.ofNatLT_toNat k)

theorem toNat_of_indexOfNat? (n : Nat) (k : UInt32) (h : indexOfNat? n = some k) : k.toNat = n := by
  unfold indexOfNat? at h
  split at h
  · cases h
    exact UInt32.toNat_ofNatLT ..
  · cases h

theorem readIndex_toDigits (k : UInt32) : readIndex (Nat.toDigits 10 k.toNat) = some k := by
  have hdigits : readDigits (Nat.toDigits 10 k.toNat) = some k := by
    unfold readDigits
    -- The digits are not empty, all of them are digits, and they read back as the index.
    rw [if_neg, Nat.ofDigitChars_ten_toDigits, indexOfNat?_toNat]
    rw [Bool.or_eq_true, not_or, List.isEmpty_iff, Bool.not_eq_true', Bool.not_eq_false,
      List.all_eq_true]
    refine ⟨Nat.toDigits_ne_nil, fun c hc => ?_⟩
    exact Nat.isDigit_of_mem_toDigits (by decide) (by decide) hc
  cases hd : Nat.toDigits 10 k.toNat with
  | nil => exact absurd hd Nat.toDigits_ne_nil
  | cons c cs =>
      -- The first character is a digit, so it is no sign.
      have hc : c ≠ '+' := by
        rintro rfl
        have hmem : '+' ∈ Nat.toDigits 10 k.toNat := hd ▸ List.mem_cons_self
        exact absurd (Nat.isDigit_of_mem_toDigits (by decide) (by decide) hmem) (by decide)
      rw [hd] at hdigits
      unfold readIndex
      split
      next heq =>
        cases heq
        exact absurd rfl hc
      next => exact hdigits

/-- The name of an instance is read back. -/
theorem readName_nameAt (base : String) (n : Nat) : readName (nameAt base n) = some (base, n) := by
  unfold readName
  rw [splitLast_nameAt, Option.map_some]
  dsimp only
  rw [String.ofList_toList, Nat.ofDigitChars_ten_toDigits]

theorem readName_plain (name : String) (h : instanceSeparator ∉ name.toList) :
    readName name = none := by
  unfold readName
  rw [splitLast_eq_none _ _ h, Option.map_none]

/-- A name without a separator is no instance. -/
theorem splitInstance_plain (name : String) (h : instanceSeparator ∉ name.toList) :
    splitInstance name = .ok none := by
  unfold splitInstance
  rw [splitLast_eq_none _ _ h]

/-- The name of an instance is split into its parts. -/
theorem splitInstance_nameAt (base : String) (k : UInt32) (h : base ≠ "") :
    splitInstance (nameAt base k.toNat) = .ok (some (base, k)) := by
  unfold splitInstance
  rw [splitLast_nameAt]
  dsimp only
  rw [readIndex_toDigits]
  -- The base is not empty, which is the only thing that is checked about it.
  cases hbase : base.toList with
  | nil => exact absurd (String.toList_eq_nil_iff.mp hbase) h
  | cons c cs =>
      dsimp only
      rw [← hbase, String.ofList_toList]

end ActorCheck
