import ActorCheck.Proofs.Term.PrefixSums
import Mathlib.Data.List.Nodup

/-!
# Offsets of Zero

A map may say that the index of a variable is 0, or say nothing about the variable. Both mean the
same, but alignment can tell them apart: a block is only left as it is while nothing has been said,
and read and written again afterwards. This is about what the difference amounts to.

Sums come out the same. An index 0 never makes a sum too large, so leaving it out changes neither
the offsets nor which overflow is found first. What is left is how a block is treated when all
offsets are zero. To be shifted by nothing does nothing exactly to the names that are written as
instances are written, and to names without a separator. Other names do not survive it. A malformed
one is reported, and an index with a sign or with zeros in front is written without them.

So two lists of maps that agree up to indices 0 align the blocks in the same way, as long as the
blocks at which only one of the lists has said something have names of these kinds. Names in all
other blocks may be anything.

## Main definitions

* `InstanceMap.Agrees`: Two maps give every variable the same index.
* `InstanceMap.SameSum`: The same error, or maps that agree.
* `unrecorded`: Nothing is said by the maps before a block.

## Theorems

* `InstanceMap.sameSum_add`: Sums do not depend on indices 0 that are written down.
* `Term.traverse_eq_self_iff`: A replacement keeps a term exactly if it keeps its names.
* `shiftName_zero_iff`, `shift_zero_iff`: What survives a shift by nothing.
* `alignFrom_of_agrees`: Alignment does not depend on indices 0 that are written down.
* `align_agrees`: The same for a list of blocks, with the names for which it holds.
-/

namespace ActorCheck

namespace InstanceMap

/-- Two maps give every variable the same index. They may differ in which indices 0 they write
    down. -/
def Agrees (a b : InstanceMap) : Prop := ∀ base, a.getD base 0 = b.getD base 0

theorem agrees_insert (a b : InstanceMap) (h : a.Agrees b) (base : String) (k : UInt32) :
    Agrees (a.insert base k) (b.insert base k) := fun other => by
  rw [Std.ExtTreeMap.getD_insert, Std.ExtTreeMap.getD_insert, h other]

/-- To write down an index that is the index anyway changes nothing. -/
theorem agrees_insert_getD (a : InstanceMap) (base : String) :
    Agrees (a.insert base (a.getD base 0)) a := fun other => by
  rw [Std.ExtTreeMap.getD_insert]
  split
  next heq => rw [Std.LawfulEqCmp.eq_of_compare heq]
  next => rfl

/-- The entries of a map that are not 0. -/
def nonzero (entries : List (String × UInt32)) : List (String × UInt32) :=
  entries.filter fun entry => entry.2 != 0

theorem mem_nonzero_iff (map : InstanceMap) (base : String) (k : UInt32) :
    (base, k) ∈ nonzero map.toList ↔ map.getD base 0 = k ∧ k ≠ 0 := by
  unfold nonzero
  rw [List.mem_filter, Std.ExtTreeMap.mem_toList_iff_getElem?_eq_some, bne_iff_ne,
    Std.ExtTreeMap.getD_eq_getD_getElem?]
  refine and_congr_left fun hk => ?_
  -- A variable without an entry has the index 0, and so it is not what is looked for.
  cases map[base]? with
  | none => exact iff_of_false nofun fun h => hk h.symm
  | some index => exact Option.some.injEq index k ▸ Iff.rfl

/-- Maps that agree have the same entries that are not 0, in the same order. -/
theorem nonzero_eq_of_agrees (a b : InstanceMap) (h : a.Agrees b) :
    nonzero a.toList = nonzero b.toList := by
  have hordered (map : InstanceMap) :
      (nonzero map.toList).Pairwise fun p q => compare p.1 q.1 = .lt :=
    Std.ExtTreeMap.ordered_keys_toList.filter _
  have hnodup (map : InstanceMap) : (nonzero map.toList).Nodup :=
    (List.Nodup.of_map Prod.fst map.nodup_names).filter _
  -- The same entries without repetitions, and in the order of their names. This leaves only one
  -- list.
  have hsame : (nonzero a.toList).Perm (nonzero b.toList) :=
    (List.perm_ext_iff_of_nodup (hnodup a) (hnodup b)).mpr fun entry => by
      rw [mem_nonzero_iff, mem_nonzero_iff, h entry.1]
  refine hsame.eq_of_pairwise (fun p q _ _ hlt hgt => ?_) (hordered a) (hordered b)
  exact absurd hgt (Std.OrientedCmp.not_lt_of_lt hlt)

/-- The same error, or maps that agree. -/
def SameSum : Except AlignmentError InstanceMap → Except AlignmentError InstanceMap → Prop
  | .ok a, .ok b => a.Agrees b
  | .error e, .error e' => e = e'
  | _, _ => False

/-- Two sums that are the same as a third one are the same. -/
theorem sameSum_trans (x y z : Except AlignmentError InstanceMap) (hx : SameSum x z)
    (hy : SameSum y z) : SameSum x y := by
  match x, y, z, hx, hy with
  | .ok _, .ok _, .ok _, hx, hy => exact fun base => (hx base).trans (hy base).symm
  | .error _, .error _, .error _, hx, hy => exact hx.trans hy.symm

theorem addIndex?_zero (k : UInt32) : addIndex? k 0 = some k := indexOfNat?_toNat k

/-- Indices 0 can be left out of a list of indices. An overflow that is found comes from an index
    that is not 0, so it is the same one. -/
theorem sameSum_nonzero (entries : List (String × UInt32)) (a b : InstanceMap) (h : a.Agrees b) :
    SameSum (a.raiseAll entries) (b.raiseAll (nonzero entries)) := by
  -- The sums so far are generalized. An index 0 is written down on one side only, and the sums
  -- agree all the same.
  induction entries generalizing a b with
  | nil => exact h
  | cons entry rest ih =>
      rcases entry with ⟨base, k⟩
      unfold nonzero
      rw [List.filter_cons]
      -- To raise by 0 cannot overflow, and what it writes down is said already. Any other index is
      -- raised on both sides by the same amount.
      by_cases hk : k = 0
      · subst hk
        have hraise : a.raise base 0 = .ok (a.insert base (a.getD base 0)) := by
          rw [raise, addIndex?_zero]
        rw [raiseAll, hraise]
        exact ih _ b fun other => (a.agrees_insert_getD base other).trans (h other)
      · rw [if_pos (bne_iff_ne.mpr hk), raiseAll, raiseAll, raise, raise, ← h base]
        cases addIndex? (a.getD base 0) k with
        | none => exact rfl
        | some sum => exact ih _ _ (agrees_insert a b h base sum)

/-- Sums do not depend on which indices 0 are written down. -/
theorem sameSum_add (a b map map' : InstanceMap) (h : a.Agrees b) (hmap : map.Agrees map') :
    SameSum (a.add map) (b.add map') := by
  -- Both sums are compared with the one from the entries that are not 0, which are the same for
  -- both maps.
  refine sameSum_trans _ _ (b.raiseAll (nonzero map.toList)) (sameSum_nonzero map.toList a b h) ?_
  rw [nonzero_eq_of_agrees map map' hmap]
  exact sameSum_nonzero map'.toList b b fun _ => rfl

/-- Something is said by a sum exactly if something is said by one of the maps. -/
theorem isEmpty_of_raiseAll (entries : List (String × UInt32)) (offsets sum : InstanceMap)
    (h : offsets.raiseAll entries = .ok sum) :
    sum.isEmpty = (offsets.isEmpty && entries.isEmpty) := by
  induction entries generalizing offsets with
  | nil =>
      cases h
      rw [List.isEmpty_nil, Bool.and_true]
  | cons entry rest ih =>
      rcases (except_bind_ok _ _ _).mp h with ⟨next, hnext, h⟩
      -- After the first entry something is said, and it stays so.
      have hsome : next.isEmpty = false := by
        unfold raise at hnext
        split at hnext
        next =>
          cases hnext
          exact Std.ExtTreeMap.isEmpty_eq_false_iff.mpr Std.ExtTreeMap.insert_ne_empty
        next => cases hnext
      rw [ih next h, hsome, List.isEmpty_cons, Bool.and_false, Bool.false_and]

theorem isEmpty_of_add (offsets map sum : InstanceMap) (h : offsets.add map = .ok sum) :
    sum.isEmpty = (offsets.isEmpty && map.isEmpty) := by
  rw [isEmpty_of_raiseAll _ _ _ h, Std.ExtTreeMap.isEmpty_toList]

end InstanceMap

section Kept

variable {ε : Type} (f : String → Except ε String)

namespace Term

mutual

/-- A replacement that keeps a term has kept its names. -/
theorem fixed_of_traverse (t : Term) (h : t.traverse f = .ok t) : ∀ x ∈ t.vars, f x = .ok x := by
  cases t with
  | var x =>
      rcases (except_single_ok _ _ _).mp h with ⟨_, hy, ⟨⟩⟩
      intro x' hx'
      rw [(mem_vars_var x' x).mp hx']
      exact hy
  | int n => exact fun x hx => absurd hx Std.ExtTreeSet.not_mem_empty
  | bool b => exact fun x hx => absurd hx Std.ExtTreeSet.not_mem_empty
  -- Equations of results are taken apart in the order of evaluation. What is left says that each
  -- part came back as it was.
  | arith op a b =>
      rw [traverse] at h
      rcases (except_pair_ok _ _ _ _).mp h with ⟨_, _, ha, hb, ⟨⟩⟩
      intro x hx
      rcases (mem_vars_arith x op a b).mp hx with hx | hx
      · exact fixed_of_traverse a ha x hx
      · exact fixed_of_traverse b hb x hx
  | cmp op a b =>
      rw [traverse] at h
      rcases (except_pair_ok _ _ _ _).mp h with ⟨_, _, ha, hb, ⟨⟩⟩
      intro x hx
      rcases (mem_vars_cmp x op a b).mp hx with hx | hx
      · exact fixed_of_traverse a ha x hx
      · exact fixed_of_traverse b hb x hx
  | conj ts =>
      rw [traverse] at h
      rcases (except_single_ok _ _ _).mp h with ⟨_, hus, ⟨⟩⟩
      exact fixed_of_traverseAll ts hus
  | disj ts =>
      rw [traverse] at h
      rcases (except_single_ok _ _ _).mp h with ⟨_, hus, ⟨⟩⟩
      exact fixed_of_traverseAll ts hus
  | not a =>
      rw [traverse] at h
      rcases (except_single_ok _ _ _).mp h with ⟨_, ha, ⟨⟩⟩
      exact fixed_of_traverse a ha
  | implies a b =>
      rw [traverse] at h
      rcases (except_pair_ok _ _ _ _).mp h with ⟨_, _, ha, hb, ⟨⟩⟩
      intro x hx
      rcases (mem_vars_implies x a b).mp hx with hx | hx
      · exact fixed_of_traverse a ha x hx
      · exact fixed_of_traverse b hb x hx
  | ite c a b =>
      rw [traverse] at h
      rcases (except_bind_ok _ _ _).mp h with ⟨c', hc, h⟩
      rcases (except_pair_ok _ _ _ _).mp h with ⟨_, _, ha, hb, ⟨⟩⟩
      intro x hx
      rcases (mem_vars_ite x c a b).mp hx with hx | hx | hx
      · exact fixed_of_traverse c hc x hx
      · exact fixed_of_traverse a ha x hx
      · exact fixed_of_traverse b hb x hx

theorem fixed_of_traverseAll (ts : List Term) (h : traverseAll f ts = .ok ts) :
    ∀ x ∈ varsAll ts, f x = .ok x := by
  cases ts with
  | nil => exact fun x hx => absurd hx Std.ExtTreeSet.not_mem_empty
  | cons t ts =>
      rw [traverseAll] at h
      rcases (except_pair_ok _ _ _ _).mp h with ⟨_, _, hu, hus, ⟨⟩⟩
      intro x hx
      rcases Std.ExtTreeSet.mem_union_iff.mp hx with hx | hx
      · exact fixed_of_traverse t hu x hx
      · exact fixed_of_traverseAll ts hus x hx

end

/-- A replacement keeps a term exactly if it keeps its names. -/
theorem traverse_eq_self_iff (t : Term) : t.traverse f = .ok t ↔ ∀ x ∈ t.vars, f x = .ok x :=
  ⟨fixed_of_traverse f t, traverse_of_fixed f t⟩

end Term

end Kept

section Shifts

/-- Only the index of each variable matters for a shift. -/
theorem shiftName_of_agrees (a b : InstanceMap) (h : a.Agrees b) : shiftName a = shiftName b := by
  funext name
  unfold shiftName
  simp only [h _]

theorem shift_of_agrees (a b : InstanceMap) (h : a.Agrees b) (t : Term) :
    t.shift a = t.shift b := by
  unfold Term.shift
  rw [shiftName_of_agrees a b h]

theorem splitLast_eq_none_iff (sep : Char) (cs : List Char) :
    splitLast sep cs = none ↔ sep ∉ cs := by
  refine ⟨fun h => ?_, splitLast_eq_none sep cs⟩
  -- The last separator is looked for from the right, so the answer about the rest comes first and
  -- the character itself only matters if the rest has none.
  induction cs with
  | nil => exact List.not_mem_nil
  | cons c cs ih =>
      unfold splitLast at h
      split at h
      next => cases h
      next hnone =>
        split at h
        next => cases h
        next hne => exact List.not_mem_cons_of_ne_of_not_mem (Ne.symm hne) (ih hnone)

/-- A name that is no instance has no separator. -/
theorem plain_of_splitInstance (name : String) (h : splitInstance name = .ok none) :
    instanceSeparator ∉ name.toList := by
  unfold splitInstance at h
  split at h
  next hnone => exact (splitLast_eq_none_iff _ _).mp hnone
  next => split at h <;> cases h

/-- The base of an instance is not empty. -/
theorem base_ne_empty_of_splitInstance (name base : String) (k : UInt32)
    (h : splitInstance name = .ok (some (base, k))) : base ≠ "" := by
  unfold splitInstance at h
  split at h
  next => cases h
  next =>
    split at h
    next => cases h
    next => cases h
    next hbase _ _ =>
      cases h
      exact fun hempty => hbase (String.ofList_eq_empty_iff.mp hempty)

variable (zero : InstanceMap) (hzero : ∀ base, zero.getD base 0 = 0)

include hzero

/-- The names that survive a shift by nothing are those without a separator, and those that are
    written as the names of instances are. -/
theorem shiftName_zero_iff (name : String) : shiftName zero name = .ok name
    ↔ instanceSeparator ∉ name.toList ∨ ∃ base k, base ≠ "" ∧ name = instanceName base k := by
  constructor
  · intro h
    -- Kept as it is and yet read: the name is what is written anew from its parts.
    unfold shiftName at h
    rcases (except_bind_ok _ _ _).mp h with ⟨parts, hparts, h⟩
    match parts with
    | none => exact Or.inl (plain_of_splitInstance name hparts)
    | some (base, k) =>
        dsimp only at h
        rw [hzero, InstanceMap.addIndex?_zero] at h
        have hbase := base_ne_empty_of_splitInstance name base k hparts
        exact Or.inr ⟨base, k, hbase, ((except_pure_ok _ _).mp h).symm⟩
  · rintro (hplain | ⟨base, k, hbase, rfl⟩)
    · exact shiftName_plain zero name hplain
    · rw [shiftName_instance zero base k hbase, hzero, InstanceMap.addIndex?_zero]

/-- A block survives a shift by nothing exactly if its names do. -/
theorem shift_zero_iff (block : Term) : block.shift zero = .ok block ↔ block.Named :=
  (Term.traverse_eq_self_iff _ block).trans
    (forall₂_congr fun name _ => shiftName_zero_iff zero hzero name)

end Shifts

/-- Offsets that agree shift a block in the same way, if it survives a shift by nothing whenever
    only one of them is without entries. -/
theorem shiftBlock_of_agrees (a b : InstanceMap) (h : a.Agrees b) (block : Term)
    (hnamed : a.isEmpty ≠ b.isEmpty → block.Named) : shiftBlock a block = shiftBlock b block := by
  -- Only the side without entries leaves the block as it is. The other one shifts by nothing.
  have hkept (zero : InstanceMap) (hempty : zero.isEmpty = true) (hblock : block.Named) :
      block.shift zero = .ok block :=
    (shift_zero_iff zero (fun base => by
      rw [Std.ExtTreeMap.isEmpty_iff.mp hempty, Std.ExtTreeMap.getD_empty]) block).mpr hblock
  unfold shiftBlock
  cases ha : a.isEmpty with
  | true =>
      cases hb : b.isEmpty with
      | true => rfl
      | false =>
          have hblock := hnamed (by rw [ha, hb]; decide)
          exact (hkept a ha hblock).symm.trans (shift_of_agrees a b h block)
  | false =>
      cases hb : b.isEmpty with
      | true =>
          have hblock := hnamed (by rw [ha, hb]; decide)
          exact (shift_of_agrees a b h block).trans (hkept b hb hblock)
      | false => exact shift_of_agrees a b h block

/-- The maps before a block say nothing about any variable. -/
def unrecorded (maps : List InstanceMap) (i : Nat) : Bool := (maps.take i).all (·.isEmpty)

theorem unrecorded_cons (map : InstanceMap) (maps : List InstanceMap) (i : Nat) :
    unrecorded (map :: maps) (i + 1) = (map.isEmpty && unrecorded maps i) := rfl

/-- Blocks in a row are aligned in the same way by maps that agree. By induction on the maps, with
    the offsets so far, which agree as well. -/
theorem alignFrom_of_agrees (blocks : List Term) (maps maps' : List InstanceMap)
    (hagrees : List.Forall₂ InstanceMap.Agrees maps maps') (a b : InstanceMap) (h : a.Agrees b)
    (hnamed : ∀ (i : Nat) (block : Term), blocks[i]? = some block →
      (a.isEmpty && unrecorded maps i) ≠ (b.isEmpty && unrecorded maps' i) → block.Named) :
    alignFrom a (blocks.zip maps) = alignFrom b (blocks.zip maps') := by
  -- The offsets are generalized. Whether something has been said so far moves from the maps that
  -- are still to come into the offsets.
  induction hagrees generalizing blocks a b with
  | nil => rw [List.zip_nil_right]; rfl
  | @cons map map' maps maps' hmap _ ih =>
      cases blocks with
      | nil => rfl
      | cons block blocks =>
          have hshift := shiftBlock_of_agrees a b h block fun hne =>
            hnamed 0 block rfl (by
              simpa only [unrecorded, List.take_zero, List.all_nil, Bool.and_true])
          have hsum := InstanceMap.sameSum_add a b map map' h hmap
          rw [List.zip_cons_cons, List.zip_cons_cons, alignFrom, alignFrom, hshift]
          -- The block itself is the same on both sides. What follows depends on the sums, which
          -- come out in the same way: an error on both sides or offsets that agree.
          congr 1
          funext aligned
          cases hadd : a.add map with
          | error e =>
              rw [hadd] at hsum
              cases hadd' : b.add map' with
              | error e' =>
                  rw [hadd'] at hsum
                  exact congrArg Except.error hsum
              | ok next' =>
                  rw [hadd'] at hsum
                  exact hsum.elim
          | ok next =>
              rw [hadd] at hsum
              cases hadd' : b.add map' with
              | error e' =>
                  rw [hadd'] at hsum
                  exact hsum.elim
              | ok next' =>
                  rw [hadd'] at hsum
                  -- The blocks to come are to be named if one side alone has said something, this
                  -- map included.
                  have hlater := ih blocks next next' hsum fun i later hlater hne =>
                    hnamed (i + 1) later hlater (by
                      rwa [unrecorded_cons, unrecorded_cons, ← Bool.and_assoc, ← Bool.and_assoc,
                        ← InstanceMap.isEmpty_of_add a map next hadd,
                        ← InstanceMap.isEmpty_of_add b map' next' hadd'])
                  change (alignFrom next _ >>= fun later => pure (aligned :: later))
                    = (alignFrom next' _ >>= fun later => pure (aligned :: later))
                  rw [hlater]

/-- Alignment does not depend on indices 0 that are written down. Two lists of maps that agree give
    the same result, with the same error if there is one, if the names of every block before which
    only one of them says something are plain or written as names of instances are. These are
    exactly the blocks for which a shift by nothing is the same as no shift at all. -/
theorem align_agrees (blocks : List Term) (maps maps' : List InstanceMap)
    (hagrees : List.Forall₂ InstanceMap.Agrees maps maps')
    (hnamed : ∀ (i : Nat) (block : Term), blocks[i]? = some block →
      unrecorded maps i ≠ unrecorded maps' i → block.Named) :
    align blocks maps = align blocks maps'
      ∧ ∀ (block : Term) (zero : InstanceMap), (∀ base, zero.getD base 0 = 0) →
        (block.shift zero = shiftBlock ∅ block ↔ block.Named) := by
  constructor
  · unfold align
    rw [hagrees.length_eq]
    -- The numbers of blocks and maps are compared first, and the maps are as many on both sides.
    refine if_congr Iff.rfl ?_ rfl
    refine alignFrom_of_agrees blocks maps maps' hagrees ∅ ∅ (fun _ => rfl) ?_
    simpa only [Std.ExtTreeMap.isEmpty_empty, Bool.true_and] using hnamed
  · intro block zero hzero
    exact shift_zero_iff zero hzero block

/-- A map that says of a variable that it was not written. -/
def idleMap : InstanceMap := (∅ : InstanceMap).insert "y" 0

/-- A block with an index that begins with zeros. -/
def padded : Term := .cmp .eq (.var "x@007") (.int 0)

/-- A block with a name that is malformed. -/
def malformed : Term := .cmp .eq (.var "x@y") (.int 0)

theorem getD_idleMap (base : String) : idleMap.getD base 0 = 0 := by
  rw [idleMap, Std.ExtTreeMap.getD_insert, Std.ExtTreeMap.getD_empty, ite_self]

theorem agrees_idleMap : List.Forall₂ InstanceMap.Agrees [idleMap, countingMap] [∅, countingMap] :=
  .cons (fun base => (getD_idleMap base).trans Std.ExtTreeMap.getD_empty.symm)
    (.cons (fun _ => rfl) .nil)

/-- Whether the variable that was not written is mentioned makes no difference to a block with names
    of instances, whatever the names of the first block are. -/
theorem align_agrees_padded :
    List.Forall₂ InstanceMap.Agrees [idleMap, countingMap] [∅, countingMap]
      ∧ unrecorded [idleMap, countingMap] 1 ≠ unrecorded [∅, countingMap] 1
      ∧ align [padded, counting] [idleMap, countingMap]
        = align [padded, counting] [∅, countingMap]
      ∧ counting.shift idleMap = shiftBlock ∅ counting
      ∧ padded.shift idleMap ≠ shiftBlock ∅ padded := by
  have hcounting : counting.Named :=
    Term.named_of_namedWithin countingMap counting namedWithin_counting
  have hagrees := align_agrees [padded, counting] _ _ agrees_idleMap fun i block hblock hne => by
    match i with
    | 0 => exact absurd rfl hne
    | 1 => cases hblock; exact hcounting
  refine ⟨agrees_idleMap, by decide, hagrees.1, ?_, by decide⟩
  exact (hagrees.2 counting idleMap getD_idleMap).mpr hcounting

/-- Whether the variable that was not written is mentioned makes a difference to later blocks with
    other names: an index is written anew, and a malformed name is reported. -/
theorem zeros_matter :
    List.Forall₂ InstanceMap.Agrees [idleMap, countingMap] [∅, countingMap]
      ∧ align [counting, padded] [∅, countingMap] = .ok [counting, padded]
      ∧ align [counting, padded] [idleMap, countingMap]
        = .ok [counting, .cmp .eq (.var "x@7") (.int 0)]
      ∧ align [counting, malformed] [∅, countingMap] = .ok [counting, malformed]
      ∧ align [counting, malformed] [idleMap, countingMap] = .error (.malformedName "x@y")
      ∧ align [counting, padded] [idleMap, countingMap]
        ≠ align [counting, padded] [∅, countingMap] := by
  have hkept : align [counting, padded] [∅, countingMap] = .ok [counting, padded] := by
    decide
  have hanew : align [counting, padded] [idleMap, countingMap]
      = .ok [counting, .cmp .eq (.var "x@7") (.int 0)] := by
    decide
  refine ⟨agrees_idleMap, hkept, hanew, by decide, by decide, ?_⟩
  rw [hkept, hanew]
  decide

end ActorCheck
