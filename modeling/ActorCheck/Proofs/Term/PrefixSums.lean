import ActorCheck.Proofs.Term.Alignment

/-!
# Aligned Blocks in Closed Form

Alignment goes through the blocks one by one and carries the offsets along. Each block is shifted by
the offsets so far, or left alone while there are none, and each sum that is taken on the way has to
fit 32 bits. What comes out of it needs no walk through the blocks to be told: the offsets before a
block are the sums of the maps before it, and the block is the original one with every instance
later by as much.

The sums that are taken are those of the offsets and those of the instances that are shifted. The
offsets grow, so all sums of offsets fit if the last ones do. No sum is taken for an instance in a
block that is left alone, but that one is later by nothing.

Whether a replacement of names succeeds depends on the names one by one, and so does what it yields.
That holds of terms in general and reduces the statement about blocks to one about names.

## Main definitions

* `Term.Named`: The names of a term are plain, or names of instances.
* `laterName`: The name of an instance that much later.

## Theorems

* `Term.traverse_of_renamed`, `Term.exists_of_traverse`: A replacement succeeds name by name.
* `InstanceMap.add_ok_iff`: Offsets and a map can be added if all sums fit.
* `shiftBlock_ok_iff`, `eq_of_shiftBlock`: When a block can be shifted, and what it becomes.
* `alignFrom_ok_iff`, `getElem?_of_alignFrom`: The same for blocks in a row.
* `align_prefixSums`: Alignment in closed form.
-/

namespace ActorCheck

namespace Term

section Renaming

variable {ε : Type} (f : String → Except ε String)

mutual

/-- A replacement that renames every name of a term renames the term. -/
theorem traverse_of_renamed (g : String → String) (t : Term) (h : ∀ x ∈ t.vars, f x = .ok (g x)) :
    t.traverse f = .ok (t.rename g) := by
  -- Going through the term, each name is replaced where it stands, and nothing else can fail.
  cases t with
  | var x =>
      rw [traverse, h x ((mem_vars_var x x).mpr rfl)]
      rfl
  | int n => rfl
  | bool b => rfl
  | arith op a b =>
      simp only [mem_vars_arith] at h
      rw [traverse, traverse_of_renamed g a fun x hx => h x (Or.inl hx),
        traverse_of_renamed g b fun x hx => h x (Or.inr hx)]
      rfl
  | cmp op a b =>
      simp only [mem_vars_cmp] at h
      rw [traverse, traverse_of_renamed g a fun x hx => h x (Or.inl hx),
        traverse_of_renamed g b fun x hx => h x (Or.inr hx)]
      rfl
  | conj ts =>
      simp only [mem_vars_conj] at h
      rw [traverse, traverseAll_of_renamed g ts h]
      rfl
  | disj ts =>
      simp only [mem_vars_disj] at h
      rw [traverse, traverseAll_of_renamed g ts h]
      rfl
  | not a =>
      simp only [mem_vars_not] at h
      rw [traverse, traverse_of_renamed g a h]
      rfl
  | implies a b =>
      simp only [mem_vars_implies] at h
      rw [traverse, traverse_of_renamed g a fun x hx => h x (Or.inl hx),
        traverse_of_renamed g b fun x hx => h x (Or.inr hx)]
      rfl
  | ite c a b =>
      simp only [mem_vars_ite] at h
      rw [traverse, traverse_of_renamed g c fun x hx => h x (Or.inl hx),
        traverse_of_renamed g a fun x hx => h x (Or.inr (Or.inl hx)),
        traverse_of_renamed g b fun x hx => h x (Or.inr (Or.inr hx))]
      rfl

theorem traverseAll_of_renamed (g : String → String) (ts : List Term)
    (h : ∀ x ∈ varsAll ts, f x = .ok (g x)) :
    traverseAll f ts = .ok (Id.run (traverseAll g ts)) := by
  cases ts with
  | nil => rfl
  | cons t ts =>
      simp only [varsAll, Std.ExtTreeSet.mem_union_iff] at h
      rw [traverseAll, traverse_of_renamed g t fun x hx => h x (Or.inl hx),
        traverseAll_of_renamed g ts fun x hx => h x (Or.inr hx)]
      rfl

end

mutual

/-- A replacement that succeeds has succeeded for every name. -/
theorem exists_of_traverse (t u : Term) (h : t.traverse f = .ok u) :
    ∀ x ∈ t.vars, ∃ y, f x = .ok y := by
  cases t with
  | var x =>
      rcases (except_bind_ok _ _ _).mp h with ⟨y, hy, _⟩
      intro x' hx'
      rw [(mem_vars_var x' x).mp hx']
      exact ⟨y, hy⟩
  | int n => exact fun x hx => absurd hx Std.ExtTreeSet.not_mem_empty
  | bool b => exact fun x hx => absurd hx Std.ExtTreeSet.not_mem_empty
  | arith op a b =>
      rw [traverse] at h
      rcases (except_pair_ok _ _ _ _).mp h with ⟨a', b', ha, hb, _⟩
      intro x hx
      rcases (mem_vars_arith x op a b).mp hx with hx | hx
      · exact exists_of_traverse a a' ha x hx
      · exact exists_of_traverse b b' hb x hx
  | cmp op a b =>
      rw [traverse] at h
      rcases (except_pair_ok _ _ _ _).mp h with ⟨a', b', ha, hb, _⟩
      intro x hx
      rcases (mem_vars_cmp x op a b).mp hx with hx | hx
      · exact exists_of_traverse a a' ha x hx
      · exact exists_of_traverse b b' hb x hx
  | conj ts =>
      rw [traverse] at h
      rcases (except_bind_ok _ _ _).mp h with ⟨us, hus, _⟩
      exact exists_of_traverseAll ts us hus
  | disj ts =>
      rw [traverse] at h
      rcases (except_bind_ok _ _ _).mp h with ⟨us, hus, _⟩
      exact exists_of_traverseAll ts us hus
  | not a =>
      rw [traverse] at h
      rcases (except_bind_ok _ _ _).mp h with ⟨a', ha, _⟩
      exact exists_of_traverse a a' ha
  | implies a b =>
      rw [traverse] at h
      rcases (except_pair_ok _ _ _ _).mp h with ⟨a', b', ha, hb, _⟩
      intro x hx
      rcases (mem_vars_implies x a b).mp hx with hx | hx
      · exact exists_of_traverse a a' ha x hx
      · exact exists_of_traverse b b' hb x hx
  | ite c a b =>
      rw [traverse] at h
      rcases (except_bind_ok _ _ _).mp h with ⟨c', hc, h⟩
      rcases (except_pair_ok _ _ _ _).mp h with ⟨a', b', ha, hb, _⟩
      intro x hx
      rcases (mem_vars_ite x c a b).mp hx with hx | hx | hx
      · exact exists_of_traverse c c' hc x hx
      · exact exists_of_traverse a a' ha x hx
      · exact exists_of_traverse b b' hb x hx

theorem exists_of_traverseAll (ts us : List Term) (h : traverseAll f ts = .ok us) :
    ∀ x ∈ varsAll ts, ∃ y, f x = .ok y := by
  cases ts with
  | nil => exact fun x hx => absurd hx Std.ExtTreeSet.not_mem_empty
  | cons t ts =>
      rw [traverseAll] at h
      rcases (except_pair_ok _ _ _ _).mp h with ⟨u, us', hu, hus, _⟩
      intro x hx
      rcases Std.ExtTreeSet.mem_union_iff.mp hx with hx | hx
      · exact exists_of_traverse t u hu x hx
      · exact exists_of_traverseAll ts us' hus x hx

end

/-- A term none of whose names is changed is not changed. -/
theorem rename_of_fixed (g : String → String) (t : Term) (h : ∀ x ∈ t.vars, g x = x) :
    t.rename g = t := by
  -- The replacement that changes nothing can be described as a renaming and as one that keeps every
  -- name.
  have hrenamed := traverse_of_renamed (fun x => (.ok (g x) : Except Unit String)) g t
    fun x _ => rfl
  have hfixed := traverse_of_fixed (fun x => (.ok (g x) : Except Unit String)) t
    fun x hx => congrArg Except.ok (h x hx)
  exact Except.ok.inj (hrenamed.symm.trans hfixed)

end Renaming

/-- The names of a term are free of the separator, or they are names of instances. -/
def Named (t : Term) : Prop :=
  ∀ x ∈ t.vars, instanceSeparator ∉ x.toList ∨ ∃ base k, base ≠ "" ∧ x = instanceName base k

/-- Names that are as a map says are plain, or names of instances. -/
theorem named_of_namedWithin (map : InstanceMap) (t : Term) (h : t.NamedWithin map) : t.Named :=
  fun x hx => (h x hx).imp_right fun ⟨base, k, hbase, hname, _⟩ => ⟨base, k, hbase, hname⟩

end Term

/-- The name of an instance that is later by what is given for its base. A name that is no instance
    stays. -/
def laterName (offset : String → Nat) (name : String) : String :=
  match readName name with
  | some (base, k) => nameAt base (k + offset base)
  | none => name

section Names

variable (offset : String → Nat)

theorem laterName_instanceName (base : String) (k : UInt32) :
    laterName offset (instanceName base k) = nameAt base (k.toNat + offset base) := by
  unfold laterName
  rw [instanceName_eq, readName_nameAt]

theorem laterName_plain (name : String) (h : instanceSeparator ∉ name.toList) :
    laterName offset name = name := by
  unfold laterName
  rw [readName_plain name h]

/-- If every offset is zero, a plain name or a name of an instance stays. -/
theorem laterName_zero (h : ∀ base, offset base = 0) (name : String)
    (hname : instanceSeparator ∉ name.toList ∨ ∃ base k, base ≠ "" ∧ name = instanceName base k) :
    laterName offset name = name := by
  rcases hname with hplain | ⟨base, k, _, rfl⟩
  · exact laterName_plain offset name hplain
  · rw [laterName_instanceName, h base, Nat.add_zero, instanceName_eq]

/-- The base of an instance and its index can be told from the name. -/
theorem instanceName_inj (base base' : String) (k k' : UInt32)
    (h : instanceName base k = instanceName base' k') : base = base' ∧ k = k' := by
  -- A name is read back as one base and one index.
  have hread := congrArg readName h
  rw [instanceName_eq, instanceName_eq, readName_nameAt, readName_nameAt] at hread
  rcases Prod.mk.inj (Option.some.inj hread) with ⟨hbase, hindex⟩
  exact ⟨hbase, UInt32.toNat_inj.mp hindex⟩

end Names

namespace InstanceMap

/-- The sum of two indices, where it fits. -/
theorem addIndex?_eq_some (a b : UInt32) (h : a.toNat + b.toNat < UInt32.size) :
    ∃ sum, addIndex? a b = some sum ∧ sum.toNat = a.toNat + b.toNat := by
  unfold addIndex? indexOfNat?
  rw [dif_pos h]
  exact ⟨_, rfl, UInt32.toNat_ofNatLT ..⟩

theorem addIndex?_eq_none (a b : UInt32) (h : UInt32.size ≤ a.toNat + b.toNat) :
    addIndex? a b = none := by
  unfold addIndex? indexOfNat?
  rw [dif_neg (Nat.not_lt.mpr h)]

theorem index_lt_size (offsets : InstanceMap) (base : String) :
    offsets.index base < UInt32.size := UInt32.toNat_lt_size _

theorem raise_ok_iff (offsets : InstanceMap) (base : String) (k : UInt32) :
    (∃ o, offsets.raise base k = .ok o) ↔ offsets.index base + k.toNat < UInt32.size := by
  unfold raise index
  rcases Nat.lt_or_ge ((offsets.getD base 0).toNat + k.toNat) UInt32.size with hfits | hlarge
  · rcases addIndex?_eq_some _ _ hfits with ⟨sum, hsum, _⟩
    rw [hsum]
    exact iff_of_true ⟨_, rfl⟩ hfits
  · rw [addIndex?_eq_none _ _ hlarge]
    exact iff_of_false nofun (Nat.not_lt.mpr hlarge)

/-- Indices of different variables can be added if each sum fits. -/
theorem raiseAll_ok_iff (entries : List (String × UInt32)) (offsets : InstanceMap)
    (hnodup : (entries.map Prod.fst).Nodup) :
    (∃ o, offsets.raiseAll entries = .ok o)
      ↔ ∀ base k, (base, k) ∈ entries → offsets.index base + k.toNat < UInt32.size := by
  induction entries generalizing offsets with
  | nil => exact iff_of_true ⟨offsets, rfl⟩ fun base k hk => absurd hk List.not_mem_nil
  | cons entry rest ih =>
      rcases entry with ⟨base, k⟩
      rw [List.map_cons, List.nodup_cons] at hnodup
      -- The first sum does not touch the offsets of the other variables.
      have hothers (next : InstanceMap) (hnext : offsets.raise base k = .ok next) :
          (∃ o, next.raiseAll rest = .ok o)
            ↔ ∀ b k', (b, k') ∈ rest → offsets.index b + k'.toNat < UInt32.size := by
        refine (ih next hnodup.2).trans (forall_congr' fun b => forall₂_congr fun k' hk' => ?_)
        have hne : base ≠ b := by
          rintro rfl
          exact hnodup.1 (List.mem_map.mpr ⟨_, hk', rfl⟩)
        rw [index_of_raise offsets next base k hnext b, if_neg hne, Nat.add_zero]
      rw [raiseAll]
      constructor
      · rintro ⟨o, h⟩
        rcases (except_bind_ok _ _ _).mp h with ⟨next, hnext, h⟩
        intro b k' hk'
        rcases List.mem_cons.mp hk' with heq | hk'
        · cases heq
          exact (offsets.raise_ok_iff base k).mp ⟨next, hnext⟩
        · exact (hothers next hnext).mp ⟨o, h⟩ b k' hk'
      · intro hfits
        rcases (offsets.raise_ok_iff base k).mpr (hfits base k List.mem_cons_self) with
          ⟨next, hnext⟩
        rcases (hothers next hnext).mpr fun b k' hk' => hfits b k' (List.mem_cons_of_mem _ hk') with
          ⟨o, h⟩
        exact ⟨o, (except_bind_ok _ _ _).mpr ⟨next, hnext, h⟩⟩

/-- Offsets and a map can be added if the sum fits for each variable. -/
theorem add_ok_iff (offsets map : InstanceMap) :
    (∃ o, offsets.add map = .ok o)
      ↔ ∀ base, offsets.index base + map.index base < UInt32.size := by
  -- A variable that is not in the map is later by nothing, and its offset fits as it is.
  refine (raiseAll_ok_iff map.toList offsets (nodup_names map)).trans ⟨fun h base => ?_, ?_⟩
  · rw [index_eq map base]
    cases hget : map[base]? with
    | some k => exact h base k (Std.ExtTreeMap.mem_toList_iff_getElem?_eq_some.mpr hget)
    | none => exact offsets.index_lt_size base
  · intro h base k hk
    have hget := Std.ExtTreeMap.mem_toList_iff_getElem?_eq_some.mp hk
    have hfits := h base
    rw [index_eq map base, hget] at hfits
    exact hfits

end InstanceMap

section Blocks

variable (offsets : InstanceMap)

theorem shiftName_plain (name : String) (h : instanceSeparator ∉ name.toList) :
    shiftName offsets name = .ok name := by
  unfold shiftName
  rw [splitInstance_plain name h]
  rfl

theorem shiftName_instance (base : String) (k : UInt32) (hbase : base ≠ "") :
    shiftName offsets (instanceName base k)
      = match addIndex? k (offsets.getD base 0) with
        | some shifted => .ok (instanceName base shifted)
        | none => .error (.indexOverflow base) := by
  unfold shiftName
  rw [instanceName_eq, splitInstance_nameAt base k hbase]
  change (match addIndex? k (offsets.getD base 0) with
    | some shifted => pure (instanceName base shifted)
    | none => throw (AlignmentError.indexOverflow base)) = _
  cases addIndex? k (offsets.getD base 0) with
  | none => rfl
  | some shifted => rfl

/-- The name of an instance can be shifted if the sum fits, and then it is later by the offset. -/
theorem shiftName_ok_iff (base : String) (k : UInt32) (hbase : base ≠ "") (y : String) :
    shiftName offsets (instanceName base k) = .ok y
      ↔ k.toNat + offsets.index base < UInt32.size
        ∧ y = laterName offsets.index (instanceName base k) := by
  rw [shiftName_instance offsets base k hbase, laterName_instanceName]
  rcases Nat.lt_or_ge (k.toNat + offsets.index base) UInt32.size with hfits | hlarge
  · rcases InstanceMap.addIndex?_eq_some _ _ hfits with ⟨sum, hsum, htoNat⟩
    rw [hsum, and_iff_right hfits]
    change Except.ok (instanceName base sum) = .ok y ↔ y = nameAt base (k.toNat + _)
    rw [Except.ok.injEq, instanceName_eq, htoNat]
    exact eq_comm
  · rw [InstanceMap.addIndex?_eq_none _ _ hlarge]
    exact iff_of_false nofun fun h => Nat.not_lt.mpr hlarge h.1

variable (block : Term) (hnames : block.Named)

include hnames

/-- A shifted block is the original one with every instance later by its offset. -/
theorem eq_of_shiftBlock (t : Term) (h : shiftBlock offsets block = .ok t) :
    t = block.rename (laterName offsets.index) := by
  unfold shiftBlock at h
  split at h
  -- Without offsets every instance is later by nothing.
  next hempty =>
    cases h
    rw [Std.ExtTreeMap.isEmpty_iff.mp hempty]
    exact (Term.rename_of_fixed _ block fun x hx =>
      laterName_zero _ InstanceMap.index_empty x (hnames x hx)).symm
  next =>
    have hrenamed : ∀ x ∈ block.vars, shiftName offsets x = .ok (laterName offsets.index x) := by
      intro x hx
      -- Shifting has succeeded for this name, and then there is only one result it can have.
      rcases Term.exists_of_traverse _ block t h x hx with ⟨y, hy⟩
      rcases hnames x hx with hplain | ⟨base, k, hbase, rfl⟩
      · rw [shiftName_plain offsets x hplain, laterName_plain _ x hplain]
      · rw [hy, ((shiftName_ok_iff offsets base k hbase y).mp hy).2]
    exact Except.ok.inj (h.symm.trans (Term.traverse_of_renamed _ _ block hrenamed))

/-- A block can be shifted if the sum fits for each instance in it. -/
theorem shiftBlock_ok_iff : (∃ t, shiftBlock offsets block = .ok t)
    ↔ ∀ base k, instanceName base k ∈ block.vars → k.toNat + offsets.index base < UInt32.size := by
  unfold shiftBlock
  split
  next hempty =>
    refine iff_of_true ⟨block, rfl⟩ fun base k _ => ?_
    rw [Std.ExtTreeMap.isEmpty_iff.mp hempty, InstanceMap.index_empty]
    exact k.toNat_lt_size
  next =>
    constructor
    · rintro ⟨t, h⟩ base k hk
      rcases Term.exists_of_traverse _ block t h _ hk with ⟨y, hy⟩
      rcases hnames _ hk with hplain | ⟨base', k', hbase, heq⟩
      · exact absurd (separator_mem_instanceName base k) hplain
      · rcases instanceName_inj base base' k k' heq with ⟨rfl, rfl⟩
        exact ((shiftName_ok_iff offsets base k hbase y).mp hy).1
    · intro hfits
      refine ⟨_, Term.traverse_of_renamed _ (laterName offsets.index) block fun x hx => ?_⟩
      rcases hnames x hx with hplain | ⟨base, k, hbase, rfl⟩
      · rw [shiftName_plain offsets x hplain, laterName_plain _ x hplain]
      · exact (shiftName_ok_iff offsets base k hbase _).mpr ⟨hfits base k hx, rfl⟩

end Blocks

section Align

variable (pairs : List (Term × InstanceMap)) (offsets : InstanceMap)
  (hnames : ∀ p ∈ pairs, p.1.Named)

include hnames

/-- Blocks in a row can be aligned if the offsets at the end fit, and in each block the instances
    shifted by the offsets there. -/
theorem alignFrom_ok_iff : (∃ aligned, alignFrom offsets pairs = .ok aligned)
    ↔ (∀ base, offsets.index base + prefixSum (pairs.map Prod.snd) pairs.length base < UInt32.size)
      ∧ ∀ i p, pairs[i]? = some p → ∀ base k, instanceName base k ∈ p.1.vars →
        k.toNat + (offsets.index base + prefixSum (pairs.map Prod.snd) i base) < UInt32.size := by
  induction pairs generalizing offsets with
  | nil => exact iff_of_true ⟨[], rfl⟩ ⟨offsets.index_lt_size, nofun⟩
  | cons pair rest ih =>
      rcases pair with ⟨block, map⟩
      rw [List.forall_mem_cons] at hnames
      have hblock := shiftBlock_ok_iff offsets block hnames.1
      have hadd := offsets.add_ok_iff map
      have hrest := fun next => ih next hnames.2
      -- The offsets behind the block already contain its map.
      have hnext (next : InstanceMap) (h : offsets.add map = .ok next) (i : Nat) (base : String) :
          next.index base + prefixSum (rest.map Prod.snd) i base
            = offsets.index base
              + prefixSum (((block, map) :: rest).map Prod.snd) (i + 1) base := by
        rw [List.map_cons, prefixSum_cons, InstanceMap.index_of_add offsets map next h base,
          Nat.add_assoc]
      rw [alignFrom, List.length_cons]
      constructor
      · rintro ⟨aligned, h⟩
        rcases (except_bind_ok _ _ _).mp h with ⟨first, hfirst, h⟩
        rcases (except_bind_ok _ _ _).mp h with ⟨next, hsum, h⟩
        rcases (except_bind_ok _ _ _).mp h with ⟨later, hlater, _⟩
        rcases (hrest next).mp ⟨later, hlater⟩ with ⟨hlast, hlaterFits⟩
        refine ⟨fun base => hnext next hsum _ base ▸ hlast base, fun i p hp base k hk => ?_⟩
        cases i with
        | zero =>
            cases hp
            rw [prefixSum_zero, Nat.add_zero]
            exact hblock.mp ⟨first, hfirst⟩ base k hk
        | succ i => exact hnext next hsum i base ▸ hlaterFits i p hp base k hk
      · rintro ⟨hlast, hfits⟩
        rcases hblock.mpr fun base k hk => hfits 0 _ rfl base k hk with ⟨first, hfirst⟩
        -- The sums behind this block are no larger than those at the end, which fit.
        rcases hadd.mpr fun base => Nat.lt_of_le_of_lt
          (Nat.add_le_add_left (Nat.le_add_right _ _) _) (hlast base) with ⟨next, hsum⟩
        rcases (hrest next).mpr ⟨fun base => (hnext next hsum _ base).symm ▸ hlast base,
          fun i p hp base k hk => (hnext next hsum i base).symm ▸ hfits (i + 1) p hp base k hk⟩ with
          ⟨later, hlater⟩
        exact ⟨first :: later, (except_bind_ok _ _ _).mpr ⟨first, hfirst,
          (except_bind_ok _ _ _).mpr ⟨next, hsum, (except_bind_ok _ _ _).mpr ⟨later, hlater, rfl⟩⟩⟩⟩

/-- The blocks that were aligned are the original ones with every instance later by the offset. -/
theorem getElem?_of_alignFrom (aligned : List Term) (h : alignFrom offsets pairs = .ok aligned)
    (i : Nat) (p : Term × InstanceMap) (hp : pairs[i]? = some p) :
    aligned[i]? = some (p.1.rename
      (laterName fun base => offsets.index base + prefixSum (pairs.map Prod.snd) i base)) := by
  induction pairs generalizing offsets aligned i with
  | nil => cases hp
  | cons pair rest ih =>
      rcases pair with ⟨block, map⟩
      rw [List.forall_mem_cons] at hnames
      rw [alignFrom] at h
      rcases (except_bind_ok _ _ _).mp h with ⟨first, hfirst, h⟩
      rcases (except_bind_ok _ _ _).mp h with ⟨next, hsum, h⟩
      rcases (except_bind_ok _ _ _).mp h with ⟨later, hlater, h⟩
      cases (except_pure_ok _ _).mp h
      cases i with
      | zero =>
          cases hp
          simp only [prefixSum_zero, Nat.add_zero]
          exact congrArg some (eq_of_shiftBlock offsets block hnames.1 first hfirst)
      | succ i =>
          rw [List.getElem?_cons_succ, ih next hnames.2 later hlater i hp]
          simp only [List.map_cons, prefixSum_cons, InstanceMap.index_of_add offsets map next hsum,
            Nat.add_assoc]

end Align

/-- Alignment in closed form. It succeeds exactly if no sum of all maps is too large for a variable,
    and no instance shifted by the maps before its block. Then the first block is kept, and every
    block is the original one with each instance later by the sum of the maps before it. -/
theorem align_prefixSums (blocks : List Term) (maps : List InstanceMap)
    (hlength : blocks.length = maps.length) (hnames : ∀ block ∈ blocks, block.Named) :
    ((∃ aligned, align blocks maps = .ok aligned)
      ↔ (∀ base, prefixSum maps maps.length base < UInt32.size)
        ∧ ∀ (i : Nat) (block : Term), blocks[i]? = some block →
          ∀ base k, instanceName base k ∈ block.vars →
            k.toNat + prefixSum maps i base < UInt32.size)
    ∧ ∀ aligned, align blocks maps = .ok aligned →
      aligned.length = blocks.length ∧ aligned[0]? = blocks[0]?
        ∧ ∀ (i : Nat) (block : Term), blocks[i]? = some block →
          aligned[i]? = some (block.rename (laterName (prefixSum maps i))) := by
  have hpairs : ∀ p ∈ blocks.zip maps, p.1.Named := fun p hp => hnames p.1 (List.of_mem_zip hp).1
  have hmaps : (blocks.zip maps).map Prod.snd = maps :=
    List.map_snd_zip (Nat.le_of_eq hlength.symm)
  have hsize : (blocks.zip maps).length = maps.length := by
    rw [List.length_zip, hlength, Nat.min_self]
  -- Every block has its map, so nothing is lost when they are put in pairs.
  have hpaired (i : Nat) (block : Term) (h : blocks[i]? = some block) :
      ∃ map, (blocks.zip maps)[i]? = some (block, map) := by
    have hi : i < maps.length := hlength ▸ (List.getElem?_eq_some_iff.mp h).1
    exact ⟨maps[i], List.getElem?_zip_eq_some.mpr ⟨h, List.getElem?_eq_getElem hi⟩⟩
  have hok := alignFrom_ok_iff (blocks.zip maps) ∅ hpairs
  have hwhich := getElem?_of_alignFrom (blocks.zip maps) ∅ hpairs
  simp only [hmaps, hsize, InstanceMap.index_empty, Nat.zero_add] at hok hwhich
  refine ⟨?_, fun aligned h => ?_⟩
  · unfold align
    -- What is said about pairs is said about blocks, each of which is the first of its pair.
    rw [if_pos hlength, hok]
    refine and_congr_right fun _ => ⟨fun h i block hblock => ?_, fun h i p hp => ?_⟩
    · rcases hpaired i block hblock with ⟨map, hmap⟩
      exact h i _ hmap
    · exact h i p.1 (List.getElem?_zip_eq_some.mp hp).1
  · have hsame := length_of_align blocks maps aligned h
    unfold align at h
    rw [if_pos hlength] at h
    have hblocks (i : Nat) (block : Term) (hblock : blocks[i]? = some block) :
        aligned[i]? = some (block.rename (laterName (prefixSum maps i))) := by
      rcases hpaired i block hblock with ⟨map, hmap⟩
      exact hwhich aligned h i _ hmap
    refine ⟨hsame, ?_, hblocks⟩
    -- There is no map before the first block.
    cases hfirst : blocks[0]? with
    | none =>
        rw [List.getElem?_eq_none_iff, ← hsame] at hfirst
        exact List.getElem?_eq_none hfirst
    | some block =>
        rw [hblocks 0 block hfirst, Term.rename_of_fixed _ block fun x hx =>
          laterName_zero _ (prefixSum_zero maps) x
            (hnames block (List.mem_of_getElem? hfirst) x hx)]

/-- The map of a block that writes one variable as often as an index can count. -/
def fullMap : InstanceMap := (∅ : InstanceMap).insert "x" 4294967295

theorem named_counting : ∀ block ∈ [counting, counting], block.Named := by
  have hcounting := Term.named_of_namedWithin countingMap counting namedWithin_counting
  exact List.forall_mem_cons.mpr ⟨hcounting, List.forall_mem_singleton.mpr hcounting⟩

/-- The second of two counting blocks goes from instance 1 to instance 2. Behind a block that has
    used all indices it cannot be aligned, although no sum of maps is too large. -/
theorem align_prefixSums_counting :
    (∃ aligned, align [counting, counting] [countingMap, countingMap] = .ok aligned
      ∧ aligned[1]? = some (counting.rename (laterName (prefixSum [countingMap, countingMap] 1))))
    ∧ ¬∃ aligned, align [counting, counting] [fullMap, ∅] = .ok aligned := by
  refine ⟨?_, fun h => ?_⟩
  · have haligned : align [counting, counting] [countingMap, countingMap]
        = .ok [counting, .cmp .eq (.var "x@2") (.arith .add (.var "x@1") (.int 1))] := by
      decide
    rcases (align_prefixSums _ _ rfl named_counting).2 _ haligned with ⟨_, _, hblocks⟩
    exact ⟨_, haligned, hblocks 1 counting rfl⟩
  · rcases (align_prefixSums _ _ rfl named_counting).1.mp h with ⟨_, hfits⟩
    have hx : instanceName "x" 1 ∈ counting.vars :=
      (Term.mem_vars_cmp _ _ _ _).mpr (Or.inl ((Term.mem_vars_var _ _).mpr (by decide)))
    exact absurd (hfits 1 counting rfl "x" 1 hx) (by decide)

end ActorCheck
