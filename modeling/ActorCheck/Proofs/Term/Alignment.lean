import ActorCheck.Proofs.Term.Instance
import ActorCheck.Proofs.Term.Meaning
import ActorCheck.Term.Alignment

/-!
# Alignment Means Sequential Composition

A block of a trace relates the values of variables on entry, their instances 0, to
the values on exit, the instances that the map of the block names. Blocks in a
row mean that the exit of each is the entry of the next. After alignment one
valuation speaks about all blocks at once, and the two readings agree.

Alignment shifts block `i` by the sum of the maps before it, so under a valuation of
the aligned blocks the original block `i` holds under the valuation that reads
every instance that much later. This gives the valuations of the blocks.

The other direction has to put valuations of the blocks together. The instances
of neighbouring blocks overlap in one instance, the exit of the one and the entry
of the other. If a block does not write a variable, its entry and exit are the
same instance, and then so are those of all blocks around it that do not write the
variable either. `glue` lets the first block decide that an instance belongs to,
and `glue_nameAt` says that every later one agrees. The induction is on the list
of blocks. It needs no more than the step from a block to the next.

## Main definitions

* `InstanceMap.index`: The index of a variable.
* `prefixSum`: The sum of the maps before a block.
* `Term.NamedWithin`: The names of a block are as its map says.
* `shiftedBy`: A valuation that reads every instance later.
* `Composes`: Valuations of blocks that follow each other.
* `glue`: One valuation out of those of the blocks.

## Theorems

* `eval_of_alignFrom`: What an aligned block stands for.
* `glue_nameAt`: The valuations of the blocks are kept.
* `align_satisfiable_iff`: Alignment means sequential composition.
-/

namespace ActorCheck

namespace InstanceMap

/-- The index of a variable, as a natural number. -/
def index (map : InstanceMap) (base : String) : Nat := (map.getD base 0).toNat

theorem index_eq (map : InstanceMap) (base : String) :
    map.index base = (map[base]?.getD 0).toNat := by
  rw [index, Std.ExtTreeMap.getD_eq_getD_getElem?]

theorem index_of_raise (offsets o : InstanceMap) (base : String) (k : UInt32)
    (h : offsets.raise base k = .ok o) (b : String) :
    o.index b = offsets.index b + if base = b then k.toNat else 0 := by
  unfold raise addIndex? at h
  split at h
  next sum hsum =>
    cases h
    -- The sum fits into an index, so it is the sum of the natural numbers.
    have htoNat := toNat_of_indexOfNat? _ sum hsum
    unfold index
    rw [Std.ExtTreeMap.getD_insert]
    by_cases heq : base = b
    · subst heq
      rw [if_pos Std.ReflCmp.compare_self, if_pos rfl, htoNat]
    · have hne : compare base b ≠ .eq := fun hcmp => heq (Std.LawfulEqCmp.eq_of_compare hcmp)
      rw [if_neg hne, if_neg heq, Nat.add_zero]
  next => cases h

/-- Indices of different variables are added one by one. -/
theorem index_of_raiseAll (entries : List (String × UInt32)) (offsets o : InstanceMap)
    (hnodup : (entries.map Prod.fst).Nodup) (h : offsets.raiseAll entries = .ok o) (b : String) :
    (∀ k, (b, k) ∈ entries → o.index b = offsets.index b + k.toNat)
      ∧ (b ∉ entries.map Prod.fst → o.index b = offsets.index b) := by
  induction entries generalizing offsets with
  | nil =>
      cases h
      exact ⟨fun k hk => absurd hk List.not_mem_nil, fun _ => rfl⟩
  | cons entry rest ih =>
      rcases entry with ⟨base, k₀⟩
      rw [List.map_cons, List.nodup_cons] at hnodup
      rw [raiseAll] at h
      rcases (except_bind_ok _ _ _).mp h with ⟨next, hnext, h⟩
      have hraise := index_of_raise offsets next base k₀ hnext b
      rcases ih next hnodup.2 h with ⟨hmem, hnot⟩
      refine ⟨?_, ?_⟩
      · intro k hk
        rcases List.mem_cons.mp hk with heq | hk
        · cases heq
          -- No later entry is for the same variable, so the sum stays.
          rw [hnot hnodup.1, hraise, if_pos rfl]
        · have hne : base ≠ b := by
            rintro rfl
            exact hnodup.1 (List.mem_map.mpr ⟨_, hk, rfl⟩)
          rw [hmem k hk, hraise, if_neg hne, Nat.add_zero]
      · intro hb
        rw [List.map_cons, List.mem_cons, not_or] at hb
        rw [hnot hb.2, hraise, if_neg (Ne.symm hb.1), Nat.add_zero]

/-- A map lists each variable once. -/
theorem nodup_names (map : InstanceMap) : (map.toList.map Prod.fst).Nodup := by
  rw [List.nodup_iff_pairwise_ne, List.pairwise_map]
  refine Std.ExtTreeMap.distinct_keys_toList.imp (fun hne heq => hne ?_)
  rw [heq]
  exact Std.ReflCmp.compare_self

/-- Offsets and a map are added variable by variable. -/
theorem index_of_add (offsets map o : InstanceMap) (h : offsets.add map = .ok o) (b : String) :
    o.index b = offsets.index b + map.index b := by
  rcases index_of_raiseAll map.toList offsets o (nodup_names map) h b with ⟨hmem, hnot⟩
  rw [index_eq map b]
  cases hget : map[b]? with
  | some k => exact hmem k (Std.ExtTreeMap.mem_toList_iff_getElem?_eq_some.mpr hget)
  | none =>
      refine (hnot fun hb => ?_).trans (Nat.add_zero _).symm
      rcases List.mem_map.mp hb with ⟨⟨base, k⟩, hk, rfl⟩
      rw [Std.ExtTreeMap.mem_toList_iff_getElem?_eq_some.mp hk] at hget
      cases hget

theorem index_empty (b : String) : (∅ : InstanceMap).index b = 0 := by
  rw [index_eq, Std.ExtTreeMap.getElem?_empty]
  rfl

end InstanceMap

/-- The sum of the maps before a block. -/
def prefixSum (maps : List InstanceMap) (i : Nat) (base : String) : Nat :=
  match maps, i with
  | map :: maps, i + 1 => map.index base + prefixSum maps i base
  | _, _ => 0

theorem prefixSum_zero (maps : List InstanceMap) (base : String) : prefixSum maps 0 base = 0 := by
  cases maps with
  | nil => rfl
  | cons map maps => rfl

theorem prefixSum_cons (map : InstanceMap) (maps : List InstanceMap) (i : Nat) (base : String) :
    prefixSum (map :: maps) (i + 1) base = map.index base + prefixSum maps i base := rfl

theorem prefixSum_succ (maps : List InstanceMap) (i : Nat) (map : InstanceMap)
    (h : maps[i]? = some map) (base : String) :
    prefixSum maps (i + 1) base = prefixSum maps i base + map.index base := by
  induction maps generalizing i with
  | nil => cases h
  | cons first maps ih =>
      cases i with
      | zero =>
          cases h
          rw [prefixSum_cons, prefixSum_zero, prefixSum_zero, Nat.add_comm]
      | succ i => rw [prefixSum_cons, ih i h, prefixSum_cons, Nat.add_assoc]

/-- The names of a block are as its map says: free of the separator, or instances of
    some variable up to the index in the map. -/
def Term.NamedWithin (map : InstanceMap) (t : Term) : Prop :=
  ∀ x ∈ t.vars, instanceSeparator ∉ x.toList
    ∨ ∃ base k, base ≠ "" ∧ x = instanceName base k ∧ k ≤ map.getD base 0

/-- The valuation that reads every instance later, and other names as they are. -/
def shiftedBy (offset : String → Nat) (ν : Valuation) : Valuation := fun name =>
  match readName name with
  | some (base, k) => ν (nameAt base (offset base + k))
  | none => ν name

theorem shiftedBy_nameAt (offset : String → Nat) (ν : Valuation) (base : String) (n : Nat) :
    shiftedBy offset ν (nameAt base n) = ν (nameAt base (offset base + n)) := by
  unfold shiftedBy
  rw [readName_nameAt]

theorem shiftedBy_plain (offset : String → Nat) (ν : Valuation) (name : String)
    (h : instanceSeparator ∉ name.toList) : shiftedBy offset ν name = ν name := by
  unfold shiftedBy
  rw [readName_plain name h]

section Align

theorem value_of_shiftName (offsets : InstanceMap) (map : InstanceMap) (ν : Valuation)
    (x y : String)
    (hx : instanceSeparator ∉ x.toList
      ∨ ∃ base k, base ≠ "" ∧ x = instanceName base k ∧ k ≤ map.getD base 0)
    (h : shiftName offsets x = .ok y) : ν y = shiftedBy offsets.index ν x := by
  unfold shiftName at h
  rcases (except_bind_ok _ _ _).mp h with ⟨parts, hparts, h⟩
  rcases hx with hplain | ⟨base, k, hbase, rfl, _⟩
  -- A plain name is kept, an instance gets its index raised by the offset.
  · rw [splitInstance_plain x hplain] at hparts
    cases hparts
    cases (except_pure_ok _ _).mp h
    exact (shiftedBy_plain _ ν x hplain).symm
  · rw [instanceName_eq, splitInstance_nameAt base k hbase] at hparts
    cases hparts
    dsimp only at h
    split at h
    next sum hsum =>
      cases (except_pure_ok _ _).mp h
      rw [instanceName_eq, instanceName_eq, shiftedBy_nameAt, toNat_of_indexOfNat? _ sum hsum,
        Nat.add_comm]
      rfl
    next => cases h

/-- What a shifted block stands for. As long as no offset was recorded the block is
    not touched, which comes to the same. -/
theorem eval_of_shiftBlock (offsets map : InstanceMap) (ν : Valuation) (block t : Term)
    (hnames : block.NamedWithin map) (h : shiftBlock offsets block = .ok t) :
    t.eval ν = block.eval (shiftedBy offsets.index ν) := by
  unfold shiftBlock at h
  split at h
  next hempty =>
    cases h
    refine Term.eval_congr ν _ block (fun x hx => ?_)
    -- With no offsets at all the shifted valuation is the given one on the names of the block.
    rw [Std.ExtTreeMap.isEmpty_iff.mp hempty]
    rcases hnames x hx with hplain | ⟨base, k, _, rfl, _⟩
    · exact (shiftedBy_plain _ ν x hplain).symm
    · rw [instanceName_eq, shiftedBy_nameAt, InstanceMap.index_empty, Nat.zero_add]
  next =>
    exact Term.eval_of_traverse (shiftName offsets) ν _ block t h
      (fun x hx y hy => value_of_shiftName offsets map ν x y (hnames x hx) hy)

/-- What the aligned blocks stand for: each the same as the original block with every
    instance read later by the sum of the maps before it. -/
theorem eval_of_alignFrom (ν : Valuation) (pairs : List (Term × InstanceMap))
    (offsets : InstanceMap) (aligned : List Term)
    (hnames : ∀ p ∈ pairs, p.1.NamedWithin p.2) (h : alignFrom offsets pairs = .ok aligned) :
    aligned.length = pairs.length
      ∧ ∀ (i : Nat) (p : Term × InstanceMap) (t : Term), pairs[i]? = some p → aligned[i]? = some t →
        t.eval ν = p.1.eval
          (shiftedBy
            (fun base => offsets.index base + prefixSum (pairs.map Prod.snd) i base) ν) := by
  induction pairs generalizing offsets aligned with
  | nil =>
      cases h
      exact ⟨rfl, fun i p t hp => absurd hp nofun⟩
  | cons pair rest ih =>
      rcases pair with ⟨block, map⟩
      rw [alignFrom] at h
      rcases (except_bind_ok _ _ _).mp h with ⟨first, hfirst, h⟩
      rcases (except_bind_ok _ _ _).mp h with ⟨next, hnext, h⟩
      rcases (except_bind_ok _ _ _).mp h with ⟨later, hlater, h⟩
      cases (except_pure_ok _ _).mp h
      rcases ih next later (fun p hp => hnames p (List.mem_cons_of_mem _ hp)) hlater with
        ⟨hlength, hrest⟩
      refine ⟨by rw [List.length_cons, List.length_cons, hlength], fun i p t hp ht => ?_⟩
      cases i with
      | zero =>
          cases hp
          cases ht
          exact eval_of_shiftBlock offsets map ν block first
            (hnames (block, map) List.mem_cons_self) hfirst
      | succ i =>
          rw [List.getElem?_cons_succ] at hp ht
          -- The offsets of the rest already contain the first map.
          rw [hrest i p t hp ht]
          congr 2
          funext base
          rw [List.map_cons, prefixSum_cons, InstanceMap.index_of_add offsets map next hnext base,
            Nat.add_assoc]

end Align

/-- Valuations of blocks that follow each other. Each block holds under its own. They
    agree on names that are no instances, and the exit of a block is the entry of the
    next. -/
structure Composes (blocks : List Term) (maps : List InstanceMap) (s : Nat → Valuation) :
    Prop where
  holds : ∀ (i : Nat) (block : Term), blocks[i]? = some block → block.Holds (s i)
  plain : ∀ (i j : Nat) (name : String), i < blocks.length → j < blocks.length →
    instanceSeparator ∉ name.toList → s i name = s j name
  continues : ∀ (i : Nat) (base : String) (map : InstanceMap), i + 1 < blocks.length →
    maps[i]? = some map →
      s i (instanceName base (map.getD base 0)) = s (i + 1) (instanceName base 0)

section Glue

/-- One valuation out of those of the blocks. An instance means what the first block
    that has it says. -/
def glue (offset : String → Nat) : List InstanceMap → (Nat → Valuation) → Valuation
  | [], s => s 0
  | map :: maps, s => fun name =>
    match readName name with
    | none => s 0 name
    | some (base, k) =>
      if k ≤ offset base + map.index base then s 0 (nameAt base (k - offset base))
      else glue (fun b => offset b + map.index b) maps (fun i => s (i + 1)) name

theorem glue_plain (offset : String → Nat) (maps : List InstanceMap) (s : Nat → Valuation)
    (name : String) (h : instanceSeparator ∉ name.toList) : glue offset maps s name = s 0 name := by
  cases maps with
  | nil => rfl
  | cons map maps =>
      unfold glue
      rw [readName_plain name h]

/-- The valuations of the blocks are kept: where several blocks have an instance, they
    agree. -/
theorem glue_nameAt (maps : List InstanceMap) (offset : String → Nat) (s : Nat → Valuation)
    (hcontinues : ∀ (i : Nat) (base : String) (map : InstanceMap), i + 1 < maps.length →
      maps[i]? = some map → s i (nameAt base (map.index base)) = s (i + 1) (nameAt base 0))
    (i : Nat) (map : InstanceMap) (hi : maps[i]? = some map) (base : String) (k : Nat)
    (hk : k ≤ map.index base) :
    glue offset maps s (nameAt base (offset base + prefixSum maps i base + k))
      = s i (nameAt base k) := by
  induction maps generalizing offset s i map k with
  | nil => cases hi
  | cons first rest ih =>
      unfold glue
      rw [readName_nameAt]
      dsimp only
      cases i with
      | zero =>
          cases hi
          rw [prefixSum_zero, Nat.add_zero, if_pos (by omega), Nat.add_sub_cancel_left]
      | succ j =>
          rw [List.getElem?_cons_succ] at hi
          have hlength : j < rest.length := (List.getElem?_eq_some_iff.mp hi).1
          have hrest := ih (fun b => offset b + first.index b) (fun i => s (i + 1))
            (fun i base map hlt hmap => hcontinues (i + 1) base map (by
              rw [List.length_cons]
              omega) hmap)
          -- The instance is either left to the later blocks, or shared with the first one.
          have hlater := hrest j map hi k hk
          rw [prefixSum_cons]
          by_cases hshared : offset base + (first.index base + prefixSum rest j base) + k
              ≤ offset base + first.index base
          · -- The instance is the exit of the first block. All blocks in between leave
            -- the variable alone, so it is the entry of the second block as well.
            have hzero : prefixSum rest j base = 0 := by omega
            have hk₀ : k = 0 := by omega
            have hexit : offset base + (first.index base + 0) + 0 - offset base
                = first.index base := by omega
            have hnext : (first :: rest)[0]? = some first := rfl
            have hstep := hcontinues 0 base first (by rw [List.length_cons]; omega) hnext
            have hsecond := List.getElem?_eq_getElem (Nat.lt_of_le_of_lt (Nat.zero_le j) hlength)
            have hentry := hrest 0 _ hsecond 0 (Nat.zero_le _)
            rw [prefixSum_zero] at hentry
            rw [hzero, hk₀] at hlater
            rw [if_pos hshared, hzero, hk₀, hexit, hstep, ← hentry]
            exact hlater
          · have hsum : offset base + (first.index base + prefixSum rest j base) + k
                = offset base + first.index base + prefixSum rest j base + k := by omega
            rw [if_neg hshared, hsum]
            exact hlater

end Glue

/-- Alignment yields one formula for every block. -/
theorem length_of_align (blocks : List Term) (maps : List InstanceMap) (aligned : List Term)
    (h : align blocks maps = .ok aligned) : aligned.length = blocks.length := by
  have hfrom (pairs : List (Term × InstanceMap)) : ∀ (offsets : InstanceMap) (ts : List Term),
      alignFrom offsets pairs = .ok ts → ts.length = pairs.length := by
    induction pairs with
    | nil =>
        intro offsets ts h
        cases h
        rfl
    | cons pair pairs ih =>
        intro offsets ts h
        rw [alignFrom] at h
        rcases (except_bind_ok _ _ _).mp h with ⟨t, -, h⟩
        rcases (except_bind_ok _ _ _).mp h with ⟨sum, -, h⟩
        rcases (except_bind_ok _ _ _).mp h with ⟨later, hlater, h⟩
        cases (except_pure_ok _ _).mp h
        rw [List.length_cons, List.length_cons, ih sum later hlater]
  unfold align at h
  split at h
  next hlength => rw [hfrom _ ∅ aligned h, List.length_zip, ← hlength, Nat.min_self]
  next => cases h

section Composition

variable (blocks : List Term) (maps : List InstanceMap) (aligned : List Term)
  (hnames : ∀ (i : Nat) (block : Term) (map : InstanceMap), blocks[i]? = some block →
    maps[i]? = some map → block.NamedWithin map)
  (h : align blocks maps = .ok aligned)

include hnames h

/-- What the aligned blocks stand for, without offsets at the beginning. -/
theorem eval_of_align (ν : Valuation) : blocks.length = maps.length
    ∧ aligned.length = blocks.length
    ∧ ∀ (i : Nat) (block t : Term), blocks[i]? = some block → aligned[i]? = some t →
      t.eval ν = block.eval (shiftedBy (prefixSum maps i) ν) := by
  unfold align at h
  split at h
  next hlength =>
    -- The two lists are as long as each other, so every block has its map.
    have hpairs : ∀ p ∈ blocks.zip maps, p.1.NamedWithin p.2 := by
      intro p hp
      rcases List.getElem?_of_mem hp with ⟨i, hi⟩
      rcases List.getElem?_zip_eq_some.mp hi with ⟨hblock, hmap⟩
      exact hnames i p.1 p.2 hblock hmap
    rcases eval_of_alignFrom ν (blocks.zip maps) ∅ aligned hpairs h with ⟨hsize, heval⟩
    rw [List.length_zip, ← hlength, Nat.min_self] at hsize
    refine ⟨hlength, hsize, fun i block t hblock ht => ?_⟩
    have hlt : i < maps.length := hlength ▸ (List.getElem?_eq_some_iff.mp hblock).1
    have hzip : (blocks.zip maps)[i]? = some (block, maps[i]) :=
      List.getElem?_zip_eq_some.mpr ⟨hblock, List.getElem?_eq_getElem hlt⟩
    rw [heval i _ t hzip ht, List.map_snd_zip (Nat.le_of_eq hlength.symm)]
    congr 2
    funext base
    rw [InstanceMap.index_empty, Nat.zero_add]
  next => cases h

theorem composes_of_holds (ν : Valuation) (hν : ∀ t ∈ aligned, t.Holds ν) :
    Composes blocks maps fun i => shiftedBy (prefixSum maps i) ν := by
  rcases eval_of_align blocks maps aligned hnames h ν with ⟨hlength, hsize, heval⟩
  refine ⟨?_, ?_, ?_⟩
  · intro i block hblock
    have hlt : i < aligned.length := hsize ▸ (List.getElem?_eq_some_iff.mp hblock).1
    unfold Term.Holds
    rw [← heval i block aligned[i] hblock (List.getElem?_eq_getElem hlt)]
    exact hν aligned[i] (List.getElem_mem hlt)
  · intro i j name _ _ hplain
    rw [shiftedBy_plain _ ν name hplain, shiftedBy_plain _ ν name hplain]
  -- The exit of a block and the entry of the next are one name in the aligned blocks.
  · intro i base map _ hmap
    rw [instanceName_eq, instanceName_eq, shiftedBy_nameAt, shiftedBy_nameAt,
      prefixSum_succ maps i map hmap]
    rfl

theorem holds_of_composes (s : Nat → Valuation) (hs : Composes blocks maps s) :
    ∀ t ∈ aligned, t.Holds (glue (fun _ => 0) maps s) := by
  rcases eval_of_align blocks maps aligned hnames h (glue (fun _ => 0) maps s) with
    ⟨hlength, hsize, heval⟩
  have hcontinues : ∀ (i : Nat) (base : String) (map : InstanceMap), i + 1 < maps.length →
      maps[i]? = some map → s i (nameAt base (map.index base)) = s (i + 1) (nameAt base 0) :=
    fun i base map hlt hmap => hs.continues i base map (hlength ▸ hlt) hmap
  intro t ht
  rcases List.getElem?_of_mem ht with ⟨i, hi⟩
  have hlt : i < blocks.length := hsize ▸ (List.getElem?_eq_some_iff.mp hi).1
  have hblock : blocks[i]? = some blocks[i] := List.getElem?_eq_getElem hlt
  have hltMaps : i < maps.length := hlength ▸ hlt
  have hmap : maps[i]? = some maps[i] := List.getElem?_eq_getElem hltMaps
  have hholds := hs.holds i blocks[i] hblock
  unfold Term.Holds at hholds ⊢
  rw [heval i blocks[i] t hblock hi, ← hholds]
  -- It remains to see that the glued valuation agrees with that of the block on its names.
  refine Term.eval_congr _ _ blocks[i] (fun x hx => ?_)
  rcases hnames i blocks[i] _ hblock hmap x hx with hplain | ⟨base, k, _, rfl, hk⟩
  · rw [shiftedBy_plain _ _ x hplain, glue_plain _ maps s x hplain]
    exact hs.plain 0 i x (Nat.lt_of_le_of_lt (Nat.zero_le i) hlt) hlt hplain
  · rw [instanceName_eq, shiftedBy_nameAt]
    have hglue := glue_nameAt maps (fun _ => 0) s hcontinues i _ hmap base k.toNat
      (UInt32.le_iff_toNat_le.mp hk)
    rw [Nat.zero_add] at hglue
    exact hglue

end Composition

/-- Alignment means sequential composition: one valuation satisfies all aligned blocks
    exactly if there are valuations of the original blocks that follow each other. -/
theorem align_satisfiable_iff (blocks : List Term) (maps : List InstanceMap) (aligned : List Term)
    (hnames : ∀ (i : Nat) (block : Term) (map : InstanceMap), blocks[i]? = some block →
      maps[i]? = some map → block.NamedWithin map)
    (h : align blocks maps = .ok aligned) :
    (∃ ν : Valuation, ∀ t ∈ aligned, t.Holds ν)
      ↔ ∃ s : Nat → Valuation, Composes blocks maps s := by
  constructor
  · rintro ⟨ν, hν⟩
    exact ⟨_, composes_of_holds blocks maps aligned hnames h ν hν⟩
  · rintro ⟨s, hs⟩
    exact ⟨_, holds_of_composes blocks maps aligned hnames h s hs⟩

/-- A block that counts up. -/
def counting : Term := .cmp .eq (.var "x@1") (.arith .add (.var "x@0") (.int 1))

/-- The map of a block that writes one variable once. -/
def countingMap : InstanceMap := (∅ : InstanceMap).insert "x" 1

theorem namedWithin_counting : counting.NamedWithin countingMap := by
  intro x hx
  simp only [counting, Term.mem_vars_cmp, Term.mem_vars_arith, Term.mem_vars_var] at hx
  rcases hx with rfl | rfl | hx
  · exact Or.inr ⟨"x", 1, by decide, by decide, by decide⟩
  · exact Or.inr ⟨"x", 0, by decide, by decide, by decide⟩
  · exact absurd hx Std.ExtTreeSet.not_mem_empty

/-- The second of two blocks that count up starts with the instance at which the first ends. -/
theorem align_satisfiable_iff_counting :
    align [counting, counting] [countingMap, countingMap]
        = .ok [counting, .cmp .eq (.var "x@2") (.arith .add (.var "x@1") (.int 1))]
      ∧ ((∃ ν : Valuation,
          ∀ t ∈ [counting, .cmp .eq (.var "x@2") (.arith .add (.var "x@1") (.int 1))],
          t.Holds ν)
        ↔ ∃ s : Nat → Valuation, Composes [counting, counting] [countingMap, countingMap] s) := by
  have haligned : align [counting, counting] [countingMap, countingMap]
      = .ok [counting, .cmp .eq (.var "x@2") (.arith .add (.var "x@1") (.int 1))] := by
    decide
  refine ⟨haligned, align_satisfiable_iff _ _ _ (fun i block map hblock hmap => ?_) haligned⟩
  have hsame : block = counting ∧ map = countingMap := by
    match i with
    | 0 | 1 => exact ⟨(Option.some.inj hblock).symm, (Option.some.inj hmap).symm⟩
  rw [hsame.1, hsame.2]
  exact namedWithin_counting

end ActorCheck
