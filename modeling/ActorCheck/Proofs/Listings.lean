import Mathlib.Data.List.Nodup

/-!
# Listings

A list may contain the same value several times, each time for a reason of its own. If the reasons
are told apart by keys, then what the list contains is said by a relation of keys and values: each
key that has a value is listed once, with that value. In which order they are listed is left open,
so this determines the list up to a permutation.

Lists are put together in several ways, and each way does something to the keys. Two lists one
after the other need keys that are apart. A list of lists, taken as one, has pairs of keys, one for
the member and one for the value in it.

## Main definitions

* `EachOnce`: A list consists of the values of all keys, each key taken once.

## Theorems

* `exists_key`, `mem_of_key`: The values with a key are those in the list.
* `eachOnce_of_nodup`, `eachOnce_of_positions`: Listings of a list by itself.
* `eachOnce_filter`, `eachOnce_map`, `eachOnce_append`, `eachOnce_reverse`: Parts and changes.
* `eachOnce_flatten`: The lists of several members, one after the other.
-/

namespace ActorCheck

variable {κ ι α β : Type}

/-- A list consists of the values of all keys that have one, each key taken once. -/
def EachOnce (R : κ → α → Prop) (xs : List α) : Prop :=
  ∃ listed : List (κ × α), (listed.map Prod.fst).Nodup ∧ (∀ k x, (k, x) ∈ listed ↔ R k x)
    ∧ listed.map Prod.snd = xs

theorem eachOnce_nil (R : κ → α → Prop) (h : ∀ k x, ¬ R k x) : EachOnce R [] :=
  ⟨[], List.nodup_nil, fun k x => iff_of_false List.not_mem_nil (h k x), rfl⟩

theorem eachOnce_singleton (R : κ → α → Prop) (key : κ) (value : α)
    (h : ∀ k x, R k x ↔ k = key ∧ x = value) : EachOnce R [value] := by
  refine ⟨[(key, value)], List.nodup_singleton _, fun k x => ?_, rfl⟩
  rw [List.mem_singleton, Prod.mk.injEq, h]

theorem eachOnce_congr (R S : κ → α → Prop) (xs : List α) (hxs : EachOnce R xs)
    (h : ∀ k x, R k x ↔ S k x) : EachOnce S xs := by
  rcases hxs with ⟨listed, hnodup, hmem, heq⟩
  exact ⟨listed, hnodup, fun k x => (hmem k x).trans (h k x), heq⟩

theorem eachOnce_reverse (R : κ → α → Prop) (xs : List α) (hxs : EachOnce R xs) :
    EachOnce R xs.reverse := by
  rcases hxs with ⟨listed, hnodup, hmem, rfl⟩
  refine ⟨listed.reverse, ?_, fun k x => List.mem_reverse.trans (hmem k x), List.map_reverse⟩
  rw [List.map_reverse]
  exact List.nodup_reverse.mpr hnodup

theorem eachOnce_append (R S : κ → α → Prop) (xs ys : List α) (hxs : EachOnce R xs)
    (hys : EachOnce S ys) (hapart : ∀ k x y, R k x → ¬ S k y) :
    EachOnce (fun k x => R k x ∨ S k x) (xs ++ ys) := by
  rcases hxs with ⟨listed, hnodup, hmem, rfl⟩
  rcases hys with ⟨others, hnodup', hmem', rfl⟩
  refine ⟨listed ++ others, ?_, fun k x => ?_, List.map_append⟩
  · rw [List.map_append]
    -- A key of both lists would have a value in each of them.
    refine List.Nodup.append hnodup hnodup' fun k hk hk' => ?_
    rcases List.mem_map.mp hk with ⟨⟨_, x⟩, hx, rfl⟩
    rcases List.mem_map.mp hk' with ⟨⟨_, y⟩, hy, rfl⟩
    exact hapart _ x y ((hmem _ x).mp hx) ((hmem' _ y).mp hy)
  · rw [List.mem_append, hmem, hmem']

/-- What a list without repetitions consists of. -/
theorem eachOnce_of_nodup (xs : List α) (h : xs.Nodup) :
    EachOnce (fun k x => k = x ∧ x ∈ xs) xs := by
  -- Every member is its own key.
  refine ⟨xs.map fun x => (x, x), ?_, fun k x => ?_, ?_⟩
  · rw [List.map_map]
    exact (List.map_id xs).symm ▸ h
  · rw [List.mem_map]
    constructor
    · rintro ⟨y, hy, heq⟩
      cases heq
      exact ⟨rfl, hy⟩
    · rintro ⟨rfl, hk⟩
      exact ⟨k, hk, rfl⟩
  · rw [List.map_map]
    exact List.map_id xs

theorem exists_key (R : κ → α → Prop) (xs : List α) (hxs : EachOnce R xs) (x : α) (hx : x ∈ xs) :
    ∃ k, R k x := by
  rcases hxs with ⟨listed, _, hmem, rfl⟩
  rcases List.mem_map.mp hx with ⟨⟨k, _⟩, hkx, rfl⟩
  exact ⟨k, (hmem k _).mp hkx⟩

theorem mem_of_key (R : κ → α → Prop) (xs : List α) (hxs : EachOnce R xs) (k : κ) (x : α)
    (hx : R k x) : x ∈ xs := by
  rcases hxs with ⟨listed, _, hmem, rfl⟩
  exact List.mem_map.mpr ⟨(k, x), (hmem k x).mpr hx, rfl⟩

/-- The members of any list, told apart by their positions. -/
theorem eachOnce_of_positions (xs : List α) : EachOnce (fun (i : Nat) x => xs[i]? = some x) xs := by
  -- The library lists members with their positions, in the opposite order.
  refine ⟨xs.zipIdx.map Prod.swap, ?_, fun i x => ?_, ?_⟩
  · rw [List.map_map]
    change (xs.zipIdx.map Prod.snd).Nodup
    rw [List.zipIdx_map_snd]
    exact List.nodup_range'
  · rw [List.mem_map]
    constructor
    · rintro ⟨⟨y, j⟩, hmem, heq⟩
      cases heq
      exact List.mem_zipIdx_iff_getElem?.mp hmem
    · intro hx
      exact ⟨(x, i), List.mem_zipIdx_iff_getElem?.mpr hx, rfl⟩
  · rw [List.map_map]
    exact List.zipIdx_map_fst 0 xs

theorem eachOnce_filter (R : κ → α → Prop) (xs : List α) (test : α → Bool)
    (hxs : EachOnce R xs) : EachOnce (fun k x => R k x ∧ test x = true) (xs.filter test) := by
  rcases hxs with ⟨listed, hnodup, hmem, rfl⟩
  refine ⟨listed.filter fun p => test p.2, ?_, fun k x => ?_, ?_⟩
  · exact hnodup.sublist (List.filter_sublist.map Prod.fst)
  · rw [List.mem_filter, hmem]
  · rw [List.filter_map]
    rfl

/-- Other values under other keys. Only the keys have to stay different. -/
theorem eachOnce_map {κ' : Type} (R : κ → α → Prop) (xs : List α) (key : κ → κ') (f : α → β)
    (hkey : Function.Injective key) (hxs : EachOnce R xs) :
    EachOnce (fun k' y => ∃ k x, R k x ∧ key k = k' ∧ f x = y) (xs.map f) := by
  rcases hxs with ⟨listed, hnodup, hmem, rfl⟩
  refine ⟨listed.map fun p => (key p.1, f p.2), ?_, fun k' y => ?_, ?_⟩
  · rw [List.map_map]
    change (listed.map (key ∘ Prod.fst)).Nodup
    rw [← List.map_map]
    exact hnodup.map hkey
  · rw [List.mem_map]
    constructor
    · rintro ⟨⟨k, x⟩, hx, heq⟩
      cases heq
      exact ⟨k, x, (hmem k x).mp hx, rfl, rfl⟩
    · rintro ⟨k, x, hx, rfl, rfl⟩
      exact ⟨(k, x), (hmem k x).mpr hx, rfl⟩
  · rw [List.map_map, List.map_map]
    rfl

/-- The lists of several members, one after the other. Together with what tells the members apart,
    what tells their values apart does so for all values. -/
theorem eachOnce_flatten {κ' : Type} (R : ι → β → Prop) (S : β → κ → α → Prop)
    (key : ι → κ → κ') (hkey : ∀ i k i' k', key i k = key i' k' → i = i' ∧ k = k')
    (ys : List β) (xss : List (List α)) (hys : EachOnce R ys)
    (hxss : List.Forall₂ (fun y xs => EachOnce (S y) xs) ys xss) :
    EachOnce (fun k' x => ∃ i y, R i y ∧ ∃ k, S y k x ∧ key i k = k') xss.flatten := by
  rcases hys with ⟨listed, hnodup, hmem, rfl⟩
  simp only [← hmem]
  clear hmem
  -- By induction on the members with their keys, so that the keys of the rest are still different.
  induction listed generalizing xss with
  | nil =>
      cases hxss
      exact eachOnce_nil _ fun _ _ ⟨_, _, hnone, _⟩ => absurd hnone List.not_mem_nil
  | cons p listed ih =>
      rcases p with ⟨i, y⟩
      rw [List.map_cons] at hxss hnodup
      cases hxss with
      | @cons _ xs _ xss hfirst hrest =>
          rcases List.nodup_cons.mp hnodup with ⟨hnew, hnodup⟩
          have hhead := eachOnce_map (S y) xs (key i) id (fun k k' heq => (hkey i k i k' heq).2)
            hfirst
          rw [List.map_id] at hhead
          refine eachOnce_congr _ _ _ (eachOnce_append _ _ _ _ hhead (ih xss hnodup hrest) ?_) ?_
          -- Keys of different members differ, since the members are told apart already.
          · rintro k' x x' ⟨k, _, _, rfl, _⟩ ⟨i', y', hin, k'', _, heq⟩
            rw [(hkey i' k'' i k heq).1] at hin
            exact hnew (List.mem_map.mpr ⟨(i, y'), hin, rfl⟩)
          · intro k' x
            constructor
            · rintro (⟨k, x, hk, heq, rfl⟩ | ⟨i', y', hin, hk⟩)
              · exact ⟨i, y, List.mem_cons_self, k, hk, heq⟩
              · exact ⟨i', y', List.mem_cons_of_mem _ hin, hk⟩
            · rintro ⟨i', y', hin, k, hk, heq⟩
              rcases List.mem_cons.mp hin with hsame | hin
              · cases hsame
                exact Or.inl ⟨k, x, hk, heq, rfl⟩
              · exact Or.inr ⟨i', y', hin, k, hk, heq⟩

end ActorCheck
