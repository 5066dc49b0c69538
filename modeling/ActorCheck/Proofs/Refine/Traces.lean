import ActorCheck.Proofs.Outcome
import ActorCheck.Refine.Refinement
import Mathlib.Data.List.Perm.Subperm

/-!
# The Trace to a Target

A graph under exploration grows by states that are initial or have a parent which is
there already. So parents have smaller numbers, every state has a unique way from a
root, and the numbers along it ascend.

Refinement sees the graph through tables and walks them backwards from a target, with
as many links to spare as the table of predecessors has entries. That is enough: the
states on the way that have a parent are different entries of the table. What the walk
collects are the widening states on the way, and the blocks of these and of the target
are the trace.

## Main definitions

* `ExploredGraph.Grown`: A graph that was built by adding states.
* `ExploredGraph.Ancestors`: The states on the way to a state.
* `ExploredGraph.HasBlock`: The record that holds the block of a state.

## Theorems

* `ExploredGraph.getElem?_addInitial`, `getElem?_addSuccessor`: What a new state changes.
* `ExploredGraph.parent_lt`: Parents have smaller numbers.
* `ExploredGraph.ancestors_exist`: Every state has a way from a root, and `unique` only one.
* `ExploredGraph.wideningPath_eq`: The walk collects the widening states on the way.
* `ExploredGraph.traceTo_eq`: The trace to a target consists of the aligned blocks.
-/

namespace ActorCheck

namespace ExploredGraph

section Tables

variable {α β : Type}

/-- A table of what the members of a list have, by their positions. -/
theorem getElem?_ofList_zipIdx (f : α → Option β) (xs : List α) (i : Nat) :
    (Std.ExtTreeMap.ofList (xs.zipIdx.filterMap fun (x, j) => (f x).map fun y => (j, y)))[i]?
      = xs[i]?.bind f := by
  have hentry (j : Nat) (y : β) :
      (j, y) ∈ xs.zipIdx.filterMap (fun (x, j) => (f x).map fun y => (j, y))
      ↔ xs[j]?.bind f = some y := by
    simp only [List.mem_filterMap, Prod.exists, List.mem_zipIdx_iff_getElem?,
      Option.map_eq_some_iff, Prod.mk.injEq, Option.bind_eq_some_iff]
    constructor
    · rintro ⟨x, j', hx, y', hy, rfl, rfl⟩
      exact ⟨x, hx, hy⟩
    · rintro ⟨x, hx, hy⟩
      exact ⟨x, j, hx, y, hy, rfl, rfl⟩
  -- Positions are different, so each of them has one entry at most.
  have hdistinct : (xs.zipIdx.filterMap fun (x, j) => (f x).map fun y => (j, y)).Pairwise
      fun a b => ¬ compare a.1 b.1 = .eq := by
    have hascending : xs.zipIdx.Pairwise fun a b => a.2 < b.2 := by
      rw [← List.pairwise_map, List.zipIdx_map_snd]
      exact List.pairwise_lt_range'
    refine List.Pairwise.filterMap _ ?_ hascending
    rintro ⟨x, j⟩ ⟨x', j'⟩ hlt ⟨k, y⟩ hk ⟨k', y'⟩ hk'
    rcases Option.map_eq_some_iff.mp hk with ⟨_, _, heq⟩
    rcases Option.map_eq_some_iff.mp hk' with ⟨_, _, heq'⟩
    cases heq
    cases heq'
    rw [Std.LawfulEqCmp.compare_eq_iff_eq]
    exact Nat.ne_of_lt hlt
  rcases hi : xs[i]?.bind f with _ | y
  · refine Std.ExtTreeMap.getElem?_ofList_of_contains_eq_false ?_
    rw [← Bool.not_eq_true, List.contains_iff_mem, List.mem_map]
    rintro ⟨⟨j, y⟩, hmem, rfl⟩
    cases hi.symm.trans ((hentry j y).mp hmem)
  · exact Std.ExtTreeMap.getElem?_ofList_of_mem (Std.ReflCmp.compare_self) hdistinct
      ((hentry i y).mpr hi)

/-- The same if all members have something. -/
theorem getElem?_ofList_zipIdx_map (f : α → β) (xs : List α) (i : Nat) :
    (Std.ExtTreeMap.ofList (xs.zipIdx.map fun (x, j) => (j, f x)))[i]? = xs[i]?.map f := by
  refine Eq.trans ?_ ((getElem?_ofList_zipIdx (fun x => some (f x)) xs i).trans
    Option.map_eq_bind.symm)
  -- A map is a filter that keeps everything.
  refine congrArg (fun entries : List (Nat × β) => (Std.ExtTreeMap.ofList entries)[i]?) ?_
  rw [← List.filterMap_eq_map']
  rfl

end Tables

/-- A graph that was built by adding states. -/
inductive Grown : ExploredGraph → Prop
  | empty : Grown empty
  | initial (g : ExploredGraph) (s : StateRecord) : Grown g → Grown (g.addInitial s)
  | successor (g g' : ExploredGraph) (p : StateId) (s : StateRecord) : Grown g →
      g.addSuccessor p s = .ok g' → Grown g'

/-- The states on the way from a root to a state, without the state itself. -/
inductive Ancestors (g : ExploredGraph) : StateId → List StateId → Prop
  | root (s : StateId) (n : ExploredNode) : g.nodes[s]? = some n → n.parent = none →
      Ancestors g s []
  | found (s p : StateId) (n : ExploredNode) (path : List StateId) : g.nodes[s]? = some n →
      n.parent = some p → Ancestors g p path → Ancestors g s (path ++ [p])

/-- Abstraction was applied at a state. -/
def widens (g : ExploredGraph) (s : StateId) : Bool := g.nodes[s]?.any (·.state.isWidening)

/-- The record that holds the block of a state: that of the state it was widened from, if
    there is one, and its own otherwise. -/
inductive HasBlock (g : ExploredGraph) (s : StateId) : StateRecord → Prop
  | own (n : ExploredNode) : g.nodes[s]? = some n → n.state.wideningOf = none →
      HasBlock g s n.state
  | widened (n m : ExploredNode) (source : StateId) : g.nodes[s]? = some n →
      n.state.wideningOf = some source → g.nodes[source]? = some m → HasBlock g s m.state

section Additions

/-- A list with one more member. -/
theorem getElem?_concat {α : Type} (xs : List α) (x : α) (i : Nat) :
    (xs ++ [x])[i]? = if i = xs.length then some x else xs[i]? := by
  rcases Nat.lt_trichotomy i xs.length with hlt | rfl | hgt
  · rw [List.getElem?_append_left hlt, if_neg (Nat.ne_of_lt hlt)]
  · rw [List.getElem?_concat_length, if_pos rfl]
  · rw [List.getElem?_eq_none (by rw [List.length_append]; exact hgt),
      List.getElem?_eq_none (Nat.le_of_lt hgt), if_neg (Nat.ne_of_gt hgt)]

variable (g : ExploredGraph) (r : StateRecord)

theorem getElem?_addInitial (s : StateId) : (g.addInitial r).nodes[s]?
    = if s = g.size then some ⟨r, none, []⟩ else g.nodes[s]? :=
  getElem?_concat g.nodes _ s

/-- A new state is adopted by its parent, and nothing else changes. -/
theorem getElem?_addSuccessor (g' : ExploredGraph) (p : StateId)
    (h : g.addSuccessor p r = .ok g') :
    p < g.size ∧ g'.size = g.size + 1 ∧ g'.initial = g.initial
      ∧ ∀ s, g'.nodes[s]? = if s = g.size then some ⟨r, some p, []⟩
        else g.nodes[s]?.map fun n => if p = s then n.adopt g.size else n := by
  unfold addSuccessor at h
  split at h
  next hp =>
    cases h
    refine ⟨hp, ?_, rfl, fun s => ?_⟩
    · unfold size
      rw [List.length_append, List.length_modify]
      rfl
    · refine (getElem?_concat _ _ s).trans ?_
      rw [List.length_modify, List.getElem?_modify]
      rfl
  next => cases h

end Additions

section Growth

variable (g : ExploredGraph) (hg : g.Grown)

include hg

/-- Parents have smaller numbers. -/
theorem parent_lt (s p : StateId) (n : ExploredNode) (hn : g.nodes[s]? = some n)
    (hp : n.parent = some p) : p < s := by
  induction hg generalizing s n with
  | empty => cases hn
  | initial g r _ ih =>
      rw [getElem?_addInitial] at hn
      split at hn
      next =>
        cases hn
        cases hp
      next => exact ih s n hn hp
  | successor g g' q r _ h ih =>
      rcases getElem?_addSuccessor g r g' q h with ⟨hq, _, _, hnodes⟩
      rw [hnodes] at hn
      split at hn
      next hs =>
        cases hn
        cases hp
        exact hs ▸ hq
      -- A state that was there has the parent that it had.
      next =>
        rcases Option.map_eq_some_iff.mp hn with ⟨m, hm, rfl⟩
        refine ih s m hm ?_
        split at hp
        next => exact hp
        next => exact hp

/-- Every state has a way from a root. -/
theorem ancestors_exist (s : StateId) (n : ExploredNode) (hn : g.nodes[s]? = some n) :
    ∃ path, g.Ancestors s path := by
  -- The induction is on the number of the state, as its parent has a smaller one.
  induction s using Nat.strongRecOn generalizing n with
  | ind s ih =>
      rcases hparent : n.parent with _ | p
      · exact ⟨[], .root s n hn hparent⟩
      -- The parent was there before, so the way to it is known and the state comes behind it.
      · have hlt := parent_lt g hg s p n hn hparent
        have hp : p < g.nodes.length :=
          Nat.lt_trans hlt (List.getElem?_eq_some_iff.mp hn).1
        rcases ih p hlt g.nodes[p] (List.getElem?_eq_getElem hp) with ⟨path, hpath⟩
        exact ⟨path ++ [p], .found s p n path hn hparent hpath⟩

/-- The numbers on the way to a state ascend. -/
theorem Ancestors.ascending (s : StateId) (path : List StateId) (h : g.Ancestors s path) :
    (path ++ [s]).Pairwise (· < ·) := by
  induction h with
  | root s n hn hparent => exact List.pairwise_singleton _ _
  | found s p n path hn hparent _ ih =>
      rw [List.pairwise_append]
      refine ⟨ih, List.pairwise_singleton _ _, ?_⟩
      have hlt := parent_lt g hg s p n hn hparent
      intro q hq s' hs'
      rw [List.mem_singleton.mp hs']
      rcases List.mem_append.mp hq with hq | hq
      · have hqp := (List.pairwise_append.mp ih).2.2 q hq p List.mem_cons_self
        exact Nat.lt_trans hqp hlt
      · rw [List.mem_singleton.mp hq]
        exact hlt

end Growth

section Walk

variable (g : ExploredGraph)

theorem state_accessibility (s : StateId) : g.accessibility.state s
    = match g.nodes[s]? with
      | some n => .ok n.state
      | none => .error (.contract (.unknownState s)) := by
  have hstates : g.accessibility.states[s]? = g.nodes[s]?.map (·.state) :=
    getElem?_ofList_zipIdx_map ExploredNode.state g.nodes s
  unfold Accessibility.state
  rw [hstates]
  rcases g.nodes[s]? with _ | n
  · rfl
  · rfl

theorem childrenOf_accessibility (s : StateId) :
    g.accessibility.childrenOf s = (g.nodes[s]?.map (·.children)).getD [] :=
  Std.ExtTreeMap.getD_eq_getD_getElem?.trans
    (congrArg (·.getD []) (getElem?_ofList_zipIdx_map ExploredNode.children g.nodes s))

theorem parentOf_accessibility (s : StateId) :
    g.accessibility.parentOf s = g.nodes[s]?.bind (·.parent) :=
  getElem?_ofList_zipIdx (fun n : ExploredNode => n.parent) g.nodes s

theorem Ancestors.exists_node (s : StateId) (path : List StateId) (h : g.Ancestors s path) :
    ∃ n, g.nodes[s]? = some n := by
  cases h with
  | root _ n hn => exact ⟨n, hn⟩
  | found _ _ n _ hn => exact ⟨n, hn⟩

theorem mem_predecessors (s p : StateId) (n : ExploredNode) (hn : g.nodes[s]? = some n)
    (hp : n.parent = some p) : s ∈ g.accessibility.predecessors := by
  rw [Std.ExtTreeMap.mem_iff_isSome_getElem?]
  change (g.accessibility.parentOf s).isSome = true
  rw [parentOf_accessibility, hn, Option.bind_some, hp]
  rfl

/-- The states on the way that have a parent are entries of the table of predecessors. -/
theorem Ancestors.mem_predecessors (s : StateId) (path : List StateId) (h : g.Ancestors s path) :
    ∀ t ∈ (path ++ [s]).tail, t ∈ g.accessibility.predecessors := by
  induction h with
  | root s n hn hparent => exact nofun
  | found s p n path hn hparent _ ih =>
      -- Every state behind the root has a parent, the last one included.
      rw [List.tail_append_of_ne_nil (by simp only [ne_eq, List.append_eq_nil_iff,
        List.cons_ne_nil, and_false, not_false_eq_true])]
      intro t ht
      rcases List.mem_append.mp ht with ht | ht
      · exact ih t ht
      · rw [List.mem_singleton.mp ht]
        exact ExploredGraph.mem_predecessors g s p n hn hparent

/-- A way has no more links than the table of predecessors has entries. -/
theorem Ancestors.length_le (hg : g.Grown) (s : StateId) (path : List StateId)
    (h : g.Ancestors s path) : path.length ≤ g.accessibility.predecessors.size := by
  -- Ascending numbers are different ones, and all of them are keys of the table.
  have hnodup : (path ++ [s]).tail.Nodup :=
    (h.ascending g hg s path).imp (fun hlt => Nat.ne_of_lt hlt) |>.tail
  have hsub : (path ++ [s]).tail ⊆ g.accessibility.predecessors.keys := fun t ht =>
    Std.ExtTreeMap.mem_keys.mpr (h.mem_predecessors g s path t ht)
  have hlength := (hnodup.subperm hsub).length_le
  rwa [List.length_tail, List.length_append, List.length_singleton, Nat.add_sub_cancel,
    Std.ExtTreeMap.length_keys] at hlength

/-- There is one way to a state. -/
theorem Ancestors.unique (s : StateId) (path path' : List StateId) (h : g.Ancestors s path)
    (h' : g.Ancestors s path') : path = path' := by
  -- A state has one parent or none, so the last link is the same on both ways, and so are the
  -- others.
  induction h generalizing path' with
  | root s n hn hparent =>
      cases h' with
      | root => rfl
      | found _ p m _ hm hp =>
          rw [hn] at hm
          cases hm
          cases hparent.symm.trans hp
  | found s p n path hn hparent _ ih =>
      cases h' with
      | root _ m hm hroot =>
          rw [hn] at hm
          cases hm
          cases hparent.symm.trans hroot
      | found _ q m path' hm hq hpath' =>
          rw [hn] at hm
          cases hm
          cases hparent.symm.trans hq
          rw [ih path' hpath']

/-- Walking back collects the widening states on the way. -/
theorem wideningsBefore_eq (s : StateId) (path : List StateId) (h : g.Ancestors s path)
    (links : Nat) (hlinks : path.length ≤ links) (found : List StateId) :
    g.accessibility.wideningsBefore links (g.accessibility.parentOf s) found
      = .ok (path.filter g.widens ++ found) := by
  -- The walk goes the way backwards, so what it has found so far stands behind what is still to
  -- come.
  induction h generalizing links found with
  | root s n hn hparent =>
      rw [parentOf_accessibility, hn, Option.bind_some, hparent]
      cases links with
      | zero => rfl
      | succ links => rfl
  | found s p n path hn hparent hpath ih =>
      rw [List.length_append, List.length_singleton] at hlinks
      rcases Nat.exists_eq_add_of_le' (Nat.le_of_add_left_le hlinks) with ⟨links, rfl⟩
      rw [parentOf_accessibility, hn, Option.bind_some, hparent, Accessibility.wideningsBefore,
        state_accessibility]
      rcases hpath.exists_node g p path with ⟨m, hm⟩
      rw [hm]
      change g.accessibility.wideningsBefore links (g.accessibility.parentOf p)
        (if m.state.isWidening then p :: found else found) = _
      rw [ih links (by omega), List.filter_append, List.append_assoc]
      have hwidens : g.widens p = m.state.isWidening := by rw [widens, hm, Option.any_some]
      rw [List.filter_singleton, hwidens]
      cases m.state.isWidening with
      | true => rfl
      | false => rfl

/-- The widening states on the way to a target, closed by the target. -/
theorem wideningPath_eq (hg : g.Grown) (target : StateId) (path : List StateId)
    (h : g.Ancestors target path) :
    g.accessibility.wideningPath target = .ok (path.filter g.widens ++ [target]) := by
  rcases h.exists_node g target path with ⟨n, hn⟩
  rw [Accessibility.wideningPath, state_accessibility, hn]
  exact wideningsBefore_eq g target path h _
    (Nat.le_succ_of_le (h.length_le g hg target path)) [target]

theorem blockOf_accessibility (s : StateId) (r : StateRecord) (h : g.HasBlock s r) :
    Refinement.blockOf g.accessibility s = .ok r := by
  cases h with
  | own n hn hown =>
      refine (except_bind_ok _ _ _).mpr ⟨n.state, by rw [state_accessibility, hn], ?_⟩
      rw [hown]
      rfl
  | widened n m source hn hsource hm =>
      refine (except_bind_ok _ _ _).mpr ⟨n.state, by rw [state_accessibility, hn], ?_⟩
      rw [hsource]
      exact (state_accessibility g source).trans (by rw [hm])

/-- The trace to a target consists of the aligned blocks on the way to it. -/
theorem traceTo_eq (hg : g.Grown) (target : StateId) (path : List StateId)
    (hpath : g.Ancestors target path) (blocks : List StateRecord)
    (hblocks : List.Forall₂ g.HasBlock (path.filter g.widens ++ [target]) blocks) :
    Refinement.traceTo g.accessibility target
      = (align (blocks.map StateRecord.formula) (blocks.map StateRecord.instances)).mapError
        .alignment := by
  have hread : (path.filter g.widens ++ [target]).mapM (Refinement.blockOf g.accessibility)
      = .ok blocks := by
    rw [except_mapM_ok]
    exact hblocks.imp fun s r => blockOf_accessibility g s r
  rw [Refinement.traceTo, wideningPath_eq g hg target path hpath]
  change ((path.filter g.widens ++ [target]).mapM (Refinement.blockOf g.accessibility) >>= _) = _
  rw [hread]
  rfl

end Walk

end ExploredGraph

end ActorCheck
