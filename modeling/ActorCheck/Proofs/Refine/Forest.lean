import ActorCheck.Proofs.Refine.Restarts

/-!
# Explored Graphs Are Forests

A graph under exploration keeps every link twice, with the child as its parent and with the parent
among its children, and it keeps a list of the initial states besides. None of this is checked. It
is right because states are only added, and because a state that is to be added behind one that is
not there is refused and nothing happens.

The lists hold what can be read off the parents: the children of a state are the states with that
parent, and the initial states are those without one, in the order of their numbers. As parents
have smaller numbers the links form trees, so a state belongs to one initial state and there is one
way to it. The walk back from a target follows that way and comes to its end, from a number without
a state as well.

## Main definitions

* `ExploredGraph.attempt`, `ExploredGraph.attemptAll`: Additions that may be refused.
* `ExploredGraph.Forest`: The links form trees, and the lists agree with them.

## Theorems

* `ExploredGraph.initial_eq`, `ExploredGraph.children_eq`: The lists are read off the parents.
* `ExploredGraph.head_of_reaches`: A state is reached from the root of its way only.
* `ExploredGraph.walk_ends`: The walk along parents comes to an end.
* `ExploredGraph.forest_of_attempts`: Whatever was attempted, the graph is a forest, and the
  widening path to a target is read off the way to it.
-/

namespace ActorCheck

namespace ExploredGraph

/-- The graph after an attempt to add a state. If the addition is refused it is as before. -/
def attempt (g : ExploredGraph) (addition : Option StateId × StateRecord) : ExploredGraph :=
  match g.add addition.1 addition.2 with
  | .ok larger => larger
  | .error _ => g

/-- The graph after attempts to add states, one after the other. -/
def attemptAll (additions : List (Option StateId × StateRecord)) : ExploredGraph :=
  additions.foldl attempt empty

/-- The links between states form trees, and the lists of initial states and of children agree with
    the links to parents. -/
structure Forest (g : ExploredGraph) : Prop where
  /-- Parents have smaller numbers. -/
  parent_lt (s p : StateId) : g.accessibility.parentOf s = some p → p < s
  /-- The children of a state are the states with that parent, in the order of their numbers. -/
  children (p : StateId) : g.accessibility.childrenOf p
    = (List.range g.size).filter fun s => g.accessibility.parentOf s = some p
  /-- The initial states are the states without parent, in the order of their numbers. -/
  initial : g.accessibility.initial
    = (List.range g.size).filter fun s => g.accessibility.parentOf s = none
  /-- A state is reached from one initial state. -/
  root (s : StateId) : s < g.size ↔ ∃! root, root ∈ g.accessibility.initial
    ∧ Relation.ReflTransGen g.accessibility.Leads root s
  /-- There is one way to a state. -/
  way (s : StateId) : s < g.size ↔ ∃! path, g.Ancestors s path

section Attempts

theorem grown_attempt (g : ExploredGraph) (hg : g.Grown) (addition : Option StateId × StateRecord) :
    (g.attempt addition).Grown := by
  rcases addition with ⟨_ | p, r⟩
  · exact .initial g r hg
  · change (match g.addSuccessor p r with | .ok larger => larger | .error _ => g).Grown
    cases hadd : g.addSuccessor p r with
    | ok larger => exact .successor g larger p r hg hadd
    | error e => exact hg

theorem grown_attemptAll (additions : List (Option StateId × StateRecord)) :
    (attemptAll additions).Grown := by
  -- From any graph that has grown, as the induction is on what is still to be attempted.
  have hkept : ∀ g : ExploredGraph, g.Grown → (additions.foldl attempt g).Grown := by
    induction additions with
    | nil => exact fun g hg => hg
    | cons addition additions ih => exact fun g hg => ih _ (grown_attempt g hg addition)
  exact hkept empty .empty

end Attempts

section Lists

variable (g : ExploredGraph)

/-- Counting up to one more number. -/
theorem filter_range_succ (p : Nat → Bool) (n : Nat) :
    (List.range (n + 1)).filter p = (List.range n).filter p ++ if p n then [n] else [] := by
  rw [List.range_succ, List.filter_append, List.filter_singleton, Bool.cond_eq_ite]

/-- The parents of the states that were there do not change. -/
theorem parentOf_addInitial (r : StateRecord) (s : StateId) :
    (g.addInitial r).accessibility.parentOf s
      = if s = g.size then none else g.accessibility.parentOf s := by
  rw [parentOf_accessibility, parentOf_accessibility, getElem?_addInitial]
  -- Only the number of the new state is not found among the old ones.
  split
  next => rfl
  next => rfl

theorem parentOf_addSuccessor (g' : ExploredGraph) (p : StateId) (r : StateRecord)
    (h : g.addSuccessor p r = .ok g') (s : StateId) : g'.accessibility.parentOf s
      = if s = g.size then some p else g.accessibility.parentOf s := by
  rcases getElem?_addSuccessor g r g' p h with ⟨_, _, _, hnodes⟩
  -- The parent may have got another child, which does not change its own parent.
  rw [parentOf_accessibility, parentOf_accessibility, hnodes]
  split
  next => rfl
  next =>
    cases g.nodes[s]? with
    | none => rfl
    | some n =>
        change (if p = s then n.adopt g.size else n).parent = n.parent
        split
        next => rfl
        next => rfl

/-- Which of the states that were there have a certain parent, or none, does not change when a state
    is added. -/
theorem filter_range_of_added (g' : ExploredGraph) (parent wanted : Option StateId)
    (hparent : ∀ s, g'.accessibility.parentOf s
      = if s = g.size then parent else g.accessibility.parentOf s) :
    (List.range (g.size + 1)).filter (fun s => g'.accessibility.parentOf s = wanted)
      = (List.range g.size).filter (fun s => g.accessibility.parentOf s = wanted)
        ++ if parent = wanted then [g.size] else [] := by
  rw [filter_range_succ, hparent g.size, if_pos rfl]
  refine congrArg₂ _ (List.filter_congr fun s hs => ?_) ?_
  · rw [hparent s, if_neg (Nat.ne_of_lt (List.mem_range.mp hs))]
  · simp only [decide_eq_true_eq]

/-- The initial states are the states without parent. -/
theorem initial_eq (hg : g.Grown) :
    g.initial = (List.range g.size).filter fun s => g.accessibility.parentOf s = none := by
  -- Each addition appends its own number to the list, or does not, depending on whether it has a
  -- parent.
  induction hg with
  | empty => rfl
  | initial g r _ ih =>
      have hsize : (g.addInitial r).size = g.size + 1 := List.length_append
      rw [hsize, filter_range_of_added g _ none none (parentOf_addInitial g r), if_pos rfl, ← ih]
      rfl
  | successor g g' p r _ h ih =>
      rcases getElem?_addSuccessor g r g' p h with ⟨_, hsize, hinitial, _⟩
      rw [hsize, hinitial, filter_range_of_added g g' _ none (parentOf_addSuccessor g g' p r h),
        if_neg (Option.some_ne_none p), List.append_nil, ih]

/-- A state that is not there is nobody's parent. -/
theorem filter_range_of_absent (hg : g.Grown) (p : StateId) (hp : g.size ≤ p) :
    (List.range g.size).filter (fun s => g.accessibility.parentOf s = some p) = [] := by
  rw [List.filter_eq_nil_iff]
  intro s hs hparent
  rw [decide_eq_true_eq, parentOf_accessibility] at hparent
  rcases Option.bind_eq_some_iff.mp hparent with ⟨n, hn, hparent⟩
  -- Parents come before their children, so a parent is a state that is there.
  have hlt : p < g.size := Nat.lt_trans (parent_lt g hg s p n hn hparent) (List.mem_range.mp hs)
  exact Nat.not_le_of_lt hlt hp

/-- The children of a state are the states with that parent. -/
theorem children_eq (hg : g.Grown) (p : StateId) : g.accessibility.childrenOf p
    = (List.range g.size).filter fun s => g.accessibility.parentOf s = some p := by
  rw [childrenOf_accessibility]
  induction hg generalizing p with
  | empty => rfl
  | initial g r hg ih =>
      have hsize : (g.addInitial r).size = g.size + 1 := List.length_append
      rw [hsize, filter_range_of_added g _ none (some p) (parentOf_addInitial g r),
        if_neg (Option.some_ne_none p).symm, List.append_nil, getElem?_addInitial]
      split
      next hp => exact (filter_range_of_absent g hg p (Nat.le_of_eq hp.symm)).symm
      next => exact ih p
  | successor g g' q r hg h ih =>
      rcases getElem?_addSuccessor g r g' q h with ⟨hq, hsize, _, hnodes⟩
      rw [hsize, filter_range_of_added g g' _ (some p) (parentOf_addSuccessor g g' q r h), hnodes]
      split
      next hp =>
        rw [filter_range_of_absent g hg p (Nat.le_of_eq hp.symm), List.nil_append,
          if_neg fun heq => Nat.ne_of_lt hq ((Option.some.inj heq).trans hp)]
        rfl
      -- Only the parent of the new state gets another child.
      next =>
        rw [← ih p]
        by_cases hadopts : q = p
        · subst hadopts
          rw [if_pos rfl, List.getElem?_eq_getElem hq]
          simp only [Option.map_some, if_pos, Option.getD_some, ExploredNode.adopt]
        · rw [if_neg fun heq => hadopts (Option.some.inj heq), List.append_nil]
          simp only [if_neg hadopts, Option.map_id']

end Lists

section Trees

variable (g : ExploredGraph) (hg : g.Grown)

include hg

theorem parentOf_lt (s p : StateId) (h : g.accessibility.parentOf s = some p) : p < s := by
  rw [parentOf_accessibility] at h
  rcases Option.bind_eq_some_iff.mp h with ⟨n, hn, hp⟩
  exact parent_lt g hg s p n hn hp

theorem leads_iff (p s : StateId) :
    g.accessibility.Leads p s ↔ g.accessibility.parentOf s = some p := by
  unfold Accessibility.Leads
  rw [children_eq g hg, List.mem_filter, List.mem_range, decide_eq_true_eq, and_iff_right_iff_imp]
  intro hparent
  rw [parentOf_accessibility] at hparent
  rcases Option.bind_eq_some_iff.mp hparent with ⟨n, hn, _⟩
  exact g.lt_size_of_getElem? s n hn

/-- An initial state that leads to a state stands at the beginning of the way to it. -/
theorem head_of_reaches (s root : StateId) (path : List StateId) (h : g.Ancestors s path)
    (hroot : root ∈ g.initial) (hway : Relation.ReflTransGen g.accessibility.Leads root s) :
    (path ++ [s]).head? = some root := by
  rw [initial_eq g hg, List.mem_filter, decide_eq_true_eq] at hroot
  -- By induction on the way to the state. Both the way and the chain of children are followed from
  -- their ends.
  induction h with
  | root s n hn hparent =>
      rcases Relation.ReflTransGen.cases_tail hway with rfl | ⟨p, _, hleads⟩
      · rfl
      · rw [leads_iff g hg, parentOf_accessibility, hn, Option.bind_some, hparent] at hleads
        cases hleads
  | found s p n path hn hparent _ ih =>
      have hs : g.accessibility.parentOf s = some p := by
        rw [parentOf_accessibility, hn, Option.bind_some, hparent]
      rcases Relation.ReflTransGen.cases_tail hway with rfl | ⟨q, hbefore, hleads⟩
      · cases hroot.2.symm.trans hs
      -- The last link of the chain comes from the parent, which is also the last one on the way.
      · cases ((leads_iff g hg q s).mp hleads).symm.trans hs
        rw [List.head?_append, ih hbefore, Option.some_or]

/-- The walk along parents comes to an end, since the numbers fall. -/
theorem walk_ends (s : StateId) :
    ∃ links ≤ s + 1, (fun t => t.bind g.accessibility.parentOf)^[links] (some s) = none := by
  -- The parent has a smaller number, so the induction is not on links but on numbers.
  induction s using Nat.strongRecOn with
  | ind s ih =>
      cases hparent : g.accessibility.parentOf s with
      | none => exact ⟨1, Nat.le_add_left 1 s, hparent⟩
      | some p =>
          have hlt := parentOf_lt g hg s p hparent
          rcases ih p hlt with ⟨links, hlinks, hends⟩
          refine ⟨links + 1, Nat.succ_le_succ (Nat.le_trans hlinks hlt), ?_⟩
          rw [Function.iterate_succ_apply, Option.bind_some, hparent]
          exact hends

theorem lt_size_iff_ancestors (s : StateId) : s < g.size ↔ ∃! path, g.Ancestors s path := by
  constructor
  · intro hs
    rcases ancestors_exist g hg s _ (List.getElem?_eq_getElem hs) with ⟨path, hpath⟩
    exact ⟨path, hpath, fun path' hpath' => hpath'.unique g s path' path hpath⟩
  · rintro ⟨path, hpath, _⟩
    rcases hpath.exists_node g s path with ⟨n, hn⟩
    exact g.lt_size_of_getElem? s n hn

theorem forest_of_grown : g.Forest where
  parent_lt := parentOf_lt g hg
  children := children_eq g hg
  initial := initial_eq g hg
  root s := by
    rw [← g.found_iff hg]
    constructor
    · intro hfound
      rcases (lt_size_iff_ancestors g hg s).mp ((g.found_iff hg s).mp hfound) with ⟨path, hpath, _⟩
      rcases hfound with ⟨root, hroot, hway⟩
      -- The way to the state has one beginning, and every root that leads to the state stands
      -- there.
      refine ⟨root, ⟨hroot, hway⟩, fun root' ⟨hroot', hway'⟩ => ?_⟩
      have hhead := head_of_reaches g hg s root path hpath hroot hway
      have hhead' := head_of_reaches g hg s root' path hpath hroot' hway'
      exact Option.some.inj (hhead'.symm.trans hhead)
    · exact fun hroot => hroot.exists
  way := lt_size_iff_ancestors g hg

end Trees

/-- Whatever is attempted, additions that are refused included, the graph is a forest. The walk back
    from any number comes to an end. The widening path fails exactly for numbers without a state,
    and otherwise it consists of the widening states on the way to the target, in ascending order,
    and of the target. More links than the way has make no difference to the walk. -/
theorem forest_of_attempts (additions : List (Option StateId × StateRecord)) :
    (attemptAll additions).Forest
      ∧ ∀ target,
        (∃ links ≤ target + 1,
          (fun t => t.bind (attemptAll additions).accessibility.parentOf)^[links] (some target)
            = none)
        ∧ ((∃ e, (attemptAll additions).accessibility.wideningPath target = .error e)
          ↔ (attemptAll additions).size ≤ target)
        ∧ ∀ path, (attemptAll additions).Ancestors target path →
          (attemptAll additions).accessibility.wideningPath target
              = .ok (path.filter (attemptAll additions).widens ++ [target])
            ∧ (path.filter (attemptAll additions).widens ++ [target]).Pairwise (· < ·)
            ∧ ∀ links, path.length ≤ links →
              (attemptAll additions).accessibility.wideningsBefore links
                  ((attemptAll additions).accessibility.parentOf target) [target]
                = (attemptAll additions).accessibility.wideningPath target := by
  have hg := grown_attemptAll additions
  -- How the graph came about does not matter any more.
  generalize attemptAll additions = g at hg ⊢
  refine ⟨forest_of_grown g hg, fun target => ⟨walk_ends g hg target, ?_, fun path hpath => ?_⟩⟩
  · constructor
    · rintro ⟨e, hfails⟩
      -- A state that is there has a way to it, and then the path is known and no error.
      by_contra hlt
      rcases (lt_size_iff_ancestors g hg target).mp (Nat.lt_of_not_le hlt) with ⟨path, hpath, _⟩
      cases (wideningPath_eq g hg target path hpath).symm.trans hfails
    · intro hsize
      have habsent : g.nodes[target]? = none := List.getElem?_eq_none hsize
      refine ⟨.contract (.unknownState target), ?_⟩
      rw [Accessibility.wideningPath, state_accessibility, habsent]
      rfl
  · have hwidenings := wideningPath_eq g hg target path hpath
    refine ⟨hwidenings, ?_, fun links hlinks => ?_⟩
    -- The numbers on the way ascend, and those of the widening states are some of them.
    · exact (hpath.ascending g hg target path).sublist
        (List.filter_sublist.append (List.Sublist.refl [target]))
    · rw [hwidenings]
      exact wideningsBefore_eq g target path hpath links hlinks [target]

/-- Additions of which the second one is refused, as there is no state to add it to. -/
def additionsWithRefusal : List (Option StateId × StateRecord) :=
  [(none, .widening (.bool true) ∅), (some 5, .new (.bool true) ∅), (some 0, .new (.bool true) ∅),
    (some 1, .wideningFrom 0), (none, .new (.bool false) ∅), (some 2, .new (.bool true) ∅)]

/-- The other five make two trees. The states on the way to the last one at which abstraction was
    applied are the first and the third, and there is no way to a number beyond. -/
theorem forest_of_attempts_refusal :
    (attemptAll additionsWithRefusal).size = 5
      ∧ (attemptAll additionsWithRefusal).accessibility.initial = [0, 3]
      ∧ (attemptAll additionsWithRefusal).Forest
      ∧ (attemptAll additionsWithRefusal).Ancestors 4 [0, 1, 2]
      ∧ (attemptAll additionsWithRefusal).accessibility.wideningPath 4 = .ok [0, 2, 4]
      ∧ ∃ e, (attemptAll additionsWithRefusal).accessibility.wideningPath 5 = .error e := by
  have hway : (attemptAll additionsWithRefusal).Ancestors 4 [0, 1, 2] :=
    .found 4 2 _ [0, 1] rfl rfl (.found 2 1 _ [0] rfl rfl (.found 1 0 _ [] rfl rfl
      (.root 0 _ rfl rfl)))
  rcases forest_of_attempts additionsWithRefusal with ⟨hforest, hwalks⟩
  have hpath := ((hwalks 4).2.2 [0, 1, 2] hway).1
  have hrefused := (hwalks 5).2.1.mpr (Nat.le_refl 5)
  exact ⟨rfl, rfl, hforest, hway, hpath, hrefused⟩

end ExploredGraph

end ActorCheck
