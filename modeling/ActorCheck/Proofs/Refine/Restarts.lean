import ActorCheck.Proofs.Refine.Feasibility
import Mathlib.Logic.Function.Iterate
import Mathlib.Logic.Relation

/-!
# Restarts Are Exact

A restart forgets the states that were found from the initial ones, and no others. What is to be
seen is that the traversals, one after the other, visit exactly what can be reached, although each
of them passes by what an earlier one has visited.

The invariant is that what a visited state leads to is visited as well, or in the queue, unless the
state is an initial one whose traversal has not begun. It is kept by every step of a traversal, and
when a traversal begins its root leads into the queue. After the last traversal the queue is empty
and there is no root left, so the visited states are closed.

What happens to the sets can be said in terms of the visited states at any time: the states that
stay are those that were not visited, and the initial ones. Only the latter are put behind the
frontier, and they are never taken out, so it does not matter that the frontier grows between the
traversals.

In a graph that was built by adding states every state can be reached from an initial one, through
the states from which it was found. So what stays is what the graph does not know, apart from the
initial states.

## Main definitions

* `Accessibility.Found`: A state can be reached from an initial one.
* `StateSet.keep`: The members of a set with a property.
* `Refinement.Midway`: The invariant of the traversals.
* `Refinement.sweepStep`: A step of a traversal.

## Theorems

* `Refinement.sweepStep_iterate`: A traversal ends.
* `Refinement.midway_sweep`, `Refinement.midway_foldl`: The invariant is kept.
* `Refinement.restart_eq`: What a restart leaves of the sets.
* `ExploredGraph.found_iff`: What can be reached in a graph that was built by adding states.
* `Refinement.restart_exact`: The same for a refinement that succeeds.
-/

namespace ActorCheck

namespace Accessibility

variable (a : Accessibility)

/-- A state was found from another one. -/
def Leads (s t : StateId) : Prop := t ∈ a.childrenOf s

/-- A state can be reached from an initial one. -/
def Found (s : StateId) : Prop := ∃ root ∈ a.initial, Relation.ReflTransGen a.Leads root s

theorem found_of_initial (s : StateId) (h : s ∈ a.initial) : a.Found s := ⟨s, h, .refl⟩

theorem found_of_leads (s t : StateId) (hs : a.Found s) (h : t ∈ a.childrenOf s) : a.Found t := by
  rcases hs with ⟨root, hroot, hway⟩
  exact ⟨root, hroot, hway.tail h⟩

end Accessibility

namespace StateSet

variable (s : StateSet) (x : StateId)

/-- The members of a set with a property, in their order. -/
def keep (p : StateId → Bool) : StateSet := ⟨s.states.filter p, s.distinct.filter p⟩

theorem eq_of_states (t : StateSet) (h : s.states = t.states) : s = t := by
  rcases s with ⟨xs, _⟩
  cases h
  rfl

theorem states_insert :
    (s.insert x).states = if x ∈ s.states then s.states else s.states ++ [x] := by
  unfold insert
  split
  next => rfl
  next => rfl

theorem states_remove : (s.remove x).states = s.states.filter (· != x) :=
  s.distinct.erase_eq_filter x

theorem keep_congr (p q : StateId → Bool) (h : ∀ y, p y = q y) : s.keep p = s.keep q :=
  congrArg s.keep (funext h)

theorem keep_remove (p : StateId → Bool) : (s.keep p).remove x = s.keep fun y => y != x && p y := by
  refine eq_of_states _ _ ?_
  rw [states_remove]
  exact List.filter_filter

/-- The order in which one state is taken out and others are inserted does not matter. -/
theorem insertAll_remove (xs : List StateId) (h : x ∉ xs) :
    (xs.foldl insert s).remove x = xs.foldl insert (s.remove x) := by
  induction xs generalizing s with
  | nil => rfl
  | cons y xs ih =>
      have hyx : (y != x) = true := bne_iff_ne.mpr (List.ne_of_not_mem_cons h).symm
      rw [List.foldl_cons, List.foldl_cons, ih _ (List.not_mem_of_not_mem_cons h)]
      congr 1
      refine eq_of_states _ _ ?_
      rw [states_remove, states_insert, states_insert, states_remove]
      -- A member that is inserted again is not moved, whether the other state was taken out before
      -- or not.
      by_cases hy : y ∈ s.states
      · rw [if_pos hy, if_pos (List.mem_filter.mpr ⟨hy, hyx⟩)]
      · rw [if_neg hy, if_neg fun hkept => hy (List.mem_filter.mp hkept).1, List.filter_append,
          List.filter_singleton, hyx]
        rfl

/-- Different states that are inserted come behind the others, unless they are members. -/
theorem states_insertAll (xs : List StateId) (h : xs.Nodup) :
    (xs.foldl insert s).states = s.states ++ xs.filter fun y => y ∉ s.states := by
  induction xs generalizing s with
  | nil => exact (List.append_nil _).symm
  | cons y xs ih =>
      rcases List.nodup_cons.mp h with ⟨hy, hxs⟩
      rw [List.foldl_cons, ih _ hxs, states_insert, List.filter_cons]
      by_cases hmem : y ∈ s.states
      · rw [if_pos hmem, if_neg (by simpa using hmem)]
      · rw [if_neg hmem, if_pos (by simpa using hmem), List.append_assoc, List.singleton_append]
        congr 2
        -- What comes later differs from what was inserted, so that is no reason to drop it.
        refine List.filter_congr fun z hz => ?_
        have hne : z ≠ y := fun heq => hy (heq ▸ hz)
        simp [hne]

end StateSet

namespace Refinement

variable (a : Accessibility)

section Steps

/-- A step of a traversal, by the queue and how far the restart has come. -/
def sweepStep : List StateId × Sweep → List StateId × Sweep
  | ([], w) => ([], w)
  | (s :: queue, w) =>
    if s ∈ w.seen then (queue, w) else (queue ++ a.childrenOf s, w.visit s)

/-- A traversal consists of steps until the queue is empty, and there are not too many of them. -/
theorem sweepStep_iterate (queue : List StateId) (w : Sweep) :
    ∃ steps ≤ Sweep.stepsLeft a w.seen queue,
      (sweepStep a)^[steps] (queue, w) = ([], sweep a queue w) := by
  induction queue, w using sweep.induct a with
  | case1 w =>
      refine ⟨0, Nat.zero_le _, ?_⟩
      rw [sweep]
      rfl
  | case2 w s queue hseen ih =>
      rcases ih with ⟨steps, hsteps, hrest⟩
      refine ⟨steps + 1, ?_, ?_⟩
      · unfold Sweep.stepsLeft at hsteps ⊢
        rw [List.length_cons]
        omega
      · rw [Function.iterate_succ_apply, sweepStep, if_pos hseen, hrest, sweep, if_pos hseen]
  | case3 w s queue hnew ih =>
      rcases ih with ⟨steps, hsteps, hrest⟩
      refine ⟨steps + 1, ?_, ?_⟩
      · exact Nat.lt_of_le_of_lt hsteps (Sweep.stepsLeft_visit a w.seen s hnew queue)
      · rw [Function.iterate_succ_apply, sweepStep, if_neg hnew, hrest, sweep, if_neg hnew]

end Steps

section Traversals

/-- A state stays in the sets: it is initial or was not visited. -/
def stays (seen : Std.ExtTreeSet Nat) (s : StateId) : Bool :=
  a.initial.contains s || !seen.contains s

/-- The state of a restart of an exploration: after the traversals from some initial states, before
    those from others, and with a queue. -/
structure Midway (e : Exploration) (done left queue : List StateId) (w : Sweep) : Prop where
  initial : ∀ s ∈ a.initial, s ∈ w.seen
  roots : ∀ s ∈ done, s ∈ a.initial
  found : ∀ s, s ∈ w.seen ∨ s ∈ queue → a.Found s
  covered : ∀ s ∈ w.seen, s ∈ left ∨ ∀ t ∈ a.childrenOf s, t ∈ w.seen ∨ t ∈ queue
  reached : w.exploration.reached = e.reached.keep (stays a w.seen)
  frontier : w.exploration.frontier = done.foldl StateSet.insert (e.frontier.keep (stays a w.seen))

variable (e : Exploration) (done left : List StateId)

theorem keep_stays_remove (set : StateSet) (seen : Std.ExtTreeSet Nat) (s : StateId)
    (hs : s ∉ a.initial) :
    (set.keep (stays a seen)).remove s = set.keep (stays a (seen.insert s)) := by
  rw [StateSet.keep_remove]
  refine set.keep_congr _ _ fun t => ?_
  unfold stays
  rw [Std.ExtTreeSet.contains_insert]
  -- The visited state is taken out, and for any other one visiting it makes no difference.
  by_cases heq : t = s
  · cases heq
    simp [hs]
  · have hbne : (t != s) = true := bne_iff_ne.mpr heq
    have hcompare : (compare s t == .eq) = false := beq_eq_false_iff_ne.mpr fun h =>
      heq (Std.LawfulEqCmp.compare_eq_iff_eq.mp h).symm
    rw [hbne, hcompare, Bool.true_and, Bool.false_or]

theorem midway_seen (s : StateId) (queue : List StateId) (w : Sweep) (hs : s ∈ w.seen)
    (h : Midway a e done left (s :: queue) w) : Midway a e done left queue w where
  initial := h.initial
  roots := h.roots
  found t ht := h.found t (ht.imp_right (List.mem_cons_of_mem s))
  -- What leaves the queue was visited before.
  covered t ht := (h.covered t ht).imp_right fun hled u hu => by
    rcases hled u hu with hseen | hqueued
    · exact Or.inl hseen
    · rcases List.mem_cons.mp hqueued with rfl | hqueued
      · exact Or.inl hs
      · exact Or.inr hqueued
  reached := h.reached
  frontier := h.frontier

theorem midway_visit (s : StateId) (queue : List StateId) (w : Sweep) (hs : s ∉ w.seen)
    (h : Midway a e done left (s :: queue) w) :
    Midway a e done left (queue ++ a.childrenOf s) (w.visit s) := by
  have hfound : a.Found s := h.found s (Or.inr List.mem_cons_self)
  have hseen (t : StateId) : t ∈ (w.visit s).seen ↔ t = s ∨ t ∈ w.seen := by
    unfold Sweep.visit
    rw [Std.ExtTreeSet.mem_insert, Std.LawfulEqCmp.compare_eq_iff_eq, eq_comm]
  -- Initial states count as visited, so this is none of them.
  have hnot : s ∉ a.initial := fun hinitial => hs (h.initial s hinitial)
  refine ⟨fun t ht => (hseen t).mpr (Or.inr (h.initial t ht)), h.roots, fun t ht => ?_,
    fun t ht => ?_, ?_, ?_⟩
  · rcases ht with ht | ht
    · rcases (hseen t).mp ht with rfl | ht
      · exact hfound
      · exact h.found t (Or.inl ht)
    · rcases List.mem_append.mp ht with ht | ht
      · exact h.found t (Or.inr (List.mem_cons_of_mem s ht))
      · exact a.found_of_leads s t hfound ht
  -- What the visited state leads to gets into the queue, and the state itself is visited now.
  · rcases (hseen t).mp ht with rfl | ht
    · exact Or.inr fun u hu => Or.inr (List.mem_append_right queue hu)
    · refine (h.covered t ht).imp_right fun hled u hu => ?_
      rw [hseen, List.mem_append]
      rcases hled u hu with hu | hu
      · exact Or.inl (Or.inr hu)
      · rcases List.mem_cons.mp hu with rfl | hu
        · exact Or.inl (Or.inl rfl)
        · exact Or.inr (Or.inl hu)
  · change w.exploration.reached.remove s = _
    rw [h.reached]
    exact keep_stays_remove a _ w.seen s hnot
  · change w.exploration.frontier.remove s = _
    rw [h.frontier, StateSet.insertAll_remove _ s done fun hdone => hnot (h.roots s hdone)]
    exact congrArg (done.foldl StateSet.insert) (keep_stays_remove a _ w.seen s hnot)

/-- A traversal empties the queue. By induction on its steps. -/
theorem midway_sweep (queue : List StateId) (w : Sweep) (h : Midway a e done left queue w) :
    Midway a e done left [] (sweep a queue w) := by
  induction queue, w using sweep.induct a with
  | case1 w =>
      rw [sweep]
      exact h
  | case2 w s queue hseen ih =>
      rw [sweep, if_pos hseen]
      exact ih (midway_seen a e done left s queue w hseen h)
  | case3 w s queue hnew ih =>
      rw [sweep, if_neg hnew]
      exact ih (midway_visit a e done left s queue w hnew h)

theorem midway_sweepFrom (root : StateId) (hroot : root ∈ a.initial) (w : Sweep)
    (h : Midway a e done (root :: left) [] w) :
    Midway a e (done ++ [root]) left [] (sweepFrom a w root) := by
  -- When the traversal begins, its root leads into the queue.
  have hbegun : Midway a e done left (a.childrenOf root) w := by
    refine ⟨h.initial, h.roots, fun t ht => ?_, fun t ht => ?_, h.reached, h.frontier⟩
    · rcases ht with ht | ht
      · exact h.found t (Or.inl ht)
      · exact a.found_of_leads root t (a.found_of_initial root hroot) ht
    · rcases h.covered t ht with hleft | hled
      · rcases List.mem_cons.mp hleft with rfl | hleft
        · exact Or.inr fun u hu => Or.inr hu
        · exact Or.inl hleft
      · refine Or.inr fun u hu => Or.inl ?_
        exact (hled u hu).resolve_right List.not_mem_nil
  have hswept := midway_sweep a e done left _ w hbegun
  refine ⟨hswept.initial, ?_, hswept.found, hswept.covered, hswept.reached, ?_⟩
  · exact List.forall_mem_append.mpr ⟨hswept.roots, List.forall_mem_singleton.mpr hroot⟩
  · rw [List.foldl_append]
    exact congrArg (fun set : StateSet => set.insert root) hswept.frontier

theorem midway_foldl (w : Sweep) (hleft : ∀ s ∈ left, s ∈ a.initial)
    (h : Midway a e done left [] w) :
    Midway a e (done ++ left) [] [] (left.foldl (sweepFrom a) w) := by
  induction left generalizing done w with
  | nil =>
      rw [List.append_nil]
      exact h
  | cons root left ih =>
      rcases List.forall_mem_cons.mp hleft with ⟨hroot, hleft⟩
      have hrest := ih (done ++ [root]) _ hleft (midway_sweepFrom a e done left root hroot w h)
      rw [List.append_assoc] at hrest
      exact hrest

/-- What can be reached was visited in the end, and nothing else. -/
theorem Midway.seen_iff (w : Sweep) (h : Midway a e done [] [] w) (s : StateId) :
    s ∈ w.seen ↔ a.Found s := by
  refine ⟨fun hs => h.found s (Or.inl hs), ?_⟩
  rintro ⟨root, hroot, hway⟩
  induction hway with
  | refl => exact h.initial root hroot
  -- No root is left, and the queue is empty, so the visited states are closed.
  | tail _ hleads ih =>
      have hled := (h.covered _ ih).resolve_left List.not_mem_nil
      exact (hled _ hleads).resolve_right List.not_mem_nil

/-- A restart leaves the states that cannot be reached, and the initial ones, which are inserted
    into the frontier. -/
theorem restart_eq : ∃ stays : StateId → Bool,
    (∀ s, stays s = true ↔ s ∈ a.initial ∨ ¬ a.Found s)
      ∧ (restart a e).reached = e.reached.keep stays
      ∧ (restart a e).frontier = a.initial.foldl StateSet.insert (e.frontier.keep stays) := by
  have hseen (s : StateId) : s ∈ Std.ExtTreeSet.ofList a.initial ↔ s ∈ a.initial := by
    rw [Std.ExtTreeSet.mem_ofList, List.contains_iff_mem]
  -- Only initial states count as visited in the beginning, so everything stays.
  have hkeep (set : StateSet) : set = set.keep (stays a (Std.ExtTreeSet.ofList a.initial)) := by
    refine StateSet.eq_of_states _ _ (List.filter_eq_self.mpr fun s _ => ?_).symm
    unfold stays
    by_cases hs : s ∈ a.initial
    · simp [hs]
    · simp [Std.ExtTreeSet.contains_ofList, hs]
  have hbegun : Midway a e [] a.initial [] ⟨Std.ExtTreeSet.ofList a.initial, e⟩ :=
    ⟨fun s hs => (hseen s).mpr hs, nofun,
      fun s hs => a.found_of_initial s ((hseen s).mp (hs.resolve_right List.not_mem_nil)),
      fun s hs => Or.inl ((hseen s).mp hs), hkeep _, hkeep _⟩
  have hended := midway_foldl a e [] a.initial _ (fun _ hs => hs) hbegun
  refine ⟨_, fun s => ?_, hended.reached, hended.frontier⟩
  unfold stays
  rw [Bool.or_eq_true, List.contains_iff_mem, Bool.not_eq_true', ← Bool.not_eq_true,
    Std.ExtTreeSet.contains_iff_mem, hended.seen_iff]

end Traversals

end Refinement

namespace ExploredGraph

/-- The parents and the children of states belong together, and the initial states are those without
    a parent. -/
structure Linked (g : ExploredGraph) : Prop where
  distinct : g.initial.Nodup
  mem_initial (s : StateId) :
    s ∈ g.initial ↔ ∃ n : ExploredNode, g.nodes[s]? = some n ∧ n.parent = none
  adopted (s : StateId) (n : ExploredNode) (p : StateId) : g.nodes[s]? = some n →
    n.parent = some p → ∃ m : ExploredNode, g.nodes[p]? = some m ∧ s ∈ m.children
  within (s : StateId) (n : ExploredNode) (t : StateId) : g.nodes[s]? = some n →
    t ∈ n.children → t < g.size

theorem lt_size_of_getElem? (g : ExploredGraph) (s : StateId) (n : ExploredNode)
    (h : g.nodes[s]? = some n) : s < g.size := (List.getElem?_eq_some_iff.mp h).1

theorem linked_addInitial (g : ExploredGraph) (r : StateRecord) (h : g.Linked) :
    (g.addInitial r).Linked := by
  -- The number of the new state is the size of the graph, which no state had before.
  have hnew : g.size ∉ g.initial := fun hmem => by
    rcases (h.mem_initial g.size).mp hmem with ⟨n, hn, _⟩
    exact Nat.lt_irrefl _ (g.lt_size_of_getElem? g.size n hn)
  have hsize : (g.addInitial r).size = g.size + 1 := List.length_append
  refine ⟨?_, fun s => ?_, fun s n p hn hp => ?_, fun s n t hn ht => ?_⟩
  · exact List.nodup_append.mpr ⟨h.distinct, List.pairwise_singleton _ _,
      fun s hs t ht heq => hnew (List.mem_singleton.mp ht ▸ heq ▸ hs)⟩
  · rw [getElem?_addInitial]
    refine List.mem_append.trans ?_
    split
    next hs => exact ⟨fun _ => ⟨_, rfl, rfl⟩, fun _ => Or.inr (List.mem_singleton.mpr hs)⟩
    next hs =>
      rw [← h.mem_initial]
      exact or_iff_left fun hmem => hs (List.mem_singleton.mp hmem)
  · rw [getElem?_addInitial] at hn
    split at hn
    next =>
      cases hn
      cases hp
    next =>
      rcases h.adopted s n p hn hp with ⟨m, hm, hchild⟩
      refine ⟨m, ?_, hchild⟩
      rw [getElem?_addInitial, if_neg (Nat.ne_of_lt (g.lt_size_of_getElem? p m hm))]
      exact hm
  · rw [hsize]
    rw [getElem?_addInitial] at hn
    split at hn
    next =>
      cases hn
      cases ht
    next => exact Nat.lt_succ_of_lt (h.within s n t hn ht)

section Successors

variable (g g' : ExploredGraph) (p : StateId) (r : StateRecord)
  (hadd : g.addSuccessor p r = .ok g')

include hadd

/-- A state that was there has its parent still, and its children. -/
theorem kept_of_addSuccessor (s : StateId) (n : ExploredNode) (hn : g.nodes[s]? = some n) :
    ∃ n', g'.nodes[s]? = some n' ∧ n'.parent = n.parent ∧ n.children ⊆ n'.children := by
  rcases getElem?_addSuccessor g r g' p hadd with ⟨_, _, _, hnodes⟩
  rw [hnodes, if_neg (Nat.ne_of_lt (g.lt_size_of_getElem? s n hn)), hn]
  refine ⟨_, rfl, ?_⟩
  split
  next => exact ⟨rfl, List.subset_append_left _ _⟩
  next => exact ⟨rfl, List.Subset.refl _⟩

/-- A state is the new one or was there, and then it has no children but the new one besides those
    that it had. -/
theorem node_of_addSuccessor (s : StateId) (n' : ExploredNode) (hn' : g'.nodes[s]? = some n') :
    (s = g.size ∧ n' = ⟨r, some p, []⟩) ∨ ∃ n, g.nodes[s]? = some n ∧ n'.parent = n.parent
      ∧ ∀ t ∈ n'.children, t ∈ n.children ∨ t = g.size := by
  rcases getElem?_addSuccessor g r g' p hadd with ⟨_, _, _, hnodes⟩
  rw [hnodes] at hn'
  split at hn'
  next hs => exact Or.inl ⟨hs, (Option.some.inj hn').symm⟩
  next =>
    rcases Option.map_eq_some_iff.mp hn' with ⟨n, hn, rfl⟩
    refine Or.inr ⟨n, hn, ?_⟩
    split
    next =>
      refine ⟨rfl, fun t ht => ?_⟩
      exact (List.mem_append.mp ht).imp_right List.mem_singleton.mp
    next => exact ⟨rfl, fun t ht => Or.inl ht⟩

/-- The parent adopts the new state. -/
theorem adopts_of_addSuccessor : ∃ m, g'.nodes[p]? = some m ∧ g.size ∈ m.children := by
  rcases getElem?_addSuccessor g r g' p hadd with ⟨hp, _, _, hnodes⟩
  obtain ⟨m, hm⟩ : ∃ m, g.nodes[p]? = some m := ⟨_, List.getElem?_eq_getElem hp⟩
  refine ⟨m.adopt g.size, ?_, List.mem_append_right _ (List.mem_singleton.mpr rfl)⟩
  rw [hnodes, if_neg (Nat.ne_of_lt hp), hm, Option.map_some, if_pos rfl]

theorem linked_addSuccessor (h : g.Linked) : g'.Linked := by
  rcases getElem?_addSuccessor g r g' p hadd with ⟨_, hsize, hinitial, _⟩
  refine ⟨hinitial ▸ h.distinct, fun s => ?_, fun s n' q hn' hq => ?_, fun s n' t hn' ht => ?_⟩
  · rw [hinitial, h.mem_initial]
    constructor
    · rintro ⟨n, hn, hroot⟩
      rcases kept_of_addSuccessor g g' p r hadd s n hn with ⟨n', hn', hparent, _⟩
      exact ⟨n', hn', hparent.trans hroot⟩
    · rintro ⟨n', hn', hroot⟩
      rcases node_of_addSuccessor g g' p r hadd s n' hn' with ⟨_, rfl⟩ | ⟨n, hn, hparent, _⟩
      · cases hroot
      · exact ⟨n, hn, hparent.symm.trans hroot⟩
  -- The parent of the new state adopts it, and all other adoptions were made before and are kept.
  · rcases node_of_addSuccessor g g' p r hadd s n' hn' with ⟨rfl, rfl⟩ | ⟨n, hn, hparent, _⟩
    · cases hq
      exact adopts_of_addSuccessor g g' p r hadd
    · rcases h.adopted s n q hn (hparent.symm.trans hq) with ⟨m, hm, hchild⟩
      rcases kept_of_addSuccessor g g' p r hadd q m hm with ⟨m', hm', _, hchildren⟩
      exact ⟨m', hm', hchildren hchild⟩
  · rw [hsize]
    rcases node_of_addSuccessor g g' p r hadd s n' hn' with ⟨_, rfl⟩ | ⟨n, hn, _, hchildren⟩
    · cases ht
    · rcases hchildren t ht with ht | rfl
      · exact Nat.lt_succ_of_lt (h.within s n t hn ht)
      · exact Nat.lt_succ_self _

end Successors

theorem linked_of_grown (g : ExploredGraph) (hg : g.Grown) : g.Linked := by
  induction hg with
  | empty => exact ⟨.nil, fun s => ⟨nofun, nofun⟩, nofun, nofun⟩
  | initial g r _ ih => exact linked_addInitial g r ih
  | successor g g' p r _ h ih => exact linked_addSuccessor g g' p r h ih

/-- The states of a graph are those that can be reached from an initial one. -/
theorem found_iff (g : ExploredGraph) (hg : g.Grown) (s : StateId) :
    g.accessibility.Found s ↔ s < g.size := by
  have hlinked := linked_of_grown g hg
  -- Every way ends in the graph, whether it has a step or not.
  have hinitial (s : StateId) (hs : s ∈ g.initial) : s < g.size := by
    rcases (hlinked.mem_initial s).mp hs with ⟨n, hn, _⟩
    exact g.lt_size_of_getElem? s n hn
  constructor
  · rintro ⟨root, hroot, hway⟩
    rcases Relation.ReflTransGen.cases_tail hway with rfl | ⟨p, _, hleads⟩
    · exact hinitial s hroot
    · unfold Accessibility.Leads at hleads
      rw [childrenOf_accessibility] at hleads
      rcases hp : g.nodes[p]? with _ | m
      · rw [hp] at hleads
        cases hleads
      · rw [hp] at hleads
        exact hlinked.within p m s hp hleads
  · intro hs
    rcases ancestors_exist g hg s _ (List.getElem?_eq_getElem hs) with ⟨path, hpath⟩
    -- The induction is on the way from the root.
    induction hpath with
    | root s n hn hparent =>
        exact g.accessibility.found_of_initial s ((hlinked.mem_initial s).mpr ⟨n, hn, hparent⟩)
    | found s p n path hn hparent _ ih =>
        rcases hlinked.adopted s n p hn hparent with ⟨m, hm, hchild⟩
        refine g.accessibility.found_of_leads p s (ih (g.lt_size_of_getElem? p m hm)) ?_
        rw [childrenOf_accessibility, hm]
        exact hchild

end ExploredGraph

namespace Refinement

section Refinements

variable {σ ε : Type} [Solver σ ε] (a : Accessibility)

theorem exploration_onSolver {α : Type} (x : SolverCall σ ε α) (r : Refinement σ) :
    ((onSolver x).run r).2.exploration = r.exploration := by
  rw [run_onSolver]
  rcases x.run r.solver with ⟨_ | _, _⟩
  · rfl
  · rfl

/-- To give references back has nothing to do with the exploration. -/
theorem exploration_releaseAll (ts : List Term) (r : Refinement σ) :
    ((releaseAll ts).run r).2.exploration = r.exploration := by
  induction ts generalizing r with
  | nil => rfl
  | cons t ts ih =>
      have hfirst := exploration_onSolver (Solver.release t : SolverCall σ ε Unit) r
      have hlater := ih ((onSolver (Solver.release t)).run r).2
      -- What is reported in the end depends on both outcomes, but no state does.
      rw [releaseAll, run_attempt_bind, run_attempt_bind, ← hfirst, ← hlater]
      rcases (onSolver (Solver.release t)).run r with ⟨first, r₁⟩
      rcases (releaseAll ts).run r₁ with ⟨later, r₂⟩
      rcases first with _ | _
      · rfl
      · rcases later with _ | _
        · rfl
        · rfl

theorem learned_of_consume (solution : Solution) (target : StateId) (r r' : Refinement σ)
    (h : (consume a solution target).run r = (.ok (), r')) :
    ∃ r₁, (learn a solution target).run r = (.ok (), r₁) ∧ r'.exploration = r₁.exploration := by
  rcases hlearn : (learn a solution target).run r with ⟨applied, r₁⟩
  have hreleased := exploration_releaseAll solution.interpolants r₁
  rcases hrelease : (releaseAll solution.interpolants).run r₁ with ⟨released, r₂⟩
  rw [hrelease] at hreleased
  -- It only succeeds if learning and giving the references back have both succeeded.
  rw [consume, run_attempt_bind, hlearn, run_attempt_bind, hrelease] at h
  rcases applied with _ | _
  · cases h
  · rcases released with _ | _
    · cases h
    · cases h
      exact ⟨r₁, rfl, hreleased⟩

/-- A refinement that succeeds restarts the exploration. -/
theorem exploration_of_refine (target : StateId) (r r' : Refinement σ)
    (h : (refine a target).run r = (.ok (), r')) : r'.exploration = restart a r.exploration := by
  rw [run_refine] at h
  rcases hsolution : r.solution with _ | solution
  · rw [hsolution] at h
    cases h
  · rw [hsolution] at h
    rcases learned_of_consume a solution target _ r' h with ⟨r₁, hlearn, hsame⟩
    rw [hsame]
    rw [run_learn] at hlearn
    split at hlearn
    next => cases hlearn
    next =>
      split at hlearn
      next => cases hlearn
      next =>
        cases hlearn
        rfl

/-- A refinement that succeeds leaves in the sets, in their order, the states that cannot be reached
    from an initial one, and the initial ones; those are then inserted into the frontier. If the
    graph was built by adding states, what stays is what is not in the graph and what is initial,
    and the frontier ends with the initial states that were missing. Whatever the graph is like, a
    traversal comes to an end, since its queue is empty after a bounded number of steps. -/
theorem restart_exact (target : StateId) (r r' : Refinement σ)
    (h : (refine a target).run r = (.ok (), r')) :
    (∃ stays : StateId → Bool, (∀ s, stays s = true ↔ s ∈ a.initial ∨ ¬ a.Found s)
        ∧ r'.exploration.reached = r.exploration.reached.keep stays
        ∧ r'.exploration.frontier
          = a.initial.foldl StateSet.insert (r.exploration.frontier.keep stays))
      ∧ (∀ g : ExploredGraph, g.Grown → a = g.accessibility →
        r'.exploration.reached.states
            = r.exploration.reached.states.filter (fun s => s ∈ g.initial ∨ g.size ≤ s)
          ∧ r'.exploration.frontier.states
            = r.exploration.frontier.states.filter (fun s => s ∈ g.initial ∨ g.size ≤ s)
              ++ g.initial.filter (fun s => s ∉ r.exploration.frontier.states))
      ∧ ∀ queue w, ∃ steps ≤ Sweep.stepsLeft a w.seen queue,
        (sweepStep a)^[steps] (queue, w) = ([], sweep a queue w) := by
  have hexploration := exploration_of_refine a target r r' h
  rcases restart_eq a r.exploration with ⟨stays, hstays, hreached, hfrontier⟩
  rw [← hexploration] at hreached hfrontier
  refine ⟨⟨stays, hstays, hreached, hfrontier⟩, fun g hg hgraph => ?_, sweepStep_iterate a⟩
  subst hgraph
  -- In such a graph the states that can be reached are those that have a number in it.
  have hknown (s : StateId) : stays s = decide (s ∈ g.initial ∨ g.size ≤ s) := by
    rw [Bool.eq_iff_iff, hstays, g.found_iff hg, Nat.not_lt, decide_eq_true_iff]
    rfl
  have hkept (set : StateSet) : (set.keep stays).states
      = set.states.filter fun s => s ∈ g.initial ∨ g.size ≤ s :=
    List.filter_congr fun s _ => hknown s
  refine ⟨(congrArg StateSet.states hreached).trans (hkept _), ?_⟩
  rw [hfrontier]
  refine (StateSet.states_insertAll _ _ (g.linked_of_grown hg).distinct).trans ?_
  rw [hkept]
  refine congrArg _ (List.filter_congr fun s hs => ?_)
  -- An initial state that was there has stayed.
  simp [hs]

/-- An exploration of the clash that has found another state besides, and a check of the target. -/
def explored : Refinement IntervalSolver :=
  performAll (initial IntervalSolver.initial .default true)
    [.explore ⟨.ofList [7, 1, 0], .ofList [1, 7]⟩, .check clash.accessibility 1]

/-- The target is in neither set after that. The initial state is to be visited again, behind the
    state that belongs to no trace. -/
theorem restart_exact_clash : ∃ r', (refine clash.accessibility 1).run explored = (.ok (), r')
    ∧ r'.exploration.reached.states = [7, 0] ∧ r'.exploration.frontier.states = [7, 0] := by
  have hok : ((refine clash.accessibility 1).run explored).1 = .ok () := by decide +kernel
  have hreached : explored.exploration.reached.states = [7, 1, 0] := by decide +kernel
  have hfrontier : explored.exploration.frontier.states = [1, 7] := by decide +kernel
  rcases hrun : (refine clash.accessibility 1).run explored with ⟨answer, r'⟩
  rw [hrun] at hok
  cases hok
  rcases (restart_exact clash.accessibility 1 explored r' hrun).2.1 clash grown_clash rfl with
    ⟨hreached', hfrontier'⟩
  refine ⟨r', rfl, ?_, ?_⟩
  · rw [hreached', hreached]
    decide
  · rw [hfrontier', hfrontier]
    decide

/-- States that lead back to each other and to an initial one. -/
example : restart ⟨[0, 3], .ofList [(0, [1, 2]), (1, [2, 0]), (2, [1]), (3, [2, 4])], ∅, ∅⟩
    ⟨.ofList [0, 1, 5, 2, 3], .ofList [3, 4, 6]⟩ = ⟨.ofList [0, 5, 3], .ofList [3, 6, 0]⟩ := by
  decide +kernel

end Refinements

end Refinement

end ActorCheck
