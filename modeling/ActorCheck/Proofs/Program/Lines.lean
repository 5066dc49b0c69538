import ActorCheck.Proofs.Flow.Composition
import ActorCheck.Proofs.Program.Settling

/-!
# Straight Lines

A sequence of operations becomes a relation without choices: one way through all operations in
their order, and nothing after the last one. `Line` says this of a location, by recursion on the
operations that are still ahead.

A line is made by appending one operation after the other at its exit. What has to be seen is that
an operation appended at the end takes nothing away from the way to it. It does not, since the edge
that is added leaves the exit, and as long as an operation is ahead the location is not the exit.

## Main definitions

* `Flow.Line`: Some operations are ahead, in one order and without choices.

## Theorems

* `Flow.edgesFrom_eq_of_mem`: The edges of a location that has one at most.
* `Flow.line_append`: A line with one more operation at its end.
* `Relation.line_of_gives_sequence`: A sequence of operations is a line.
-/

namespace ActorCheck

namespace Flow

/-- From the location on there is one way through the operations, in this order, and it ends at
    `last`, which nothing leaves. -/
def Line (g : Flow) (last : LocationId) : LocationId → List OperationId → Prop
  | l, [] => l = last ∧ g.edgesFrom l = []
  | l, op :: ops => ∃ next, g.edgesFrom l = [(op, next)] ∧ Line g last next ops

/-- Something leaves a location exactly if it has edges. -/
theorem hasEdgesFrom_eq (g : Flow) (l : LocationId) :
    g.hasEdgesFrom l = !(g.edgesFrom l).isEmpty := by
  unfold hasEdgesFrom edgesFrom
  rw [List.isEmpty_map]
  -- Along the list of all edges, of which the first that starts there decides.
  induction g.edges.toList with
  | nil => rfl
  | cons e es ih =>
      rw [List.any_cons, List.filter_cons]
      cases h : e.source == l with
      | true => rfl
      | false =>
          rw [Bool.false_or, ih]
          rfl

/-- Operations are ahead exactly if something leaves the location. -/
theorem hasEdgesFrom_of_line (g : Flow) (last l : LocationId) (ops : List OperationId)
    (h : g.Line last l ops) : g.hasEdgesFrom l = !ops.isEmpty := by
  rw [hasEdgesFrom_eq]
  cases ops with
  | nil =>
      rw [h.2]
      rfl
  | cons op ops =>
      rcases h with ⟨next, hedges, _⟩
      rw [hedges]
      rfl

/-- The edges of a location are known when it is known which there are, if there is one at most. -/
theorem edgesFrom_eq_of_mem (g : Flow) (l : LocationId) (found : List (OperationId × LocationId))
    (hone : found.length ≤ 1)
    (h : ∀ op target, (⟨l, target, op⟩ : Edge) ∈ g.edges ↔ (op, target) ∈ found) :
    g.edgesFrom l = found := by
  have hnodup : found.Nodup := by
    match found, hone with
    | [], _ => exact List.nodup_nil
    | [p], _ => exact List.nodup_singleton p
  have hperm : (g.edgesFrom l).Perm found := by
    refine (List.perm_ext_iff_of_nodup (g.nodup_edgesFrom l) hnodup).mpr fun p => ?_
    exact (g.mem_edgesFrom l p.2 p.1).trans (h p.1 p.2)
  -- A list of one member at most is determined by its members.
  match found, hone with
  | [], _ => exact List.perm_nil.mp hperm
  | [p], _ => exact List.perm_singleton.mp hperm

/-- Nothing leaves the end of a line. -/
theorem edgesFrom_of_line (g : Flow) (last l : LocationId) (ops : List OperationId)
    (h : g.Line last l ops) : g.edgesFrom last = [] := by
  induction ops generalizing l with
  | nil =>
      rcases h with ⟨rfl, hend⟩
      exact hend
  | cons op ops ih =>
      rcases h with ⟨next, _, hrest⟩
      exact ih next hrest

/-- As long as an operation is ahead the location is not the exit. -/
theorem not_mem_exits_of_line (g : Flow) (last l : LocationId) (op : OperationId)
    (ops : List OperationId) (hexit : ∀ m, m ∈ g.exits ↔ m = last)
    (h : g.Line last l (op :: ops)) : l ∉ g.exits := by
  intro hmem
  have hlast := g.edgesFrom_of_line last l _ h
  rcases h with ⟨next, hedges, _⟩
  rw [(hexit l).mp hmem, hlast] at hedges
  cases hedges

/-- A line with one more operation at its end. By induction on the operations that are ahead: while
    there are any, the location is not the exit and keeps its edges. -/
theorem line_append (g : Flow) (op : OperationId) (goto last l : LocationId)
    (ops : List OperationId) (hexit : ∀ m, m ∈ g.exits ↔ m = last)
    (hnew : g.edgesFrom goto = []) (hother : goto ≠ last) (h : g.Line last l ops) :
    (g.append op goto).Line goto l (ops ++ [op]) := by
  -- At the end the new edge is added. Before it nothing changes, as the new edge starts somewhere
  -- else.
  induction ops generalizing l with
  | nil =>
      rcases h with ⟨rfl, hend⟩
      refine ⟨goto, edgesFrom_eq_of_mem _ _ _ (Nat.le_refl 1) fun op' target => ?_, rfl,
        edgesFrom_eq_of_mem _ _ _ (Nat.zero_le 1) fun op' target => ?_⟩
      · rw [mem_edges_append_iff, ← g.mem_edgesFrom, hend, List.mem_singleton, Prod.mk.injEq]
        constructor
        · rintro (hold | ⟨_, rfl, rfl⟩)
          · cases hold
          · exact ⟨rfl, rfl⟩
        · rintro ⟨rfl, rfl⟩
          exact Or.inr ⟨(hexit l).mpr rfl, rfl, rfl⟩
      · rw [mem_edges_append_iff, ← g.mem_edgesFrom, hnew]
        refine iff_of_false ?_ List.not_mem_nil
        -- The new location has no old edges, and the new ones start at the old exit.
        rintro (hold | ⟨hgoto, _, _⟩)
        · cases hold
        · exact hother ((hexit goto).mp hgoto)
  | cons first ops ih =>
      have hl := g.not_mem_exits_of_line last l first ops hexit h
      rcases h with ⟨next, hedges, hrest⟩
      refine ⟨next, edgesFrom_eq_of_mem _ _ _ (Nat.le_refl 1) fun op' target => ?_, ih next hrest⟩
      rw [mem_edges_append_iff, ← g.mem_edgesFrom, hedges]
      exact or_iff_left fun hadded => hl hadded.1

/-- The exit after an operation was appended to a flow with one exit. -/
theorem mem_exits_append_iff (g : Flow) (op : OperationId) (goto last : LocationId)
    (hexit : ∀ m, m ∈ g.exits ↔ m = last) (l : LocationId) :
    l ∈ (g.append op goto).exits ↔ l = goto := by
  rw [g.exits_append op goto last ((hexit last).mpr rfl)]
  exact mem_singleton_iff goto l

/-- Nothing leaves what is no location of a well-formed flow. -/
theorem edgesFrom_of_new (g : Flow) (l : LocationId) (h : g.WellFormed) (hl : l ∉ g.locations) :
    g.edgesFrom l = [] := by
  refine edgesFrom_eq_of_mem g l [] (Nat.zero_le 1) fun op target => ?_
  exact iff_of_false (fun he => hl (g.mem_locations_of_edge _ h he).1) List.not_mem_nil

/-- A single location, which is entry and exit. -/
theorem wellFormed_singleton (l : LocationId) : (Flow.singleton l).WellFormed :=
  (wellFormed_iff _).mpr
    ⟨fun _ he => absurd he Std.ExtTreeSet.not_mem_empty, fun _ hm => hm, fun _ hm => hm⟩

end Flow

namespace Relation

theorem wellFormed_of_gives_make (name : Option String) (g : Flow) (s s' : IdSupply) (r : Relation)
    (h : Gives (make name g) s r s') : g.WellFormed :=
  ((gives_make_iff name g s s' r).mp h).1

/-- The line that is there already goes on with the operations that are appended. -/
theorem line_of_gives_appendAll (ops : List OperationId) (r r' : Relation) (s s' : IdSupply)
    (before : List OperationId) (entry last : LocationId) (hr : r.WellFormed)
    (hentry : r.entries.toList = [entry]) (hexit : ∀ l, l ∈ r.exits ↔ l = last)
    (hline : r.Line last entry before) (h : Gives (r.appendAll ops) s r' s') :
    r'.entries.toList = [entry]
      ∧ ∃ last, (∀ l, l ∈ r'.exits ↔ l = last) ∧ r'.Line last entry (before ++ ops) := by
  -- What is there already is generalized, since each operation makes it longer by one.
  induction ops generalizing r s before last with
  | nil =>
      rcases (gives_pure _ _ _ _).mp h with ⟨rfl, rfl⟩
      rw [List.append_nil]
      exact ⟨hentry, last, hexit, hline⟩
  | cons op ops ih =>
      rw [appendAll] at h
      rcases (gives_bind _ _ _ _ _).mp h with ⟨goto, s₁, _, h⟩
      rcases (gives_bind _ _ _ _ _).mp h with ⟨next, s₂, happend, h⟩
      unfold append at happend
      split at happend
      next => exact absurd happend (not_gives_throw _ _ _ _)
      next hnew =>
        have hflow := flow_of_gives_make none _ s₁ s₂ next happend
        -- The appended location is new, so it is not the old exit, which is a location.
        have hother : goto ≠ last := by
          rintro rfl
          exact hnew (r.mem_locations_of_exit goto hr ((hexit goto).mpr rfl))
        have hlonger := r.line_append op goto last entry before hexit
          (r.edgesFrom_of_new goto hr hnew) hother hline
        rw [← hflow] at hlonger
        have hexits : ∀ l, l ∈ next.exits ↔ l = goto := by
          intro l
          rw [hflow]
          exact r.mem_exits_append_iff op goto last hexit l
        rw [List.append_cons]
        refine ih next s₂ (before ++ [op]) goto ?_ ?_ hexits hlonger h
        · rw [hflow]
          exact wellFormed_of_gives_make none _ s₁ s₂ next happend
        · rw [hflow]
          exact hentry

/-- A sequence of operations is a line from its only entry to its only exit. -/
theorem line_of_gives_sequence (ops : List OperationId) (r : Relation) (s s' : IdSupply)
    (h : Gives (sequence ops) s r s') :
    ∃ entry last, r.entries.toList = [entry] ∧ (∀ l, l ∈ r.exits ↔ l = last)
      ∧ r.Line last entry ops := by
  unfold sequence at h
  rcases (gives_bind _ _ _ _ _).mp h with ⟨start, s₁, hstart, h⟩
  cases hstart
  -- The line begins as a single location, which is entry and exit.
  let entry := s.next
  have hbare : (Flow.singleton entry).edgesFrom entry = [] :=
    Flow.edgesFrom_eq_of_mem _ _ _ (Nat.zero_le 1) fun op target =>
      iff_of_false Std.ExtTreeSet.not_mem_empty List.not_mem_nil
  rcases line_of_gives_appendAll ops _ r _ s' [] entry entry (Flow.wellFormed_singleton entry)
    (Flow.toList_singleton entry) (Flow.mem_singleton_iff entry) ⟨rfl, hbare⟩ h with
    ⟨hentry, last, hexit, hline⟩
  exact ⟨entry, last, hentry, hexit, hline⟩

end Relation

end ActorCheck
