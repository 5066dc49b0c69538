import ActorCheck.Proofs.Flow.Composition

/-!
# Languages of Extended Flows

An operation behind a flow is carried by every word at its end, and one in front of it at the
beginning, unless it is the operation that does nothing, which leaves the words as they are. The
flow may have any number of entries and exits, none included, and edges may lead back to entries and
on from exits: an exit that edges leave keeps these edges when it stops being an exit.

Both results take a walk apart where it crosses between the flow and the new location. Behind the
flow nothing leaves the new location, so the crossing is the last step. In front of it nothing leads
back to the new location, so the crossing is the first one.

## Theorems

* `Flow.wellFormed_prepend`: A flow with an operation in front of it is well formed.
* `Flow.language_append`: The language with an operation behind the flow.
* `Flow.language_prepend`: The language with an operation in front of the flow.
-/

namespace ActorCheck

namespace Flow

variable (g : Flow) (op : OperationId)

theorem mem_edges_prepend_iff (start : LocationId) (e : Edge) :
    e ∈ (prepend start op g).edges
      ↔ e ∈ g.edges ∨ (e.source = start ∧ e.target ∈ g.entries ∧ e.op = op) := by
  rw [prepend, mem_withEdges_iff, mem_joints_iff]
  exact or_congr_right (and_congr_left' (mem_singleton_iff start e.source))

variable (hwell : g.WellFormed)

include hwell

/-- A new entry before the old ones. -/
theorem wellFormed_prepend (start : LocationId) : (prepend start op g).WellFormed := by
  have hold : ∀ l ∈ g.locations, l ∈ (prepend start op g).locations := fun l hl =>
    Std.ExtTreeSet.mem_insert.mpr (Or.inr hl)
  have hstart : start ∈ (prepend start op g).locations := Std.ExtTreeSet.mem_insert_self
  refine (wellFormed_iff _).mpr ⟨fun e he => ?_, fun l hl => ?_, fun l hl => ?_⟩
  -- A new edge starts at the new entry and leads to an old one, which is a location because the
  -- flow is well formed.
  · rcases (g.mem_edges_prepend_iff op start e).mp he with he | ⟨hsource, hentry, _⟩
    · exact (g.mem_locations_of_edge e hwell he).imp (hold _) (hold _)
    · exact ⟨hsource ▸ hstart, hold _ (g.mem_locations_of_entry _ hwell hentry)⟩
  · rw [(mem_singleton_iff start l).mp hl]
    exact hstart
  · exact hold l (g.mem_locations_of_exit l hwell hl)

section Behind

variable (goto : LocationId)

/-- Only the edges that were added lead out of the flow. -/
theorem edge_of_mem_append (e : Edge) (he : e ∈ (g.append op goto).edges) :
    (e ∈ g.edges ∧ e.target ∈ g.locations)
      ∨ (e.source ∈ g.exits ∧ e.target ∈ ((∅ : LocationSet).insert goto) ∧ e.op = op) := by
  rcases (g.mem_edges_append_iff op goto e).mp he with he | ⟨hexit, htarget, hop⟩
  · exact Or.inl ⟨he, (g.mem_locations_of_edge e hwell he).2⟩
  · exact Or.inr ⟨hexit, (mem_singleton_iff goto e.target).mpr htarget, hop⟩

variable (hnew : goto ∉ g.locations)

include hnew

/-- Nothing leaves the location behind the flow. -/
theorem source_ne_of_mem_append (e : Edge) (he : e ∈ (g.append op goto).edges) :
    e.source ≠ goto := by
  rintro rfl
  rcases (g.mem_edges_append_iff op _ e).mp he with he | ⟨hexit, _, _⟩
  · exact hnew (g.mem_locations_of_edge e hwell he).1
  · exact hnew (g.mem_locations_of_exit _ hwell hexit)

/-- The words of a flow, each followed by what an operation behind it leaves of itself. -/
theorem language_append : (g.append op goto).language = g.language * {word [op]} := by
  have hedges := g.mem_edges_append_iff op goto
  refine Set.ext fun w => Iff.trans ?_ Language.mem_mul.symm
  constructor
  · rintro ⟨entry, hentry, exit, hexit, ops, hwalk, rfl⟩
    -- Without an exit nothing is appended and no exit is made. Otherwise the new location is the
    -- only exit.
    have hend : exit = goto := by
      unfold append at hexit
      dsimp only at hexit
      split at hexit
      · exact absurd hexit Std.ExtTreeSet.not_mem_empty
      · exact (mem_singleton_iff goto exit).mp hexit
    subst hend
    -- The walk is split where it leaves the flow, with the operation behind it. There is nothing to
    -- follow that.
    rcases walk_split _ g g.locations _ _ (fun e he _ => g.edge_of_mem_append op hwell exit e he)
      entry exit ops (g.mem_locations_of_entry entry hwell hentry) hnew hwalk with
      ⟨out, hout, target, htarget, before, after, hbefore, hafter, rfl⟩
    rw [(mem_singleton_iff exit target).mp htarget] at hafter
    rcases nil_of_walk _ _ _ _ (g.source_ne_of_mem_append op hwell exit hnew) hafter with
      ⟨rfl, _⟩
    exact ⟨word before, ⟨entry, hentry, out, hout, before, hbefore, rfl⟩, word [op], rfl,
      (word_append before [op]).symm⟩
  · rintro ⟨_, ⟨entry, hentry, out, hout, before, hbefore, rfl⟩, _, rfl, rfl⟩
    have hinside := g.walk_mono _ (fun e he => (hedges e).mpr (Or.inl he)) _ _ _ hbefore
    have hlast : ⟨out, goto, op⟩ ∈ (g.append op goto).edges :=
      (hedges _).mpr (Or.inr ⟨hout, rfl, rfl⟩)
    refine ⟨entry, hentry, goto, ?_, before ++ [op],
      walk_trans _ _ _ _ _ _ hinside (.cons hlast (.nil goto)), word_append before [op]⟩
    rw [g.exits_append op goto out hout]
    exact (mem_singleton_iff goto goto).mpr rfl

end Behind

section InFront

variable (start : LocationId) (hnew : start ∉ g.locations)

include hnew

/-- From inside the flow, no edge leads to the location in front of it. -/
theorem edge_of_mem_prepend (e : Edge) (he : e ∈ (prepend start op g).edges)
    (hsource : e.source ∈ g.locations) : e ∈ g.edges ∧ e.target ∈ g.locations := by
  rcases (g.mem_edges_prepend_iff op start e).mp he with he | ⟨hstart, _, _⟩
  · exact ⟨he, (g.mem_locations_of_edge e hwell he).2⟩
  · exact absurd (hstart ▸ hsource) hnew

/-- The words of a flow, each preceded by what an operation in front of it leaves of itself. -/
theorem language_prepend : (prepend start op g).language = {word [op]} * g.language := by
  have hedges := g.mem_edges_prepend_iff op start
  refine Set.ext fun w => Iff.trans ?_ Language.mem_mul.symm
  constructor
  · rintro ⟨first, hfirst, exit, hexit, ops, hwalk, rfl⟩
    cases (mem_singleton_iff start first).mp hfirst
    have hin := g.mem_locations_of_exit exit hwell hexit
    -- The walk has a first edge, as it starts outside of the flow. This is one of the new ones, and
    -- no other one is met again.
    cases hwalk with
    | nil => exact absurd hin hnew
    | @cons _ entry _ _ ops edge hrest =>
        rcases (hedges _).mp edge with he | ⟨_, hentry, rfl⟩
        · exact absurd (g.mem_locations_of_edge _ hwell he).1 hnew
        · rcases walk_within _ g g.locations (g.edge_of_mem_prepend _ hwell start hnew) entry exit
            ops (g.mem_locations_of_entry entry hwell hentry) hrest with ⟨hwithin, _⟩
          exact ⟨_, rfl, word ops, ⟨entry, hentry, exit, hexit, ops, hwithin, rfl⟩,
            (word_append [_] ops).symm⟩
  · rintro ⟨_, rfl, _, ⟨entry, hentry, exit, hexit, ops, hwalk, rfl⟩, rfl⟩
    have hinside := g.walk_mono _ (fun e he => (hedges e).mpr (Or.inl he)) _ _ _ hwalk
    have hfirst : ⟨start, entry, op⟩ ∈ (prepend start op g).edges :=
      (hedges _).mpr (Or.inr ⟨rfl, hentry, rfl⟩)
    exact ⟨start, (mem_singleton_iff start start).mpr rfl, exit, hexit, op :: ops,
      .cons hfirst hinside, word_append [op] ops⟩

end InFront

end Flow

end ActorCheck
