import ActorCheck.Flow.Compose
import ActorCheck.Proofs.Flow.Walks
import ActorCheck.Proofs.Flow.WellFormed

/-!
# Languages of Composed Flows

The sequence of two flows accepts the concatenations of their words, and a choice accepts the words
of both. This holds of flows with any number of entries and exits, and of flows in which edges lead
back to entries or on from exits, as long as the two share no location.

An edge of a composed flow belongs to one of its parts or is a joint. As the locations of the parts
are different, where an edge starts tells which of these it is. A walk through the composed flow
therefore leaves a part only by a joint, and is taken apart there. A choice is symmetric in its two
parts, so what happens in one of them need only be said once.

## Theorems

* `Flow.language_concat`: The language of a sequence.
* `Flow.language_branch`: The language of a choice.
* `Flow.wellFormed_append`, `Flow.wellFormed_concat`, `Flow.wellFormed_branch`: The composed flows
  are well formed.
-/

namespace ActorCheck

namespace Flow

section Joints

theorem mem_joints_iff (sources targets : LocationSet) (op : OperationId) (e : Edge) :
    e ∈ joints sources targets op ↔ e.source ∈ sources ∧ e.target ∈ targets ∧ e.op = op := by
  unfold joints
  rw [List.mem_flatMap]
  constructor
  · rintro ⟨source, hsource, hjoint⟩
    rcases List.mem_map.mp hjoint with ⟨target, htarget, rfl⟩
    exact ⟨Std.ExtTreeSet.mem_toList.mp hsource, Std.ExtTreeSet.mem_toList.mp htarget, rfl⟩
  · rintro ⟨hsource, htarget, rfl⟩
    exact ⟨e.source, Std.ExtTreeSet.mem_toList.mpr hsource,
      List.mem_map.mpr ⟨e.target, Std.ExtTreeSet.mem_toList.mpr htarget, rfl⟩⟩

theorem mem_withEdges_iff (edges : EdgeSet) (more : List Edge) (e : Edge) :
    e ∈ withEdges edges more ↔ e ∈ edges ∨ e ∈ more := by
  unfold withEdges
  rw [Std.ExtTreeSet.mem_union_iff, Std.ExtTreeSet.mem_ofList, List.contains_iff_mem]

theorem mem_edges_append_iff (g : Flow) (op : OperationId) (goto : LocationId) (e : Edge) :
    e ∈ (g.append op goto).edges
      ↔ e ∈ g.edges ∨ (e.source ∈ g.exits ∧ e.target = goto ∧ e.op = op) := by
  rw [append, mem_withEdges_iff, mem_joints_iff]
  exact or_congr_right (and_congr_right' (and_congr_left' (mem_singleton_iff goto e.target)))

theorem mem_edges_concat_iff (a b : Flow) (e : Edge) :
    e ∈ (a.concat b).edges ↔ (e ∈ a.edges ∨ e ∈ b.edges)
      ∨ (e.source ∈ a.exits ∧ e.target ∈ b.entries ∧ e.op = epsilonId) := by
  rw [concat, mem_withEdges_iff, mem_joints_iff, Std.ExtTreeSet.mem_union_iff]

theorem mem_edges_branch_iff (a b : Flow) (entry exit : LocationId) (e : Edge) :
    e ∈ (a.branch b entry exit).edges ↔ (e ∈ a.edges ∨ e ∈ b.edges)
      ∨ (e.source = entry ∧ (e.target ∈ a.entries ∨ e.target ∈ b.entries) ∧ e.op = epsilonId)
      ∨ ((e.source ∈ a.exits ∨ e.source ∈ b.exits) ∧ e.target = exit ∧ e.op = epsilonId) := by
  have hentry := mem_singleton_iff entry e.source
  have hexit := mem_singleton_iff exit e.target
  rw [branch, mem_withEdges_iff, List.mem_append, mem_joints_iff, mem_joints_iff]
  simp only [Std.ExtTreeSet.mem_union_iff]
  exact or_congr_right (or_congr (and_congr_left' hentry)
    (and_congr_right' (and_congr_left' hexit)))

theorem mem_locations_branch_iff (a b : Flow) (entry exit l : LocationId) :
    l ∈ (a.branch b entry exit).locations
      ↔ l = exit ∨ l = entry ∨ l ∈ a.locations ∨ l ∈ b.locations := by
  rw [branch, mem_insert_iff, mem_insert_iff, Std.ExtTreeSet.mem_union_iff]

/-- A choice does not depend on the order of its parts. -/
theorem branch_comm (a b : Flow) (entry exit : LocationId) :
    a.branch b entry exit = b.branch a entry exit := by
  -- Entries and exits do not mention the parts, so only the sets of locations and of edges have to
  -- be compared.
  refine (Flow.mk.injEq ..).mpr ⟨?_, rfl, rfl, ?_⟩
  · refine Std.ExtTreeSet.ext_mem fun l => ?_
    change l ∈ (a.branch b entry exit).locations ↔ l ∈ (b.branch a entry exit).locations
    rw [mem_locations_branch_iff, mem_locations_branch_iff, or_comm (a := l ∈ a.locations)]
  · refine Std.ExtTreeSet.ext_mem fun e => ?_
    change e ∈ (a.branch b entry exit).edges ↔ e ∈ (b.branch a entry exit).edges
    rw [mem_edges_branch_iff, mem_edges_branch_iff, or_comm (a := e ∈ a.edges),
      or_comm (a := e.target ∈ a.entries), or_comm (a := e.source ∈ a.exits)]

end Joints

/-- A word of the first part is a word of the choice. -/
theorem accepts_branch_of_accepts (a b : Flow) (entry exit : LocationId) (w : List OperationId)
    (h : a.Accepts w) : (a.branch b entry exit).Accepts w := by
  -- The walk is kept and framed by the two joints, which do nothing and so leave the word as it is.
  have hedges := mem_edges_branch_iff a b entry exit
  rcases h with ⟨first, hfirst, last, hlast, ops, hwalk, rfl⟩
  have hinside := a.walk_mono _ (fun e he => (hedges e).mpr (Or.inl (Or.inl he))) _ _ _ hwalk
  have hin : ⟨entry, first, epsilonId⟩ ∈ (a.branch b entry exit).edges :=
    (hedges _).mpr (Or.inr (Or.inl ⟨rfl, Or.inl hfirst, rfl⟩))
  have hout : ⟨last, exit, epsilonId⟩ ∈ (a.branch b entry exit).edges :=
    (hedges _).mpr (Or.inr (Or.inr ⟨Or.inl hlast, rfl, rfl⟩))
  refine ⟨entry, (mem_singleton_iff entry entry).mpr rfl, exit,
    (mem_singleton_iff exit exit).mpr rfl, epsilonId :: (ops ++ [epsilonId]),
    .cons hin (walk_trans _ _ _ _ _ _ hinside (.cons hout (.nil exit))), ?_⟩
  rw [word_silent, word_append, word_silent, word_nil, List.append_nil]

/-- What is appended to a flow with an exit is its only exit afterwards. -/
theorem exits_append (g : Flow) (op : OperationId) (goto exit : LocationId)
    (h : exit ∈ g.exits) : (g.append op goto).exits = (∅ : LocationSet).insert goto := by
  have hsome : ¬ g.exits.isEmpty = true := by
    intro hempty
    rw [Std.ExtTreeSet.isEmpty_iff.mp hempty] at h
    exact Std.ExtTreeSet.not_mem_empty h
  unfold append
  exact if_neg hsome

/-- A new exit behind the old ones. -/
theorem wellFormed_append (g : Flow) (op : OperationId) (goto : LocationId) (h : g.WellFormed) :
    (g.append op goto).WellFormed := by
  have hold : ∀ l ∈ g.locations, l ∈ (g.append op goto).locations := fun l hl =>
    Std.ExtTreeSet.mem_insert.mpr (Or.inr hl)
  have hgoto : goto ∈ (g.append op goto).locations := Std.ExtTreeSet.mem_insert_self
  -- The new edges lead from old exits to the new one. Without old exits there is none, and no exit
  -- either.
  refine (wellFormed_iff _).mpr ⟨fun e he => ?_, fun l hl => ?_, fun l hl => ?_⟩
  · rcases (mem_edges_append_iff g op goto e).mp he with he | ⟨hexit, htarget, _⟩
    · exact (g.mem_locations_of_edge e h he).imp (hold _) (hold _)
    · exact ⟨hold _ (g.mem_locations_of_exit _ h hexit), htarget ▸ hgoto⟩
  · exact hold l (g.mem_locations_of_entry l h hl)
  · unfold append at hl
    dsimp only at hl
    split at hl
    · exact absurd hl Std.ExtTreeSet.not_mem_empty
    · rw [(mem_singleton_iff goto l).mp hl]
      exact hgoto

variable (a b : Flow) (ha : a.WellFormed) (hb : b.WellFormed)

include ha hb

theorem wellFormed_concat : (a.concat b).WellFormed := by
  have hleft : ∀ l ∈ a.locations, l ∈ (a.concat b).locations := fun l hl =>
    Std.ExtTreeSet.mem_union_iff.mpr (Or.inl hl)
  have hright : ∀ l ∈ b.locations, l ∈ (a.concat b).locations := fun l hl =>
    Std.ExtTreeSet.mem_union_iff.mpr (Or.inr hl)
  -- An edge stays in its part, or it is a joint between an exit of the one and an entry of the
  -- other.
  refine (wellFormed_iff _).mpr ⟨fun e he => ?_, fun l hl => ?_, fun l hl => ?_⟩
  · rcases (mem_edges_concat_iff a b e).mp he with (he | he) | ⟨hexit, hentry, _⟩
    · exact (a.mem_locations_of_edge e ha he).imp (hleft _) (hleft _)
    · exact (b.mem_locations_of_edge e hb he).imp (hright _) (hright _)
    · exact ⟨hleft _ (a.mem_locations_of_exit _ ha hexit),
        hright _ (b.mem_locations_of_entry _ hb hentry)⟩
  · exact hleft l (a.mem_locations_of_entry l ha hl)
  · exact hright l (b.mem_locations_of_exit l hb hl)

theorem wellFormed_branch (entry exit : LocationId) : (a.branch b entry exit).WellFormed := by
  have hmem := mem_locations_branch_iff a b entry exit
  have hleft : ∀ l ∈ a.locations, l ∈ (a.branch b entry exit).locations := fun l hl =>
    (hmem l).mpr (Or.inr (Or.inr (Or.inl hl)))
  have hright : ∀ l ∈ b.locations, l ∈ (a.branch b entry exit).locations := fun l hl =>
    (hmem l).mpr (Or.inr (Or.inr (Or.inr hl)))
  refine (wellFormed_iff _).mpr ⟨fun e he => ?_, fun l hl => ?_, fun l hl => ?_⟩
  -- An edge of a part, a joint behind the new entry, or one before the new exit.
  · rcases (mem_edges_branch_iff a b entry exit e).mp he with
      (he | he) | ⟨hsource, htarget, _⟩ | ⟨hsource, htarget, _⟩
    · exact (a.mem_locations_of_edge e ha he).imp (hleft _) (hleft _)
    · exact (b.mem_locations_of_edge e hb he).imp (hright _) (hright _)
    · refine ⟨(hmem _).mpr (Or.inr (Or.inl hsource)), ?_⟩
      rcases htarget with h | h
      · exact hleft _ (a.mem_locations_of_entry _ ha h)
      · exact hright _ (b.mem_locations_of_entry _ hb h)
    · refine ⟨?_, (hmem _).mpr (Or.inl htarget)⟩
      rcases hsource with h | h
      · exact hleft _ (a.mem_locations_of_exit _ ha h)
      · exact hright _ (b.mem_locations_of_exit _ hb h)
  · exact (hmem l).mpr (Or.inr (Or.inl ((mem_singleton_iff entry l).mp hl)))
  · exact (hmem l).mpr (Or.inl ((mem_singleton_iff exit l).mp hl))

/-- Nothing leaves the exit of a choice. -/
theorem source_ne_of_mem_branch (entry exit : LocationId)
    (hexit : exit ∉ a.locations ∧ exit ∉ b.locations)
    (hapart : entry ≠ exit) (e : Edge) (he : e ∈ (a.branch b entry exit).edges) :
    e.source ≠ exit := by
  rintro rfl
  -- Every kind of edge starts somewhere else: in a part, at the new entry, or at an exit of a part.
  rcases (mem_edges_branch_iff a b entry _ e).mp he with
    (he | he) | ⟨hfirst, _, _⟩ | ⟨hout | hout, _, _⟩
  · exact hexit.1 (a.mem_locations_of_edge e ha he).1
  · exact hexit.2 (b.mem_locations_of_edge e hb he).1
  · exact hapart hfirst.symm
  · exact hexit.1 (a.mem_locations_of_exit _ ha hout)
  · exact hexit.2 (b.mem_locations_of_exit _ hb hout)

variable (hdisjoint : ∀ l ∈ a.locations, l ∉ b.locations)

include hdisjoint

/-- In a sequence, only joints lead out of the first part. -/
theorem edge_of_mem_concat_left (e : Edge) (he : e ∈ (a.concat b).edges)
    (hsource : e.source ∈ a.locations) :
    (e ∈ a.edges ∧ e.target ∈ a.locations)
      ∨ (e.source ∈ a.exits ∧ e.target ∈ b.entries ∧ e.op = epsilonId) := by
  -- As the parts share no location, an edge that starts in the first one cannot be one of the
  -- second.
  rcases (mem_edges_concat_iff a b e).mp he with (he | he) | hjoint
  · exact Or.inl ⟨he, (a.mem_locations_of_edge e ha he).2⟩
  · exact absurd (b.mem_locations_of_edge e hb he).1 (hdisjoint _ hsource)
  · exact Or.inr hjoint

/-- In a sequence, no edge leads out of the second part. -/
theorem edge_of_mem_concat_right (e : Edge) (he : e ∈ (a.concat b).edges)
    (hsource : e.source ∈ b.locations) : e ∈ b.edges ∧ e.target ∈ b.locations := by
  rcases (mem_edges_concat_iff a b e).mp he with (he | he) | ⟨hout, _, _⟩
  · exact absurd hsource (hdisjoint _ (a.mem_locations_of_edge e ha he).1)
  · exact ⟨he, (b.mem_locations_of_edge e hb he).2⟩
  · exact absurd hsource (hdisjoint _ (a.mem_locations_of_exit _ ha hout))

/-- The words of a sequence are the words of the first part followed by words of the second. -/
theorem language_concat : (a.concat b).language = a.language * b.language := by
  have hedges := mem_edges_concat_iff a b
  refine Set.ext fun w => Iff.trans ?_ Language.mem_mul.symm
  constructor
  -- The walk begins in the first part and ends outside of it, so it is split where it leaves. What
  -- comes before is a walk of the first part up to one of its exits, and from there on it cannot
  -- leave the second part any more.
  · rintro ⟨entry, hentry, exit, hexit, ops, hwalk, rfl⟩
    have hleave := edge_of_mem_concat_left a b ha hb hdisjoint
    have hstay := edge_of_mem_concat_right a b ha hb hdisjoint
    have hbegin := a.mem_locations_of_entry entry ha hentry
    have hend : exit ∉ a.locations := fun hmem =>
      hdisjoint exit hmem (b.mem_locations_of_exit exit hb hexit)
    rcases walk_split _ a a.locations b.entries _ hleave entry exit ops hbegin hend hwalk with
      ⟨out, hout, start, hstart, before, after, hbefore, hafter, rfl⟩
    rcases walk_within _ b b.locations hstay start exit after
      (b.mem_locations_of_entry start hb hstart) hafter with ⟨hwithin, _⟩
    refine ⟨word before, ⟨entry, hentry, out, hout, before, hbefore, rfl⟩,
      word after, ⟨start, hstart, exit, hexit, after, hwithin, rfl⟩, ?_⟩
    rw [word_append, word_silent]
  -- Both walks are walks of the sequence, and a joint leads from the one to the other.
  · rintro ⟨_, ⟨entry, hentry, out, hout, before, hbefore, rfl⟩,
      _, ⟨start, hstart, exit, hexit, after, hafter, rfl⟩, rfl⟩
    have hfirst := a.walk_mono _ (fun e he => (hedges e).mpr (Or.inl (Or.inl he))) _ _ _ hbefore
    have hsecond := b.walk_mono _ (fun e he => (hedges e).mpr (Or.inl (Or.inr he))) _ _ _ hafter
    have hjoint : ⟨out, start, epsilonId⟩ ∈ (a.concat b).edges :=
      (hedges _).mpr (Or.inr ⟨hout, hstart, rfl⟩)
    refine ⟨entry, hentry, exit, hexit, before ++ epsilonId :: after,
      walk_trans _ _ _ _ _ _ hfirst (.cons hjoint hsecond), ?_⟩
    rw [word_append, word_silent]

section Choice

variable (entry exit : LocationId)

/-- In a choice, only joints with the exit lead out of the first part. -/
theorem edge_of_mem_branch_left (hentry : entry ∉ a.locations) (e : Edge)
    (he : e ∈ (a.branch b entry exit).edges) (hsource : e.source ∈ a.locations) :
    (e ∈ a.edges ∧ e.target ∈ a.locations)
      ∨ (e.source ∈ a.exits ∧ e.target ∈ ((∅ : LocationSet).insert exit)
        ∧ e.op = epsilonId) := by
  -- The joints behind the entry start outside of the parts, and those before the exit lead to it.
  rcases (mem_edges_branch_iff a b entry exit e).mp he with
    (he | he) | ⟨hfirst, _, _⟩ | ⟨hout | hout, htarget, hop⟩
  · exact Or.inl ⟨he, (a.mem_locations_of_edge e ha he).2⟩
  · exact absurd (b.mem_locations_of_edge e hb he).1 (hdisjoint _ hsource)
  · exact absurd (hfirst ▸ hsource) hentry
  · exact Or.inr ⟨hout, (mem_singleton_iff exit e.target).mpr htarget, hop⟩
  · exact absurd (b.mem_locations_of_exit _ hb hout) (hdisjoint _ hsource)

variable (hentry : entry ∉ a.locations ∧ entry ∉ b.locations)
  (hexit : exit ∉ a.locations ∧ exit ∉ b.locations) (hapart : entry ≠ exit)

include hentry hexit hapart

/-- What leads from an entry of the first part to the exit of a choice is a word of that part. -/
theorem accepts_of_walk_branch (l : LocationId) (ops : List OperationId) (hl : l ∈ a.entries)
    (h : (a.branch b entry exit).Walk l ops exit) : a.Accepts (word ops) := by
  have hleave := edge_of_mem_branch_left a b ha hb hdisjoint entry exit hentry.1
  have hlast := source_ne_of_mem_branch a b ha hb entry exit hexit hapart
  -- The walk is split where it leaves the part. That is a step to the exit, behind which nothing
  -- follows.
  rcases walk_split _ a a.locations _ _ hleave l exit ops (a.mem_locations_of_entry l ha hl)
    hexit.1 h with ⟨out, hout, target, htarget, before, after, hbefore, hafter, rfl⟩
  rw [mem_singleton_iff] at htarget
  rw [htarget] at hafter
  rcases nil_of_walk _ _ _ _ hlast hafter with ⟨rfl, _⟩
  refine ⟨l, hl, out, hout, before, hbefore, ?_⟩
  rw [word_append, word_silent, word_nil, List.append_nil]

/-- The words of a choice are the words of its parts. -/
theorem language_branch : (a.branch b entry exit).language = a.language + b.language := by
  have hedges := mem_edges_branch_iff a b entry exit
  refine Set.ext fun w => Iff.trans ?_ (Language.mem_add _ _ w).symm
  constructor
  · rintro ⟨first, hfirst, last, hlast, ops, hwalk, rfl⟩
    cases (mem_singleton_iff entry first).mp hfirst
    cases (mem_singleton_iff exit last).mp hlast
    -- As entry and exit differ there is a first step. Only a joint starts at the entry, so this is
    -- one, and it decides for a part. The second part is dealt with by symmetry.
    cases hwalk with
    | nil => exact absurd rfl hapart
    | @cons _ l _ op ops edge hrest =>
        rcases (hedges _).mp edge with (he | he) | ⟨_, hl | hl, rfl⟩ | ⟨hout | hout, _, _⟩
        · exact absurd (a.mem_locations_of_edge _ ha he).1 hentry.1
        · exact absurd (b.mem_locations_of_edge _ hb he).1 hentry.2
        · rw [word_silent]
          exact Or.inl (accepts_of_walk_branch a b ha hb hdisjoint entry exit hentry hexit hapart
            l ops hl hrest)
        · rw [branch_comm] at hrest
          rw [word_silent]
          exact Or.inr (accepts_of_walk_branch b a hb ha (fun m hm hm' => hdisjoint m hm' hm)
            entry exit hentry.symm hexit.symm hapart l ops hl hrest)
        · exact absurd (a.mem_locations_of_exit _ ha hout) hentry.1
        · exact absurd (b.mem_locations_of_exit _ hb hout) hentry.2
  · rintro (hleft | hright)
    · exact accepts_branch_of_accepts a b entry exit w hleft
    · have h := accepts_branch_of_accepts b a entry exit w hright
      rw [branch_comm] at h
      exact h

end Choice

end Flow

end ActorCheck
