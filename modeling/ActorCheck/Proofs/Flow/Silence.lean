import ActorCheck.Flow.Epsilon
import ActorCheck.Proofs.Flow.Walks
import ActorCheck.Proofs.Flow.WellFormed

/-!
# Elimination of Silent Steps

A flow from which the edges that do nothing have been eliminated accepts the same words. Both
directions are inductions on a walk. A walk through the new flow becomes one through the old flow
when every edge is preceded by the silent walk that it stands for. A walk through the old flow is
followed from a location that leads silently to where the walk is: an edge that does nothing only
makes that silent way longer, any other edge is an edge of the new flow, and at the end the
location is an exit because a silent way leads from it to one.

What no entry leads to is dropped, and this decides about edges and exits as well. It makes no
difference to walks from an entry, since what such a walk comes by is kept.

The new flow is plain: it is well formed, each of its edges does something, and an entry leads to
each of its locations. In a plain flow a silent way goes nowhere, so eliminating silent edges once
more changes nothing.

## Main definitions

* `Flow.Silently`: A location leads to another by doing nothing.
* `Flow.Plain`: Nothing is left to eliminate.

## Theorems

* `Flow.mem_silentClosure_iff`: What a location leads to by doing nothing.
* `Flow.mem_locations_removeEpsilons_iff`: What is kept.
* `Flow.walk_removeEpsilons_iff`: The words stay the same.
* `Flow.plain_removeEpsilons`, `Flow.removeEpsilons_of_plain`: Once is enough.
-/

namespace ActorCheck

namespace Flow

/-- A location leads to another by doing nothing. -/
def Silently (g : Flow) (l m : LocationId) : Prop := ∃ ops, g.Walk l ops m ∧ word ops = []

/-- A well-formed flow in which every edge does something and an entry leads to every location. -/
structure Plain (g : Flow) : Prop where
  wellFormed : g.WellFormed
  acts : ∀ e ∈ g.edges, e.op ≠ epsilonId
  reached : ∀ l ∈ g.locations, ∃ entry ∈ g.entries, ∃ ops, g.Walk entry ops l

section Silence

variable (g : Flow)

theorem silently_refl (l : LocationId) : g.Silently l l := ⟨[], .nil l, rfl⟩

theorem silently_tail (l m n : LocationId) (h : g.Silently l m)
    (hedge : ⟨m, n, epsilonId⟩ ∈ g.edges) : g.Silently l n := by
  rcases h with ⟨ops, hwalk, hword⟩
  refine ⟨ops ++ [epsilonId], g.walk_trans _ _ _ _ _ hwalk (.cons hedge (.nil n)), ?_⟩
  rw [word_append, hword, word_silent, word_nil, List.append_nil]

/-- Where every edge does something, doing nothing leads nowhere. -/
theorem eq_of_silently (hacts : ∀ e ∈ g.edges, e.op ≠ epsilonId) (l m : LocationId)
    (h : g.Silently l m) : l = m := by
  rcases h with ⟨ops, hwalk, hword⟩
  -- A walk with at least one edge that does something has a word that is not empty.
  cases hwalk with
  | nil => rfl
  | cons edge _ =>
      rw [word_cons _ _ (hacts _ edge)] at hword
      cases hword

theorem mem_silentArrows_iff (l m : LocationId) :
    (l, m) ∈ g.silentArrows ↔ ⟨l, m, epsilonId⟩ ∈ g.edges := by
  unfold silentArrows
  rw [List.mem_map]
  constructor
  · rintro ⟨e, he, heq⟩
    rcases List.mem_filter.mp he with ⟨hmem, hop⟩
    cases heq
    rw [← beq_iff_eq.mp hop]
    exact Std.ExtTreeSet.mem_toList.mp hmem
  · intro hedge
    exact ⟨_, List.mem_filter.mpr ⟨Std.ExtTreeSet.mem_toList.mpr hedge, rfl⟩, rfl⟩

/-- The closure of a location consists of what it leads to by doing nothing. -/
theorem mem_silentClosure_iff (l m : LocationId) : m ∈ g.silentClosure l ↔ g.Silently l m := by
  unfold silentClosure
  rw [mem_closure_iff]
  -- Both directions go along the way: arrows are put together at its end, edges are taken off at
  -- its beginning.
  constructor
  · rintro ⟨start, hstart, hway⟩
    cases (mem_singleton_iff l start).mp hstart
    induction hway with
    | refl => exact g.silently_refl l
    | tail _ hlast ih => exact g.silently_tail _ _ _ ih ((g.mem_silentArrows_iff _ _).mp hlast)
  · rintro ⟨ops, hwalk, hword⟩
    refine ⟨l, (mem_singleton_iff l l).mpr rfl, ?_⟩
    induction hwalk with
    | nil l => exact .refl
    | @cons l n m op ops edge hrest ih =>
        by_cases hop : op = epsilonId
        · cases hop
          exact .head ((g.mem_silentArrows_iff l n).mpr edge) (ih hword)
        -- An edge that does something would show in the word.
        · rw [word_cons op ops hop] at hword
          cases hword

theorem mem_shortcuts_iff (l : LocationId) (e : Edge) :
    e ∈ g.shortcuts l
      ↔ e.source = l ∧ e.op ≠ epsilonId
        ∧ ∃ via, g.Silently l via ∧ ⟨via, e.target, e.op⟩ ∈ g.edges := by
  unfold shortcuts
  dsimp only
  rw [List.mem_map]
  constructor
  · rintro ⟨e, he, rfl⟩
    rcases List.mem_filter.mp he with ⟨hmem, hcond⟩
    rw [Bool.and_eq_true, bne_iff_ne, Std.ExtTreeSet.contains_iff_mem, mem_silentClosure_iff]
      at hcond
    exact ⟨rfl, hcond.1, e.source, hcond.2, Std.ExtTreeSet.mem_toList.mp hmem⟩
  · rintro ⟨rfl, hop, via, hvia, hedge⟩
    refine ⟨_, List.mem_filter.mpr ⟨Std.ExtTreeSet.mem_toList.mpr hedge, ?_⟩, rfl⟩
    rw [Bool.and_eq_true, bne_iff_ne, Std.ExtTreeSet.contains_iff_mem, mem_silentClosure_iff]
    exact ⟨hop, hvia⟩

theorem silentlyExits_iff (l : LocationId) :
    g.silentlyExits l = true ↔ ∃ exit ∈ g.exits, g.Silently l exit := by
  unfold silentlyExits
  rw [List.any_eq_true]
  constructor
  · rintro ⟨m, hm, hexit⟩
    rw [Std.ExtTreeSet.mem_toList, mem_silentClosure_iff] at hm
    exact ⟨m, Std.ExtTreeSet.contains_iff_mem.mp hexit, hm⟩
  · rintro ⟨m, hexit, hm⟩
    refine ⟨m, ?_, Std.ExtTreeSet.contains_iff_mem.mpr hexit⟩
    rw [Std.ExtTreeSet.mem_toList, mem_silentClosure_iff]
    exact hm

end Silence

section Elimination

variable (g : Flow)

/-- The edges of the new flow start at locations that are kept. Each stands for a silent way and
    one edge after it. -/
theorem mem_edges_removeEpsilons_iff (e : Edge) :
    e ∈ g.removeEpsilons.edges
      ↔ e.source ∈ g.removeEpsilons.locations ∧ e.source ∈ g.locations ∧ e.op ≠ epsilonId
        ∧ ∃ via, g.Silently e.source via ∧ ⟨via, e.target, e.op⟩ ∈ g.edges := by
  -- First the definition is read off: the shortcuts of all locations, as far as they start at a
  -- kept one.
  have hkept : e ∈ g.removeEpsilons.edges
      ↔ e ∈ g.locations.toList.flatMap g.shortcuts ∧ e.source ∈ g.removeEpsilons.locations := by
    unfold removeEpsilons
    rw [Std.ExtTreeSet.mem_ofList, List.contains_iff_mem, List.mem_filter,
      Std.ExtTreeSet.contains_iff_mem]
  rw [hkept, List.mem_flatMap, and_comm]
  refine and_congr_right' ⟨?_, ?_⟩
  · rintro ⟨l, hl, he⟩
    rcases (g.mem_shortcuts_iff l e).mp he with ⟨rfl, hrest⟩
    exact ⟨Std.ExtTreeSet.mem_toList.mp hl, hrest⟩
  · rintro ⟨hl, hrest⟩
    exact ⟨e.source, Std.ExtTreeSet.mem_toList.mpr hl, (g.mem_shortcuts_iff _ e).mpr ⟨rfl, hrest⟩⟩

/-- The operations of the new flow are operations of the old one. -/
theorem ops_of_removeEpsilons (e : Edge) (h : e ∈ g.removeEpsilons.edges) :
    ∃ e' ∈ g.edges, e'.op = e.op := by
  rcases (g.mem_edges_removeEpsilons_iff e).mp h with ⟨_, _, _, via, _, hedge⟩
  exact ⟨_, hedge, rfl⟩

theorem mem_exits_removeEpsilons_iff (l : LocationId) :
    l ∈ g.removeEpsilons.exits
      ↔ l ∈ g.removeEpsilons.locations ∧ l ∈ g.locations ∧ ∃ exit ∈ g.exits, g.Silently l exit := by
  -- Again the definition first, a filter of all locations.
  have hkept : l ∈ g.removeEpsilons.exits
      ↔ l ∈ g.locations.toList ∧ (g.silentlyExits l && g.removeEpsilons.locations.contains l) := by
    unfold removeEpsilons
    rw [Std.ExtTreeSet.mem_ofList, List.contains_iff_mem, List.mem_filter]
  rw [hkept, Std.ExtTreeSet.mem_toList, Bool.and_eq_true, silentlyExits_iff,
    Std.ExtTreeSet.contains_iff_mem]
  exact ⟨fun h => ⟨h.2.2, h.1, h.2.1⟩, fun h => ⟨h.2.1, h.2.2, h.1⟩⟩

theorem target_mem_removeEpsilons (e : Edge) (he : e ∈ g.removeEpsilons.edges) :
    e.target ∈ g.removeEpsilons.locations := by
  rcases (g.mem_edges_removeEpsilons_iff e).mp he with ⟨hsource, hl, hrest⟩
  -- What is kept is closed along the shortcuts, and every edge of the new flow is one.
  have harrow : (e.source, e.target)
      ∈ (g.locations.toList.flatMap g.shortcuts).map fun e => (e.source, e.target) :=
    List.mem_map.mpr ⟨e, List.mem_flatMap.mpr ⟨e.source, Std.ExtTreeSet.mem_toList.mpr hl,
      (g.mem_shortcuts_iff _ e).mpr ⟨rfl, hrest⟩⟩, rfl⟩
  rcases (mem_closure_iff _ _ _).mp hsource with ⟨entry, hentry, hway⟩
  exact (mem_closure_iff _ _ _).mpr ⟨entry, hentry, hway.tail harrow⟩

theorem entry_mem_removeEpsilons (l : LocationId) (hl : l ∈ g.entries) :
    l ∈ g.removeEpsilons.locations :=
  (mem_closure_iff _ _ _).mpr ⟨l, hl, .refl⟩

/-- What is kept are the locations that an entry leads to through the new flow. -/
theorem mem_locations_removeEpsilons_iff (l : LocationId) :
    l ∈ g.removeEpsilons.locations
      ↔ ∃ entry ∈ g.entries, ∃ ops, g.removeEpsilons.Walk entry ops l := by
  constructor
  · intro hl
    rcases (mem_closure_iff _ _ _).mp hl with ⟨entry, hentry, hway⟩
    refine ⟨entry, hentry, ?_⟩
    clear hl
    -- Along the way that kept the location, each arrow of which is an edge of the new flow because
    -- everything on the way is kept too.
    induction hway with
    | refl => exact ⟨[], .nil entry⟩
    | @tail m n hbefore hlast ih =>
        rcases ih with ⟨ops, hwalk⟩
        rcases List.mem_map.mp hlast with ⟨e, he, heq⟩
        cases heq
        rcases List.mem_flatMap.mp he with ⟨via, hvia, hshort⟩
        rcases (g.mem_shortcuts_iff via e).mp hshort with ⟨rfl, hrest⟩
        have hkept : e.source ∈ g.removeEpsilons.locations :=
          (mem_closure_iff _ _ _).mpr ⟨entry, hentry, hbefore⟩
        have hedge : e ∈ g.removeEpsilons.edges := (g.mem_edges_removeEpsilons_iff e).mpr
          ⟨hkept, Std.ExtTreeSet.mem_toList.mp hvia, hrest⟩
        exact ⟨ops ++ [e.op], walk_trans _ _ _ _ _ _ hwalk (.cons hedge (.nil _))⟩
  · rintro ⟨entry, hentry, ops, hwalk⟩
    -- A walk through the new flow cannot leave what is kept.
    have hstay : ∀ e ∈ g.removeEpsilons.edges, e.source ∈ g.removeEpsilons.locations →
        e ∈ g.removeEpsilons.edges ∧ e.target ∈ g.removeEpsilons.locations := fun e he _ =>
      ⟨he, g.target_mem_removeEpsilons e he⟩
    exact (walk_within _ _ _ hstay entry l ops (g.entry_mem_removeEpsilons entry hentry) hwalk).2

/-- Without edges that do nothing, the exits of the new flow are exits of the old one. -/
theorem exits_of_removeEpsilons (hacts : ∀ e ∈ g.edges, e.op ≠ epsilonId) (l : LocationId)
    (h : l ∈ g.removeEpsilons.exits) : l ∈ g.exits := by
  rcases (g.mem_exits_removeEpsilons_iff l).mp h with ⟨_, _, exit, hexit, hl⟩
  rw [g.eq_of_silently hacts l exit hl]
  exact hexit

/-- A walk through the new flow stands for one through the old flow. -/
theorem walk_of_removeEpsilons (l m : LocationId) (ops : List OperationId)
    (h : g.removeEpsilons.Walk l ops m) : ∃ ops', g.Walk l ops' m ∧ word ops' = ops := by
  -- Before every edge the silent walk that it stands for is put in. It adds nothing to the word.
  induction h with
  | nil l => exact ⟨[], .nil l, rfl⟩
  | cons edge _ ih =>
      rcases ih with ⟨rest, hrest, rfl⟩
      rcases (g.mem_edges_removeEpsilons_iff _).mp edge with
        ⟨_, _, hop, via, ⟨silent, hsilent, hword⟩, hedge⟩
      refine ⟨_, g.walk_trans _ _ _ _ _ hsilent (.cons hedge hrest), ?_⟩
      rw [word_append, hword, word_cons _ _ hop, List.nil_append]

/-- What is left is plain, even if the flow was not well formed. -/
theorem plain_removeEpsilons : g.removeEpsilons.Plain := by
  refine ⟨(wellFormed_iff _).mpr ⟨fun e he => ?_, g.entry_mem_removeEpsilons, fun l hl => ?_⟩,
    fun e he => ?_, fun l hl => (g.mem_locations_removeEpsilons_iff l).mp hl⟩
  · exact ⟨((g.mem_edges_removeEpsilons_iff e).mp he).1, g.target_mem_removeEpsilons e he⟩
  · exact ((g.mem_exits_removeEpsilons_iff l).mp hl).1
  · exact ((g.mem_edges_removeEpsilons_iff e).mp he).2.2.1

end Elimination

section Languages

variable (g : Flow) (hwell : g.WellFormed)

include hwell

theorem mem_locations_of_removeEpsilons (l : LocationId) (hl : l ∈ g.removeEpsilons.locations) :
    l ∈ g.locations := by
  rcases (g.mem_locations_removeEpsilons_iff l).mp hl with ⟨entry, hentry, ops, hwalk⟩
  -- The targets of new edges are targets of old ones, so walks from entries stay among the old
  -- locations.
  have hstay : ∀ e ∈ g.removeEpsilons.edges, e.source ∈ g.locations →
      e ∈ g.removeEpsilons.edges ∧ e.target ∈ g.locations := by
    intro e he _
    rcases (g.mem_edges_removeEpsilons_iff e).mp he with ⟨_, _, _, via, _, hedge⟩
    exact ⟨he, (g.mem_locations_of_edge _ hwell hedge).2⟩
  exact (walk_within _ _ _ hstay entry l ops (g.mem_locations_of_entry entry hwell hentry) hwalk).2

/-- A walk through the old flow to an exit is followed through the new one, from a location that is
    kept and leads silently to where the walk begins. -/
theorem exists_walk_removeEpsilons (l m : LocationId) (ops : List OperationId)
    (hm : m ∈ g.exits) (h : g.Walk l ops m) (start : LocationId)
    (hstart : start ∈ g.removeEpsilons.locations) (hsilent : g.Silently start l) :
    ∃ exit ∈ g.removeEpsilons.exits, g.removeEpsilons.Walk start (word ops) exit := by
  have hlocation := g.mem_locations_of_removeEpsilons hwell
  -- On the walk through the old flow, for any start: an edge that does nothing makes the silent way
  -- to where the walk is longer, any other edge is a new edge from the start and the silent way
  -- begins anew behind it.
  induction h generalizing start with
  | nil l =>
      refine ⟨start, (g.mem_exits_removeEpsilons_iff start).mpr ?_, .nil start⟩
      exact ⟨hstart, hlocation start hstart, l, hm, hsilent⟩
  | @cons l n m op ops edge _ ih =>
      by_cases hop : op = epsilonId
      · cases hop
        exact ih hm start hstart (g.silently_tail _ _ _ hsilent edge)
      · have hnew : ⟨start, n, op⟩ ∈ g.removeEpsilons.edges :=
          (g.mem_edges_removeEpsilons_iff _).mpr
            ⟨hstart, hlocation start hstart, hop, l, hsilent, edge⟩
        rcases ih hm n (g.target_mem_removeEpsilons _ hnew) (g.silently_refl n) with
          ⟨exit, hexit, hwalk⟩
        rw [word_cons op ops hop]
        exact ⟨exit, hexit, .cons hnew hwalk⟩

/-- The walks through the new flow from an entry to an exit carry the words of the old flow, and
    nothing else. -/
theorem walk_removeEpsilons_iff (w : List OperationId) :
    (∃ entry ∈ g.removeEpsilons.entries, ∃ exit ∈ g.removeEpsilons.exits,
      g.removeEpsilons.Walk entry w exit) ↔ g.Accepts w := by
  constructor
  · rintro ⟨entry, hentry, last, hlast, hwalk⟩
    -- The last location is an exit of the new flow because of a silent way to one of the old flow,
    -- and that way is appended.
    rcases (g.mem_exits_removeEpsilons_iff last).mp hlast with
      ⟨_, _, exit, hexit, silent, hsilent, hword⟩
    rcases g.walk_of_removeEpsilons entry last w hwalk with ⟨ops, hops, rfl⟩
    refine ⟨entry, hentry, exit, hexit, ops ++ silent, g.walk_trans _ _ _ _ _ hops hsilent, ?_⟩
    rw [word_append, hword, List.append_nil]
  · rintro ⟨entry, hentry, exit, hexit, ops, hwalk, rfl⟩
    exact ⟨entry, hentry, g.exists_walk_removeEpsilons hwell entry exit ops hexit hwalk entry
      (g.entry_mem_removeEpsilons entry hentry) (g.silently_refl entry)⟩

end Languages

section Plainness

variable (g : Flow) (h : g.Plain)

include h

theorem mem_edges_removeEpsilons_of_plain (e : Edge) (hmem : e ∈ g.edges)
    (hsource : e.source ∈ g.removeEpsilons.locations) : e ∈ g.removeEpsilons.edges :=
  (g.mem_edges_removeEpsilons_iff e).mpr ⟨hsource, (g.mem_locations_of_edge e h.wellFormed hmem).1,
    h.acts e hmem, e.source, g.silently_refl e.source, hmem⟩

/-- An entry leads to every location of a plain flow, so all of them are kept. -/
theorem locations_removeEpsilons_of_plain : g.removeEpsilons.locations = g.locations := by
  refine Std.ExtTreeSet.ext_mem fun l =>
    ⟨g.mem_locations_of_removeEpsilons h.wellFormed l, fun hl => ?_⟩
  rcases h.reached l hl with ⟨entry, hentry, ops, hwalk⟩
  -- What is kept is closed along the edges of the old flow too, as each of them is a shortcut of
  -- its own.
  have hstay : ∀ e ∈ g.edges, e.source ∈ g.removeEpsilons.locations →
      e ∈ g.edges ∧ e.target ∈ g.removeEpsilons.locations := fun e he hsource =>
    ⟨he, g.target_mem_removeEpsilons e (g.mem_edges_removeEpsilons_of_plain h e he hsource)⟩
  exact (walk_within _ _ _ hstay entry l ops (g.entry_mem_removeEpsilons entry hentry) hwalk).2

/-- There is nothing left to eliminate from a plain flow. -/
theorem removeEpsilons_of_plain : g.removeEpsilons = g := by
  have hlocations := g.locations_removeEpsilons_of_plain h
  have hsilent := g.eq_of_silently h.acts
  -- Locations, exits and edges are compared one by one. In all of them the silent ways have length
  -- nought.
  refine (Flow.mk.injEq ..).mpr ⟨hlocations, rfl, ?_, ?_⟩
  · refine Std.ExtTreeSet.ext_mem fun l =>
      ⟨g.exits_of_removeEpsilons h.acts l, fun hexit => ?_⟩
    have hl := g.mem_locations_of_exit l h.wellFormed hexit
    exact (g.mem_exits_removeEpsilons_iff l).mpr
      ⟨hlocations ▸ hl, hl, l, hexit, g.silently_refl l⟩
  · refine Std.ExtTreeSet.ext_mem fun e => ⟨fun he => ?_, fun he => ?_⟩
    · rcases (g.mem_edges_removeEpsilons_iff e).mp he with ⟨_, _, _, via, hvia, hedge⟩
      cases hsilent _ _ hvia
      exact hedge
    · refine g.mem_edges_removeEpsilons_of_plain h e he ?_
      rw [hlocations]
      exact (g.mem_locations_of_edge e h.wellFormed he).1

end Plainness

end Flow

end ActorCheck
