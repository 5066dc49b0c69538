import ActorCheck.Proofs.Flow.Nesting

/-!
# Renumbered Flows

Sets of locations are kept in ascending order, and of several loops with equally few locations the
search takes the first. What it finds could thus depend on the numbers that the locations happen to
have. It does not, since the loops around a location form a chain: there is only one that lies
within all of them.

Here all locations of a flow are given other numbers, different ones for different locations. Edges
may also carry other operations, even the same one where they carried different ones. Routes are
carried over, and so is all that is told by routes: dominators, edges back, heads and bodies.

## Main definitions

* `Flow.image`: A set of locations under other numbers.
* `Flow.renumber`: A flow under other numbers.

## Theorems

* `Flow.route_renumber`, `Flow.route_of_renumber`: Routes are carried over.
* `Flow.mem_loopBody_renumber_iff`: The bodies of loops are carried over.
* `Flow.innermost_renumber_iff`: Innermost loops are carried over.
* `Flow.loops_nest`: Loops nest, and the innermost one does not depend on the numbers.
-/

namespace ActorCheck

namespace Flow

/-- The locations of a set under other numbers. -/
def image (place : LocationId → LocationId) (s : LocationSet) : LocationSet :=
  .ofList (s.toList.map place)

/-- A flow with other numbers for locations and operations. -/
def renumber (place : LocationId → LocationId) (label : OperationId → OperationId) (g : Flow) :
    Flow where
  locations := image place g.locations
  entries := image place g.entries
  exits := image place g.exits
  edges := .ofList (g.edges.toList.map fun e =>
    (⟨place e.source, place e.target, label e.op⟩ : Edge))

variable (g : Flow) (place : LocationId → LocationId) (label : OperationId → OperationId)

theorem mem_image_iff (s : LocationSet) (x : LocationId) :
    x ∈ image place s ↔ ∃ l ∈ s, place l = x := by
  unfold image
  rw [Std.ExtTreeSet.mem_ofList, List.contains_iff_mem, List.mem_map]
  simp only [Std.ExtTreeSet.mem_toList]

theorem mem_entries_renumber_iff (x : LocationId) :
    x ∈ (g.renumber place label).entries ↔ ∃ l ∈ g.entries, place l = x :=
  mem_image_iff place g.entries x

theorem mem_edges_renumber_iff (x y : LocationId) (o : OperationId) :
    ⟨x, y, o⟩ ∈ (g.renumber place label).edges
      ↔ ∃ l m op, ⟨l, m, op⟩ ∈ g.edges ∧ place l = x ∧ place m = y ∧ label op = o := by
  unfold renumber
  rw [Std.ExtTreeSet.mem_ofList, List.contains_iff_mem, List.mem_map]
  constructor
  · rintro ⟨⟨l, m, op⟩, he, heq⟩
    cases heq
    exact ⟨l, m, op, Std.ExtTreeSet.mem_toList.mp he, rfl, rfl, rfl⟩
  · rintro ⟨l, m, op, he, rfl, rfl, rfl⟩
    exact ⟨⟨l, m, op⟩, Std.ExtTreeSet.mem_toList.mpr he, rfl⟩

theorem edge_renumber (l m : LocationId) (op : OperationId) (h : ⟨l, m, op⟩ ∈ g.edges) :
    ⟨place l, place m, label op⟩ ∈ (g.renumber place label).edges :=
  (g.mem_edges_renumber_iff place label _ _ _).mpr ⟨l, m, op, h, rfl, rfl, rfl⟩

theorem route_renumber (l n : LocationId) (visited : List LocationId) (h : g.Route l visited n) :
    (g.renumber place label).Route (place l) (visited.map place) (place n) := by
  induction h with
  | stay l => exact .stay (place l)
  | go edge _ ih => exact .go (g.edge_renumber place label _ _ _ edge) ih

variable (hplace : Function.Injective place)

include hplace

/-- A route through the renumbered flow from a location that was there before. -/
theorem route_of_renumber (l y : LocationId) (visited : List LocationId)
    (h : (g.renumber place label).Route (place l) visited y) :
    ∃ n before, visited = before.map place ∧ y = place n ∧ g.Route l before n := by
  -- The number at which the route starts varies in the induction, and so does what it was before.
  generalize hx : place l = x at h
  induction h generalizing l with
  | stay x =>
      subst hx
      exact ⟨l, [l], rfl, rfl, .stay l⟩
  | @go x y z o visited edge _ ih =>
      rcases (g.mem_edges_renumber_iff place label x y o).mp edge with ⟨k, m, op, hop, hk, rfl, -⟩
      -- The location where the edge starts is the one where the route does, since numbers are not
      -- given twice.
      cases hplace (hk.trans hx.symm)
      rcases ih m rfl with ⟨n, before, rfl, hn, hroute⟩
      exact ⟨n, l :: before, by rw [← hx, List.map_cons], hn, .go hop hroute⟩

theorem route_renumber_iff (l n : LocationId) (visited : List LocationId) :
    (g.renumber place label).Route (place l) visited (place n)
      ↔ ∃ before, visited = before.map place ∧ g.Route l before n := by
  constructor
  · intro h
    rcases g.route_of_renumber place label hplace l (place n) visited h with
      ⟨m, before, hvisited, hn, hroute⟩
    cases hplace hn
    exact ⟨before, hvisited, hroute⟩
  · rintro ⟨before, rfl, hroute⟩
    exact g.route_renumber place label l n before hroute

theorem entered_renumber_iff (y : LocationId) :
    (g.renumber place label).Entered y ↔ ∃ l, g.Entered l ∧ place l = y := by
  constructor
  · rintro ⟨x, hx, visited, hroute⟩
    rcases (g.mem_entries_renumber_iff place label x).mp hx with ⟨entry, hentry, rfl⟩
    rcases g.route_of_renumber place label hplace entry y visited hroute with
      ⟨l, before, _, rfl, hbefore⟩
    exact ⟨l, ⟨entry, hentry, before, hbefore⟩, rfl⟩
  · rintro ⟨l, ⟨entry, hentry, visited, hroute⟩, rfl⟩
    exact ⟨place entry, (g.mem_entries_renumber_iff place label _).mpr ⟨entry, hentry, rfl⟩, _,
      g.route_renumber place label entry l visited hroute⟩

theorem dominates_renumber_iff (h l : LocationId) :
    (g.renumber place label).Dominates (place h) (place l) ↔ g.Dominates h l := by
  constructor
  · intro hdom entry hentry visited hroute
    -- Every route of the flow is one of the renumbered flow too, and its locations can be told
    -- apart there.
    have hmem := hdom (place entry) ((g.mem_entries_renumber_iff place label _).mpr
      ⟨entry, hentry, rfl⟩) _ (g.route_renumber place label entry l visited hroute)
    exact (List.mem_map_of_injective hplace).mp hmem
  · intro hdom x hx visited hroute
    rcases (g.mem_entries_renumber_iff place label x).mp hx with ⟨entry, hentry, rfl⟩
    rcases (g.route_renumber_iff place label hplace entry l visited).mp hroute with
      ⟨before, rfl, hbefore⟩
    exact List.mem_map_of_mem (hdom entry hentry before hbefore)

theorem leadsBack_renumber_iff (x y : LocationId) :
    (g.renumber place label).LeadsBack x y
      ↔ ∃ u h, g.LeadsBack u h ∧ place u = x ∧ place h = y := by
  constructor
  · rintro ⟨hentered, ⟨o, ho⟩, hdom⟩
    rcases (g.mem_edges_renumber_iff place label x y o).mp ho with ⟨u, h, op, hop, rfl, rfl, -⟩
    -- The location that is entered and the source of the edge have the same number, so they are
    -- one.
    rcases (g.entered_renumber_iff place label hplace (place u)).mp hentered with ⟨l, hl, heq⟩
    cases hplace heq
    exact ⟨u, h, ⟨hl, ⟨op, hop⟩, (g.dominates_renumber_iff place label hplace h u).mp hdom⟩,
      rfl, rfl⟩
  · rintro ⟨u, h, ⟨hentered, ⟨op, hop⟩, hdom⟩, rfl, rfl⟩
    exact ⟨(g.entered_renumber_iff place label hplace _).mpr ⟨u, hentered, rfl⟩,
      ⟨label op, g.edge_renumber place label u h op hop⟩,
      (g.dominates_renumber_iff place label hplace h u).mpr hdom⟩

theorem isHead_renumber_iff (y : LocationId) :
    (g.renumber place label).IsHead y ↔ ∃ h, g.IsHead h ∧ place h = y := by
  unfold IsHead
  simp only [g.leadsBack_renumber_iff place label hplace]
  constructor
  · rintro ⟨_, u, h, hback, _, rfl⟩
    exact ⟨h, ⟨u, hback⟩, rfl⟩
  · rintro ⟨h, ⟨u, hback⟩, rfl⟩
    exact ⟨place u, u, h, hback, rfl, rfl⟩

theorem mem_loopBody_renumber_iff (h y : LocationId) :
    y ∈ (g.renumber place label).loopBody (place h) ↔ ∃ l ∈ g.loopBody h, place l = y := by
  rw [mem_loopBody_iff]
  constructor
  -- The head corresponds to the head. Any other location comes with an edge back and a route to it,
  -- which are both taken over.
  · rintro (rfl | ⟨hin, x, hback, visited, hroute, havoid⟩)
    · exact ⟨h, g.head_mem_loopBody h, rfl⟩
    · rcases (g.entered_renumber_iff place label hplace y).mp hin with ⟨l, hl, rfl⟩
      rcases (g.leadsBack_renumber_iff place label hplace x (place h)).mp hback with
        ⟨u, k, hback', rfl, hk⟩
      cases hplace hk
      rcases (g.route_renumber_iff place label hplace l u visited).mp hroute with
        ⟨before, rfl, hbefore⟩
      exact ⟨l, (g.mem_loopBody_iff h l).mpr (Or.inr ⟨hl, u, hback', before, hbefore,
        fun hmem => havoid (List.mem_map_of_mem hmem)⟩), rfl⟩
  · rintro ⟨l, hl, rfl⟩
    rcases (g.mem_loopBody_iff h l).mp hl with rfl | ⟨hin, u, hback, visited, hroute, havoid⟩
    · exact Or.inl rfl
    · exact Or.inr ⟨(g.entered_renumber_iff place label hplace _).mpr ⟨l, hin, rfl⟩, place u,
        (g.leadsBack_renumber_iff place label hplace _ _).mpr ⟨u, h, hback, rfl, rfl⟩, _,
        g.route_renumber place label l u visited hroute,
        fun hmem => havoid ((List.mem_map_of_injective hplace).mp hmem)⟩

theorem members_loopBody_renumber (h : LocationId) :
    members ((g.renumber place label).loopBody (place h))
      = (members (g.loopBody h)).image place := by
  ext y
  rw [mem_members, g.mem_loopBody_renumber_iff place label hplace, Finset.mem_image]
  simp only [mem_members]

theorem innermost_renumber_iff (l y : LocationId) :
    (g.renumber place label).Innermost (place l) y ↔ ∃ h, g.Innermost l h ∧ place h = y := by
  -- To lie in a body and to lie within another body are both kept, and being innermost is said in
  -- these terms.
  have hmem : ∀ k, place l ∈ (g.renumber place label).loopBody (place k) ↔ l ∈ g.loopBody k := by
    intro k
    rw [g.mem_loopBody_renumber_iff place label hplace]
    constructor
    · rintro ⟨m, hm, heq⟩
      rwa [← hplace heq]
    · exact fun hl => ⟨l, hl, rfl⟩
  have hsub : ∀ h k, members ((g.renumber place label).loopBody (place h))
      ⊆ members ((g.renumber place label).loopBody (place k))
        ↔ members (g.loopBody h) ⊆ members (g.loopBody k) := by
    intro h k
    rw [g.members_loopBody_renumber place label hplace,
      g.members_loopBody_renumber place label hplace, Finset.image_subset_image_iff hplace]
  simp only [innermost_iff, g.isHead_renumber_iff place label hplace]
  constructor
  · rintro ⟨⟨h, hhead, rfl⟩, hl, hall⟩
    exact ⟨h, ⟨hhead, (hmem h).mp hl, fun k hk hlk =>
      (hsub h k).mp (hall (place k) ⟨k, hk, rfl⟩ ((hmem k).mpr hlk))⟩, rfl⟩
  · rintro ⟨h, ⟨hhead, hl, hall⟩, rfl⟩
    refine ⟨⟨h, hhead, rfl⟩, (hmem h).mpr hl, ?_⟩
    rintro _ ⟨k, hk, rfl⟩ hlk
    exact (hsub h k).mpr (hall k hk ((hmem k).mp hlk))

omit hplace

/-- Loops nest. Two of them are apart or one lies strictly within the other, and a head dominates
    all of its loop. Around a location in some loop there is therefore exactly one loop that lies
    within all loops around it, and the search finds that one, whatever the numbers. -/
theorem loops_nest :
    (∀ h k body other, h ≠ k → g.loopBody? h = some body → g.loopBody? k = some other →
      Disjoint (members body) (members other)
        ∨ members body ⊂ members other ∨ members other ⊂ members body)
      ∧ (∀ h body, g.loopBody? h = some body → ∀ l ∈ body, g.Entered l ∧ g.Dominates h l)
      ∧ (∀ l, (∃ h body, g.loopBody? h = some body ∧ l ∈ body) → ∃! h, g.Innermost l h)
      ∧ (∀ l h, g.innermostHead? l = some h ↔ g.Innermost l h)
      ∧ ∀ place label, Function.Injective place → ∀ l,
        (g.renumber place label).innermostHead? (place l) = (g.innermostHead? l).map place := by
  refine ⟨fun h k body other hne hbody hother => ?_, fun h body hbody l hl => ?_, ?_,
    g.innermostHead?_eq_some_iff, fun place label hplace l => Option.ext fun y => ?_⟩
  · rcases (g.loopBody?_eq_some_iff h body).mp hbody with ⟨hh, rfl⟩
    rcases (g.loopBody?_eq_some_iff k other).mp hother with ⟨hk, rfl⟩
    exact g.nested h k hh hk hne
  · rcases (g.loopBody?_eq_some_iff h body).mp hbody with ⟨hh, rfl⟩
    exact ⟨g.entered_of_mem_loopBody h l hh hl, g.dominates_of_mem_loopBody h l hl⟩
  · rintro l ⟨k, body, hbody, hl⟩
    rcases (g.loopBody?_eq_some_iff k body).mp hbody with ⟨hk, rfl⟩
    rcases g.exists_innermost l k hk hl with ⟨h, _, hinner⟩
    exact ⟨h, hinner, fun m hm => g.innermost_unique l m h hm hinner⟩
  -- Both searches find the innermost loop, which does not depend on numbers.
  · rw [innermostHead?_eq_some_iff, g.innermost_renumber_iff place label hplace,
      Option.map_eq_some_iff]
    simp only [innermostHead?_eq_some_iff]

/-- The innermost loop around a location of the inner loop is the inner one, and around the last
    location before the way back it is the outer one. -/
example :
    let g := ([⟨1, 2, 6⟩, ⟨2, 3, 7⟩, ⟨3, 4, 8⟩, ⟨4, 3, 9⟩, ⟨4, 5, 6⟩, ⟨5, 2, 7⟩] : List Edge).foldl
      (fun g e => g.addEdge e.source e.op e.target) (empty.addEntry 1)
    g.innermostHead? 4 = some 3 ∧ g.innermostHead? 5 = some 2 ∧ g.innermostHead? 1 = none := by
  decide

end Flow

end ActorCheck
