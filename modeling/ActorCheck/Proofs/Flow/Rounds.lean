import ActorCheck.Proofs.Flow.NaturalLoops

/-!
# Ways Round

A way round begins and ends in the same location. A loop that has a head is one, since the head
leads to the edge back, but not every way round belongs to such a loop. If there are two ways into
it from outside, each of its locations can be passed by, none of them dominates the others, and no
edge of it leads back to a dominator. So a flow without loops may still go round; it may do so
exactly where every location of the round can be passed by on the way to some other one.

One direction follows a round backwards: a location that cannot be passed by dominates all of the
round, the one before it included, so the edge between the two leads back. The other direction
starts from an edge that leads back and takes a route from the head to its source that was in the
head for the last time. No location on it can be reached without the head, or else the source could.

## Main definitions

* `Flow.Round`: A way round from a location to itself.
* `Flow.PassedBy`: Some entry leads to a round without a location.

## Theorems

* `Flow.exists_before_on_round`: Each location on a round comes after another one.
* `Flow.round_of_leadsBack`: An edge that leads back closes a round that its target dominates.
* `Flow.hasLoops_eq_false_iff`: A flow has no loops if each location of a round can be passed by.
* `Flow.noRounds_iff`: Without rounds no walk comes back to where it began.
* `Flow.noRounds_of_rank`: Edges that lead upwards make no rounds.
-/

namespace ActorCheck

namespace Flow

variable (g : Flow)

/-- A way round from a location to itself, with the locations on it. -/
def Round (l : LocationId) (around : List LocationId) : Prop :=
  ∃ m op, ⟨l, m, op⟩ ∈ g.edges ∧ g.Route m around l

/-- Some entry leads to one of the locations without coming through `h`. -/
def PassedBy (h : LocationId) (around : List LocationId) : Prop :=
  ∃ entry ∈ g.entries, ∃ m ∈ around, ∃ visited, g.Route entry visited m ∧ h ∉ visited

/-- No way round can be reached from an entry. -/
def NoRounds : Prop := ∀ l, g.Entered l → ∀ around, ¬ g.Round l around

/-- A location on a route is the first one or comes after another one. -/
theorem exists_before_on_route (l n h : LocationId) (visited : List LocationId)
    (hroute : g.Route l visited n) (hmem : h ∈ visited) :
    h = l ∨ ∃ u ∈ visited, ∃ op, ⟨u, h, op⟩ ∈ g.edges := by
  induction hroute with
  | stay l => exact Or.inl (List.mem_singleton.mp hmem)
  | @go l m n op visited edge rest ih =>
      rcases List.mem_cons.mp hmem with heq | hlater
      · exact Or.inl heq
      · rcases ih hlater with rfl | ⟨u, hu, hedge⟩
        · exact Or.inr ⟨l, List.mem_cons_self, op, edge⟩
        · exact Or.inr ⟨u, List.mem_cons_of_mem l hu, hedge⟩

/-- Each location on a round comes after another one. -/
theorem exists_before_on_round (l h : LocationId) (around : List LocationId)
    (hround : g.Round l around) (hmem : h ∈ around) :
    ∃ u ∈ around, ∃ op, ⟨u, h, op⟩ ∈ g.edges := by
  rcases hround with ⟨m, op, edge, hroute⟩
  rcases g.exists_before_on_route m l h around hroute hmem with rfl | hbefore
  · exact ⟨l, g.end_mem_of_route h l around hroute, op, edge⟩
  · exact hbefore

theorem entered_of_round (l : LocationId) (around : List LocationId) (hl : g.Entered l)
    (hround : g.Round l around) : ∀ m ∈ around, g.Entered m := by
  rcases hround with ⟨m, op, edge, hroute⟩
  intro n hn
  have hreach := g.reachable_of_edge l m op ((g.mem_reachable_iff l).mpr hl) edge
  exact (g.mem_reachable_iff n).mp (g.reachable_of_route m l around hreach hroute n hn)

/-- An edge that leads back closes a round, all of which its target dominates. -/
theorem round_of_leadsBack (u h : LocationId) (hback : g.LeadsBack u h) :
    ∃ around, g.Round u around ∧ h ∈ around ∧ ¬ g.PassedBy h around := by
  rcases hback.entered with ⟨start, hstart, before, hbefore⟩
  rcases hback.edge with ⟨op, edge⟩
  -- A route to the source of the edge passes the head. What follows after the last time is the
  -- round.
  have hmet := hback.dominated start hstart before hbefore
  rcases g.route_from_last start h u before hbefore hmet with ⟨after, hlast, _, hroute⟩
  refine ⟨h :: after, ⟨h, op, edge, hroute⟩, List.mem_cons_self, ?_⟩
  rintro ⟨entry, hentry, m, hm, visited, hvisited, havoid⟩
  rcases List.mem_cons.mp hm with rfl | hlater
  · exact havoid (g.end_mem_of_route entry m visited hvisited)
  · cases hroute with
    | stay => exact absurd hlater List.not_mem_nil
    | @go _ k _ _ _ _ htail =>
        -- A route past the head could go on to the source of the edge.
        rcases g.route_from_last k m u after htail hlater with ⟨rest, _, hsub, hrest⟩
        have hwhole := g.route_append entry m u visited rest hvisited hrest
        rcases List.mem_append.mp (hback.dominated entry hentry _ hwhole) with hin | hin
        · exact havoid hin
        · exact hlast (hsub h hin)

/-- A flow has no loops exactly if each location of every round that can be reached can be passed
    by on the way to the round. -/
theorem hasLoops_eq_false_iff :
    g.hasLoops = false
      ↔ ∀ l, g.Entered l → ∀ around, g.Round l around → ∀ h ∈ around, g.PassedBy h around := by
  rw [← Bool.not_eq_true, g.hasLoops_iff]
  constructor
  · intro hnone l hl around hround h hmem
    by_contra hpast
    -- The head would dominate the location before it.
    rcases g.exists_before_on_round l h around hround hmem with ⟨u, hu, hedge⟩
    refine hnone ⟨h, u, g.entered_of_round l around hl hround u hu, hedge, ?_⟩
    intro entry hentry visited hroute
    by_contra havoid
    exact hpast ⟨entry, hentry, u, hu, visited, hroute, havoid⟩
  · rintro hall ⟨h, u, hback⟩
    rcases g.round_of_leadsBack u h hback with ⟨around, hround, hmem, hpast⟩
    exact hpast (hall u hback.entered around hround h hmem)

/-- No round can be reached exactly if no walk from a reachable location comes back to it. -/
theorem noRounds_iff :
    g.NoRounds ↔ ∀ l, g.Entered l → ∀ ops, g.Walk l ops l → ops = [] := by
  constructor
  -- A walk with a first step is a round: that step, and the route of the others.
  · intro hnone l hl ops hwalk
    cases hwalk with
    | nil => rfl
    | @cons _ m _ op ops edge rest =>
        rcases g.exists_route_of_walk m l ops rest with ⟨around, hroute, _⟩
        exact absurd ⟨m, op, edge, hroute⟩ (hnone l hl around)
  · rintro hall l hl around ⟨m, op, edge, hroute⟩
    rcases g.exists_walk_of_route m l around hroute with ⟨ops, hwalk⟩
    exact List.cons_ne_nil op ops (hall l hl _ (.cons edge hwalk))

/-- No round can be reached if every edge that can be reached leads upwards. -/
theorem noRounds_of_rank (rank : LocationId → Nat)
    (h : ∀ e ∈ g.edges, e.source ∈ g.reachable → rank e.source < rank e.target) : g.NoRounds := by
  have hup : ∀ l visited n, g.Route l visited n → l ∈ g.reachable → rank l ≤ rank n := by
    intro l visited n hroute hl
    induction hroute with
    | stay l => exact Nat.le_refl _
    | @go l m n op visited edge _ ih =>
        have hm := g.reachable_of_edge l m op hl edge
        exact Nat.le_trans (Nat.le_of_lt (h _ edge hl)) (ih hm)
  rintro l hl around ⟨m, op, edge, hroute⟩
  have hreach := (g.mem_reachable_iff l).mpr hl
  have hfirst : rank l < rank m := h _ edge hreach
  have hback := hup m around l hroute (g.reachable_of_edge l m op hreach edge)
  omega

/-- Where no round can be reached there are no loops. -/
theorem hasLoops_of_noRounds (h : g.NoRounds) : g.hasLoops = false :=
  g.hasLoops_eq_false_iff.mpr fun l hl around hround => absurd hround (h l hl around)

end Flow

end ActorCheck
