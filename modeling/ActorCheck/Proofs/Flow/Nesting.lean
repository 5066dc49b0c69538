import ActorCheck.Proofs.Flow.NaturalLoops

/-!
# Nested Loops

The dominators of a location form a chain. Of two that no order holds between, each could be
entered round the other, and whichever of them a route to the location passes last could then have
been reached without the other one. In a chain no location stands twice, because a route that
arrives at one of two locations for the first time has not met the other one yet.

The head of a loop dominates the body. Two heads whose loops have a location in common are
therefore both dominators of it, and one of them dominates the other. Its loop contains the whole
loop of the other head: everything in the inner loop leads to the inner head without the outer
one, the inner head leads to the common location, and from there it goes back to the outer head.

So the loops around a location form a chain as well, and the loop with the fewest locations is the
one within all others. That is why it is enough for the search for the innermost loop to count.

## Main definitions

* `Flow.members`: The locations in a set.
* `Flow.IsHead`: Some edge leads back to a location.
* `Flow.Innermost`: A loop around a location lies within all loops around it.

## Theorems

* `Flow.dominates_antisymm`, `Flow.dominates_total`: Dominators form a chain.
* `Flow.dominates_of_mem_loopBody`: A head dominates the body of its loop.
* `Flow.loopBody_ssubset`: The loop of a head within the loop of a head that dominates it.
* `Flow.nested`: Two loops are apart or one lies within the other.
* `Flow.innermostHead?_eq_some_iff`: The search finds the innermost loop.
-/

namespace ActorCheck

namespace Flow

/-- The locations in a set. -/
def members (s : LocationSet) : Finset LocationId := s.toList.toFinset

@[simp]
theorem mem_members (s : LocationSet) (l : LocationId) : l ∈ members s ↔ l ∈ s := by
  rw [members, List.mem_toFinset, Std.ExtTreeSet.mem_toList]

theorem card_members (s : LocationSet) : (members s).card = s.size := by
  -- Sets list their members once, so the finite set has as many.
  have hnodup : s.toList.Nodup := by
    refine Std.ExtTreeSet.distinct_toList.imp fun hne heq => hne ?_
    rw [heq]
    exact Std.ReflCmp.compare_self
  rw [members, List.toFinset_card_of_nodup hnodup, Std.ExtTreeSet.length_toList]

variable (g : Flow)

section Chain

theorem route_eq_cons (l n : LocationId) (visited : List LocationId) (h : g.Route l visited n) :
    ∃ after, visited = l :: after := by
  cases h with
  | stay => exact ⟨[], rfl⟩
  | @go _ _ _ _ visited _ _ => exact ⟨visited, rfl⟩

/-- The beginning of a route up to the first location of some kind. -/
theorem route_to_first (kind : LocationId → Prop) (l n : LocationId) (visited : List LocationId)
    (h : g.Route l visited n) (hn : kind n) :
    ∃ m before, kind m ∧ (∀ k ∈ before, ¬ kind k) ∧ g.Route l (before ++ [m]) m := by
  -- By induction on the route, which ends as soon as it has arrived at the kind.
  induction h with
  | stay l => exact ⟨l, [], hn, nofun, .stay l⟩
  | @go l m n op visited edge _ ih =>
      by_cases hl : kind l
      · exact ⟨l, [], hl, nofun, .stay l⟩
      · rcases ih hn with ⟨k, before, hk, hnone, hroute⟩
        exact ⟨k, l :: before, hk, List.forall_mem_cons.mpr ⟨hl, hnone⟩, .go edge hroute⟩

theorem dominates_refl (l : LocationId) : g.Dominates l l :=
  fun entry _ visited hroute => g.end_mem_of_route entry l visited hroute

/-- Whichever of two locations a route meets first, it has not met the other one before. -/
theorem dominates_antisymm (h k : LocationId) (hk : g.Entered k) (hhk : g.Dominates h k)
    (hkh : g.Dominates k h) : h = k := by
  rcases hk with ⟨entry, hentry, visited, hroute⟩
  rcases g.route_to_first (fun m => m = h ∨ m = k) entry k visited hroute (Or.inr rfl) with
    ⟨m, before, hm, hnone, hfirst⟩
  -- It has to have met the other one, so the other one is where it has arrived.
  rcases hm with rfl | rfl
  · rcases List.mem_append.mp (hkh entry hentry _ hfirst) with hmem | hmem
    · exact absurd (Or.inr rfl) (hnone k hmem)
    · exact (List.mem_singleton.mp hmem).symm
  · rcases List.mem_append.mp (hhk entry hentry _ hfirst) with hmem | hmem
    · exact absurd (Or.inl rfl) (hnone h hmem)
    · exact List.mem_singleton.mp hmem

/-- What dominates the end of a route and is not met after its beginning dominates the beginning. -/
theorem dominates_of_route (h k l : LocationId) (after : List LocationId)
    (hroute : g.Route k (k :: after) l) (havoid : h ∉ after) (hdom : g.Dominates h l) :
    g.Dominates h k := by
  intro entry hentry visited hfirst
  have hmem := hdom entry hentry _ (g.route_append entry k l visited after hfirst hroute)
  exact (List.mem_append.mp hmem).resolve_right havoid

/-- The dominators of a location form a chain. -/
theorem dominates_total (h k l : LocationId) (hl : g.Entered l) (hhl : g.Dominates h l)
    (hkl : g.Dominates k l) : g.Dominates h k ∨ g.Dominates k h := by
  rcases hl with ⟨entry, hentry, visited, hroute⟩
  rcases g.route_from_last entry h l visited hroute (hhl entry hentry visited hroute) with
    ⟨after, hlast, _, hrest⟩
  by_cases hk : k ∈ after
  · -- The route met `h` for the last time before it meets `k` for the last time.
    cases hrest with
    | stay => exact absurd hk List.not_mem_nil
    | @go _ m _ _ _ edge rest =>
        rcases g.route_from_last m k l after rest hk with ⟨later, _, hsub, hend⟩
        exact Or.inl (g.dominates_of_route h k l later hend (fun hmem => hlast (hsub h hmem)) hhl)
  · exact Or.inr (g.dominates_of_route k h l after hrest hk hkl)

end Chain

section Bodies

/-- Some edge leads back to the location. -/
def IsHead (h : LocationId) : Prop := ∃ u, g.LeadsBack u h

theorem loopBody?_eq_some_iff (h : LocationId) (body : LocationSet) :
    g.loopBody? h = some body ↔ g.IsHead h ∧ body = g.loopBody h := by
  unfold loopBody? IsHead
  rw [← g.isLoopHead_iff]
  by_cases hhead : g.isLoopHead h = true
  · rw [if_pos hhead, and_iff_right hhead, Option.some.injEq, eq_comm]
  · rw [if_neg hhead]
    exact iff_of_false nofun fun hboth => hhead hboth.1

theorem head_mem_loopBody (h : LocationId) : h ∈ g.loopBody h :=
  (g.mem_loopBody_iff h h).mpr (Or.inl rfl)

theorem entered_of_isHead (h : LocationId) (hhead : g.IsHead h) : g.Entered h := by
  rcases hhead with ⟨u, hback⟩
  rcases hback.edge with ⟨op, hop⟩
  exact (g.mem_reachable_iff h).mp
    (g.reachable_of_edge u h op ((g.mem_reachable_iff u).mpr hback.entered) hop)

theorem mem_loopHeads_iff (h : LocationId) : h ∈ g.loopHeads ↔ g.IsHead h := by
  unfold loopHeads
  rw [List.mem_filter, Std.ExtTreeSet.mem_toList, g.isLoopHead_iff]
  exact and_iff_right_iff_imp.mpr fun hhead =>
    (g.mem_reachable_iff h).mpr (g.entered_of_isHead h hhead)

theorem entered_of_route (l n : LocationId) (visited : List LocationId) (hl : g.Entered l)
    (h : g.Route l visited n) : ∀ m ∈ visited, g.Entered m := fun m hm =>
  (g.mem_reachable_iff m).mp
    (g.reachable_of_route l n visited ((g.mem_reachable_iff l).mpr hl) h m hm)

theorem entered_of_mem_loopBody (h l : LocationId) (hhead : g.IsHead h) (hl : l ∈ g.loopBody h) :
    g.Entered l := by
  rcases (g.mem_loopBody_iff h l).mp hl with rfl | ⟨hin, _⟩
  · exact g.entered_of_isHead l hhead
  · exact hin

/-- The head of a loop dominates its body: the source of an edge back is dominated, and the head is
    not met on the way there. -/
theorem dominates_of_mem_loopBody (h l : LocationId) (hl : l ∈ g.loopBody h) :
    g.Dominates h l := by
  rcases (g.mem_loopBody_iff h l).mp hl with rfl | ⟨_, u, hback, visited, hroute, havoid⟩
  · exact g.dominates_refl l
  · rcases g.route_eq_cons l u visited hroute with ⟨after, rfl⟩
    exact g.dominates_of_route h l u after hroute
      (fun hmem => havoid (List.mem_cons_of_mem l hmem)) hback.dominated

/-- What leads into the body of a loop round its head belongs to it. -/
theorem mem_loopBody_of_route (h m l : LocationId) (visited : List LocationId)
    (hm : g.Entered m) (hroute : g.Route m visited l) (havoid : h ∉ visited)
    (hl : l ∈ g.loopBody h) : m ∈ g.loopBody h := by
  have hend := g.end_mem_of_route m l visited hroute
  rcases (g.mem_loopBody_iff h l).mp hl with rfl | ⟨_, u, hback, after, hrest, hclear⟩
  · exact absurd hend havoid
  · rcases g.route_eq_cons l u after hrest with ⟨later, rfl⟩
    refine (g.mem_loopBody_iff h m).mpr (Or.inr ⟨hm, u, hback, visited ++ later,
      g.route_append m l u visited later hroute hrest, fun hmem => ?_⟩)
    rcases List.mem_append.mp hmem with hmem | hmem
    · exact havoid hmem
    · exact hclear (List.mem_cons_of_mem l hmem)

/-- A location in the body of a loop leads to the head within the body. -/
theorem exists_route_to_head (k m : LocationId) (hk : g.IsHead k) (hm : m ∈ g.loopBody k) :
    ∃ visited, g.Route m visited k ∧ ∀ x ∈ visited, x ∈ g.loopBody k := by
  rcases (g.mem_loopBody_iff k m).mp hm with rfl | ⟨hin, u, hback, visited, hroute, havoid⟩
  · exact ⟨[m], .stay m, List.forall_mem_singleton.mpr hm⟩
  · rcases hback.edge with ⟨op, hop⟩
    refine ⟨visited ++ [k], g.route_snoc m u k op visited hroute hop, fun x hx => ?_⟩
    rcases List.mem_append.mp hx with hx | hx
    · rcases g.route_from_last m x u visited hroute hx with ⟨after, _, hsub, hrest⟩
      refine (g.mem_loopBody_iff k x).mpr (Or.inr ⟨g.entered_of_route m u visited hin hroute x hx,
        u, hback, x :: after, hrest, fun hmem => havoid ?_⟩)
      rcases List.mem_cons.mp hmem with rfl | hmem
      · exact hx
      · exact hsub k hmem
    · rw [List.mem_singleton.mp hx]
      exact g.head_mem_loopBody k

variable (h k l : LocationId)

section Within

variable (hk : g.IsHead k) (hne : h ≠ k) (hdom : g.Dominates h k)

include hk hne hdom

theorem head_not_mem_loopBody : h ∉ g.loopBody k := fun hmem =>
  hne (g.dominates_antisymm h k (g.entered_of_isHead k hk) hdom
    (g.dominates_of_mem_loopBody k h hmem))

/-- If two loops have a location in common and one head dominates the other, then the other head
    belongs to the loop of the one. A route to the common location passes the dominating head, and
    the other head after it. -/
theorem mem_loopBody_of_dominates (hh : l ∈ g.loopBody h) (hl : l ∈ g.loopBody k) :
    k ∈ g.loopBody h := by
  have hkentered := g.entered_of_isHead k hk
  rcases g.entered_of_mem_loopBody k l hk hl with ⟨entry, hentry, visited, hroute⟩
  have hvisited := g.dominates_of_mem_loopBody h l hh entry hentry visited hroute
  rcases g.route_from_last entry h l visited hroute hvisited with ⟨after, hlast, _, hrest⟩
  -- The route could otherwise begin with one to `h` that avoids `k`, and would avoid it altogether.
  have hnot : ¬ g.Dominates k h := fun hkh => hne (g.dominates_antisymm h k hkentered hdom hkh)
  have hmeets : k ∈ after := by
    by_contra havoid
    exact hnot (g.dominates_of_route k h l after hrest havoid
      (g.dominates_of_mem_loopBody k l hl))
  cases hrest with
  | stay => exact absurd hmeets List.not_mem_nil
  | @go _ m _ _ _ _ rest =>
      rcases g.route_from_last m k l after rest hmeets with ⟨later, _, hsub, hend⟩
      refine g.mem_loopBody_of_route h k l (k :: later) hkentered hend (fun hmem => ?_) hh
      rcases List.mem_cons.mp hmem with heq | hmem
      · exact hne heq
      · exact hlast (hsub h hmem)

/-- The loop of a head lies within each loop that it meets and whose head dominates it. -/
theorem loopBody_ssubset (hh : l ∈ g.loopBody h) (hl : l ∈ g.loopBody k) :
    members (g.loopBody k) ⊂ members (g.loopBody h) := by
  have hout := g.head_not_mem_loopBody h k hk hne hdom
  have hin := g.mem_loopBody_of_dominates h k l hk hne hdom hh hl
  refine Finset.ssubset_iff_of_subset (fun m hm => ?_) |>.mpr
    ⟨h, (mem_members _ h).mpr (g.head_mem_loopBody h), fun hmem => hout ((mem_members _ h).mp hmem)⟩
  rw [mem_members] at hm ⊢
  -- Within the inner loop it is not far to the inner head, and that leads into the outer loop.
  rcases g.exists_route_to_head k m hk hm with ⟨visited, hroute, hwithin⟩
  exact g.mem_loopBody_of_route h m k visited (g.entered_of_mem_loopBody k m hk hm) hroute
    (fun hmem => hout (hwithin h hmem)) hin

end Within

/-- Two loops are apart or one of them lies within the other. -/
theorem nested (hh : g.IsHead h) (hk : g.IsHead k) (hne : h ≠ k) :
    Disjoint (members (g.loopBody h)) (members (g.loopBody k))
      ∨ members (g.loopBody h) ⊂ members (g.loopBody k)
      ∨ members (g.loopBody k) ⊂ members (g.loopBody h) := by
  by_cases hcommon : ∃ l, l ∈ g.loopBody h ∧ l ∈ g.loopBody k
  · refine Or.inr ?_
    rcases hcommon with ⟨l, hlh, hlk⟩
    -- Both heads dominate what the loops have in common, so one of them dominates the other.
    rcases g.dominates_total h k l (g.entered_of_mem_loopBody h l hh hlh)
      (g.dominates_of_mem_loopBody h l hlh) (g.dominates_of_mem_loopBody k l hlk) with hdom | hdom
    · exact Or.inr (g.loopBody_ssubset h k l hk hne hdom hlh hlk)
    · exact Or.inl (g.loopBody_ssubset k h l hh hne.symm hdom hlk hlh)
  · refine Or.inl (Finset.disjoint_left.mpr fun l hlh hlk => hcommon ⟨l, ?_, ?_⟩)
    · exact (mem_members _ l).mp hlh
    · exact (mem_members _ l).mp hlk

end Bodies

section Innermost

/-- The loop with head `h` is a loop around `l`, and it lies within all loops around `l`. -/
def Innermost (l h : LocationId) : Prop :=
  ∃ body, g.loopBody? h = some body ∧ l ∈ body
    ∧ ∀ k other, g.loopBody? k = some other → l ∈ other → members body ⊆ members other

theorem innermost_iff (l h : LocationId) :
    g.Innermost l h ↔ g.IsHead h ∧ l ∈ g.loopBody h
      ∧ ∀ k, g.IsHead k → l ∈ g.loopBody k → members (g.loopBody h) ⊆ members (g.loopBody k) := by
  constructor
  · rintro ⟨body, hbody, hl, hall⟩
    rcases (g.loopBody?_eq_some_iff h body).mp hbody with ⟨hhead, rfl⟩
    exact ⟨hhead, hl, fun k hk => hall k _ ((g.loopBody?_eq_some_iff k _).mpr ⟨hk, rfl⟩)⟩
  · rintro ⟨hhead, hl, hall⟩
    refine ⟨_, (g.loopBody?_eq_some_iff h _).mpr ⟨hhead, rfl⟩, hl, fun k other hother hlk => ?_⟩
    rcases (g.loopBody?_eq_some_iff k other).mp hother with ⟨hk, rfl⟩
    exact hall k hk hlk

/-- There is at most one innermost loop: of two different ones each would lie within the other. -/
theorem innermost_unique (l h k : LocationId) (hh : g.Innermost l h) (hk : g.Innermost l k) :
    h = k := by
  rcases (g.innermost_iff l h).mp hh with ⟨hhead, hlh, hwithin⟩
  rcases (g.innermost_iff l k).mp hk with ⟨hhead', hlk, hwithin'⟩
  by_contra hne
  rcases g.nested h k hhead hhead' hne with hapart | hless | hless
  · exact Finset.disjoint_left.mp hapart ((mem_members _ l).mpr hlh) ((mem_members _ l).mpr hlk)
  · exact hless.2 (hwithin' h hhead hlh)
  · exact hless.2 (hwithin k hhead' hlk)

/-- The search takes a loop with the fewest locations, if there are any loops to choose from. -/
theorem smallestLoop_spec (hs : List LocationId) (hne : hs ≠ []) :
    ∃ h, g.smallestLoop hs = some h ∧ h ∈ hs
      ∧ ∀ k ∈ hs, (g.loopBody h).size ≤ (g.loopBody k).size := by
  -- By induction on the heads. The last of them is taken if nothing smaller follows.
  induction hs with
  | nil => exact absurd rfl hne
  | cons h hs ih =>
      unfold smallestLoop
      cases hs with
      | nil =>
          exact ⟨h, rfl, List.mem_cons_self, List.forall_mem_singleton.mpr (Nat.le_refl _)⟩
      | cons k rest =>
          rcases ih (List.cons_ne_nil k rest) with ⟨least, heq, hmem, hle⟩
          rw [heq]
          dsimp only
          by_cases hless : (g.loopBody least).size < (g.loopBody h).size
          · rw [if_pos hless]
            exact ⟨least, rfl, List.mem_cons_of_mem h hmem,
              List.forall_mem_cons.mpr ⟨Nat.le_of_lt hless, hle⟩⟩
          · rw [if_neg hless]
            refine ⟨h, rfl, List.mem_cons_self, List.forall_mem_cons.mpr ⟨Nat.le_refl _, ?_⟩⟩
            exact fun m hm => Nat.le_trans (Nat.le_of_not_lt hless) (hle m hm)

theorem mem_around_iff (l h : LocationId) :
    h ∈ g.loopHeads.filter (fun h => (g.loopBody h).contains l)
      ↔ g.IsHead h ∧ l ∈ g.loopBody h := by
  rw [List.mem_filter, g.mem_loopHeads_iff, Std.ExtTreeSet.contains_iff_mem]

/-- Around a location in some loop the search finds a loop that lies within all others: one with
    fewer locations would have been found instead. -/
theorem exists_innermost (l k : LocationId) (hk : g.IsHead k) (hl : l ∈ g.loopBody k) :
    ∃ h, g.innermostHead? l = some h ∧ g.Innermost l h := by
  rcases g.smallestLoop_spec _ (List.ne_nil_of_mem ((g.mem_around_iff l k).mpr ⟨hk, hl⟩)) with
    ⟨h, heq, hmem, hleast⟩
  rcases (g.mem_around_iff l h).mp hmem with ⟨hhead, hin⟩
  refine ⟨h, heq, (g.innermost_iff l h).mpr ⟨hhead, hin, fun m hm hlm => ?_⟩⟩
  by_cases hsame : h = m
  · rw [hsame]
  · rcases g.nested h m hhead hm hsame with hapart | hless | hless
    · exact absurd ((mem_members _ l).mpr hlm)
        (Finset.disjoint_left.mp hapart ((mem_members _ l).mpr hin))
    · exact hless.1
    · -- A loop strictly within the one that was found has fewer locations.
      have hcard := Finset.card_lt_card hless
      rw [card_members, card_members] at hcard
      exact absurd (hleast m ((g.mem_around_iff l m).mpr ⟨hm, hlm⟩)) (Nat.not_le.mpr hcard)

/-- The search finds the innermost loop. -/
theorem innermostHead?_eq_some_iff (l h : LocationId) :
    g.innermostHead? l = some h ↔ g.Innermost l h := by
  constructor
  · intro heq
    have hne : g.loopHeads.filter (fun h => (g.loopBody h).contains l) ≠ [] := by
      intro hnone
      unfold innermostHead? at heq
      rw [hnone] at heq
      cases heq
    rcases List.exists_mem_of_ne_nil _ hne with ⟨k, hk⟩
    rcases (g.mem_around_iff l k).mp hk with ⟨hhead, hl⟩
    rcases g.exists_innermost l k hhead hl with ⟨m, heq', hinner⟩
    rw [heq] at heq'
    cases heq'
    exact hinner
  · intro hinner
    rcases (g.innermost_iff l h).mp hinner with ⟨hhead, hl, _⟩
    rcases g.exists_innermost l h hhead hl with ⟨m, heq, hinner'⟩
    rw [g.innermost_unique l h m hinner hinner']
    exact heq

end Innermost

end Flow

end ActorCheck
