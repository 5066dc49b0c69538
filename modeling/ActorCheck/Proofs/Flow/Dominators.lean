import ActorCheck.Proofs.Flow.Reversal
import ActorCheck.Proofs.Flow.Routes
import Mathlib.Data.Finset.Sigma
import Mathlib.Order.OrderIsoNat

/-!
# Dominators

A location dominates another if every route from an entry to the other leads through it. There are
two ways to find the dominators. The search for loops takes a location out of the flow and looks at
what can still be reached. The other way is to guess: at first everything may dominate a location
that is not an entry, and an entry only dominates itself. A guess for a location is revised by what
the guesses for its predecessors have in common, together with the location itself, and locations
are revised one after the other, sweep after sweep, until a sweep changes nothing. Both ways come
to the same.

Within a sweep a revision already sees the earlier ones, so a sweep does not apply one function to
the whole guess. What carries the argument is that the guess of no location falls behind its
revision: a revision then only takes locations out, which only lowers later revisions. A sweep that
changes something makes the guesses smaller altogether, and that cannot go on for ever.

When nothing changes any more, the guess is exact. No dominator was ever taken out, since it
dominates the predecessors as well. A location that was left in is met by every route, by induction
along the route: it is left in for all predecessors, and for an entry there is only the entry.

## Main definitions

* `Flow.Dominates`: Every route from an entry leads through a location.
* `Flow.sweep`: Revise the guesses for all locations that are not entries.
* `Flow.sweeps`: The guesses after some sweeps.
* `Flow.Cautious`: No guess falls behind its revision, and no dominator is missing.

## Theorems

* `Flow.dominates_iff`: Taking a location out decides whether it dominates another.
* `Flow.cautious_sweeps`: Guesses stay cautious.
* `Flow.exists_settled`: Some sweep changes nothing.
* `Flow.mem_iff_of_settled`: Guesses that no sweep changes are exact.
-/

namespace ActorCheck

namespace Flow

variable (g : Flow)

/-- Every route from an entry to `l` leads through `h`. -/
def Dominates (h l : LocationId) : Prop :=
  ∀ entry ∈ g.entries, ∀ visited, g.Route entry visited l → h ∈ visited

/-- Taking a location out decides whether it dominates another. -/
theorem dominates_iff (h l : LocationId) :
    g.dominates h l = true ↔ l ∈ g.reachable ∧ g.Dominates h l := by
  unfold dominates
  rw [Bool.and_eq_true, Bool.not_eq_true', Bool.eq_false_iff, Std.ExtTreeSet.contains_iff_mem,
    ne_eq, Std.ExtTreeSet.contains_iff_mem, g.mem_reachableAvoiding_iff]
  refine and_congr_right fun _ => ⟨fun hnone entry hentry visited hroute => ?_, ?_⟩
  -- A route that avoids the location is what the closure without it finds.
  · by_contra havoid
    exact hnone ⟨entry, hentry, visited, hroute, havoid⟩
  · rintro hall ⟨entry, hentry, visited, hroute, havoid⟩
    exact havoid (hall entry hentry visited hroute)

section Guesses

/-- For each location those that may dominate it. -/
abbrev Guess : Type := LocationId → LocationSet

/-- The reachable locations from which some edge leads to a location. -/
def predecessors (l : LocationId) : List LocationId :=
  ((g.edgesTo l).map Prod.snd).filter g.reachable.contains

/-- What all of some sets have in common. Without any sets that is nothing. -/
def common : List LocationSet → LocationSet
  | [] => ∅
  | s :: rest => rest.foldl (fun all t => all ∩ t) s

/-- At first an entry dominates itself and everything may dominate other locations. -/
def firstGuess : Guess := fun l => if g.entries.contains l then (∅ : LocationSet).insert l
  else g.reachable

/-- What dominates all predecessors of a location, and the location itself. -/
def revised (guess : Guess) (l : LocationId) : LocationSet :=
  (common ((g.predecessors l).map guess)).insert l

/-- The guesses after one of them was revised. -/
def revise (guess : Guess) (l : LocationId) : Guess :=
  Function.update guess l (g.revised guess l)

/-- The reachable locations that are not entries. -/
def inner : List LocationId := g.reachable.toList.filter fun l => !g.entries.contains l

/-- The guesses after all of them were revised, one after the other. -/
def sweep (guess : Guess) : Guess := g.inner.foldl g.revise guess

/-- The guesses after some sweeps. -/
def sweeps : Nat → Guess
  | 0 => g.firstGuess
  | n + 1 => g.sweep (sweeps n)

end Guesses

section Revision

variable {g} {guess other : Guess} {h l : LocationId}

theorem mem_inner_iff : l ∈ g.inner ↔ l ∈ g.reachable ∧ l ∉ g.entries := by
  unfold inner
  rw [List.mem_filter, Std.ExtTreeSet.mem_toList, Bool.not_eq_true', Bool.eq_false_iff, ne_eq,
    Std.ExtTreeSet.contains_iff_mem]

theorem mem_predecessors_iff (p : LocationId) :
    p ∈ g.predecessors l ↔ p ∈ g.reachable ∧ ∃ op, (⟨p, l, op⟩ : Edge) ∈ g.edges := by
  unfold predecessors
  rw [List.mem_filter, Std.ExtTreeSet.contains_iff_mem, and_comm, List.mem_map]
  refine and_congr_right fun _ => ⟨?_, ?_⟩
  · rintro ⟨⟨op, q⟩, hedge, rfl⟩
    exact ⟨op, (g.mem_edgesTo_iff l q op).mp hedge⟩
  · rintro ⟨op, hedge⟩
    exact ⟨(op, p), (g.mem_edgesTo_iff l p op).mpr hedge, rfl⟩

/-- A location that is reachable without being an entry has a predecessor. -/
theorem exists_predecessor (hl : l ∈ g.inner) : ∃ p, p ∈ g.predecessors l := by
  rcases mem_inner_iff.mp hl with ⟨hreach, hentry⟩
  rcases (g.mem_reachable_iff l).mp hreach with ⟨entry, hin, visited, hroute⟩
  -- A route stays where it begins or has a last edge, and that comes from a predecessor.
  have hsplit : entry = l ∨ ∃ m before, g.Route entry before m ∧ ∃ op, ⟨m, l, op⟩ ∈ g.edges := by
    clear hin hreach hentry hl
    induction hroute with
    | stay l => exact Or.inl rfl
    | @go k m l op visited edge _ ih =>
        rcases ih with rfl | ⟨n, before, hbefore, hlast⟩
        · exact Or.inr ⟨k, [k], .stay k, op, edge⟩
        · exact Or.inr ⟨n, k :: before, .go edge hbefore, hlast⟩
  rcases hsplit with rfl | ⟨m, before, hbefore, hlast⟩
  · exact absurd hin hentry
  · exact ⟨m, (mem_predecessors_iff m).mpr
      ⟨(g.mem_reachable_iff m).mpr ⟨entry, hin, before, hbefore⟩, hlast⟩⟩

theorem mem_foldl_inter (rest : List LocationSet) (s : LocationSet) :
    h ∈ rest.foldl (fun all t => all ∩ t) s ↔ h ∈ s ∧ ∀ t ∈ rest, h ∈ t := by
  induction rest generalizing s with
  | nil => simp
  | cons t rest ih =>
      rw [List.foldl_cons, ih, Std.ExtTreeSet.mem_inter_iff, List.forall_mem_cons, and_assoc]

theorem mem_common_iff (sets : List LocationSet) :
    h ∈ common sets ↔ sets ≠ [] ∧ ∀ s ∈ sets, h ∈ s := by
  cases sets with
  | nil => simp [common]
  | cons s rest =>
      unfold common
      rw [mem_foldl_inter, List.forall_mem_cons]
      exact (and_iff_right (List.cons_ne_nil s rest)).symm

theorem mem_revised_iff (hl : l ∈ g.inner) :
    h ∈ g.revised guess l ↔ h = l ∨ ∀ p ∈ g.predecessors l, h ∈ guess p := by
  -- Without predecessors nothing would be in common, but an inner location has some.
  have hsome : (g.predecessors l).map guess ≠ [] := by
    rcases exists_predecessor hl with ⟨p, hp⟩
    exact List.ne_nil_of_mem (List.mem_map_of_mem hp)
  unfold revised
  rw [mem_insert_iff, mem_common_iff, and_iff_right hsome, List.forall_mem_map]

/-- Smaller guesses have smaller revisions. -/
theorem revised_mono (hle : ∀ m, ∀ k ∈ guess m, k ∈ other m) (hl : l ∈ g.inner)
    (hh : h ∈ g.revised guess l) : h ∈ g.revised other l := by
  rw [mem_revised_iff hl] at hh ⊢
  exact hh.imp_right fun hall p hp => hle p h (hall p hp)

end Revision

section Updates

variable {g}

theorem revise_self (guess : Guess) (l : LocationId) :
    g.revise guess l l = g.revised guess l :=
  Function.update_self l _ guess

theorem revise_of_ne (guess : Guess) (l m : LocationId) (h : m ≠ l) :
    g.revise guess l m = guess m :=
  Function.update_of_ne h _ guess

theorem foldl_revise_of_not_mem (ls : List LocationId) (m : LocationId) (hm : m ∉ ls)
    (guess : Guess) : ls.foldl g.revise guess m = guess m := by
  induction ls generalizing guess with
  | nil => rfl
  | cons l ls ih =>
      rw [List.mem_cons, not_or] at hm
      rw [List.foldl_cons, ih hm.2, revise_of_ne guess l m hm.1]

end Updates

/-- No guess falls behind its revision, no dominator is missing, and an entry only has itself. -/
structure Cautious (guess : Guess) : Prop where
  above : ∀ l ∈ g.inner, ∀ h ∈ g.revised guess l, h ∈ guess l
  complete : ∀ l ∈ g.reachable, ∀ h, g.Dominates h l → h ∈ guess l
  entry : ∀ l ∈ g.entries, ∀ h ∈ guess l, h = l

section Sweeps

variable {g} {guess : Guess}

/-- A dominator of a location is the location or dominates its predecessors. -/
theorem dominates_predecessor (h l p : LocationId) (hdom : g.Dominates h l) (hne : h ≠ l)
    (hp : p ∈ g.predecessors l) : g.Dominates h p := by
  intro entry hentry visited hroute
  rcases (mem_predecessors_iff p).mp hp with ⟨_, op, edge⟩
  have hmem := hdom entry hentry _ (g.route_snoc entry p l op visited hroute edge)
  rcases List.mem_append.mp hmem with hmem | hmem
  · exact hmem
  · exact absurd (List.mem_singleton.mp hmem) hne

/-- An entry is dominated by itself only. -/
theorem eq_of_dominates_entry (h l : LocationId) (hl : l ∈ g.entries) (hdom : g.Dominates h l) :
    h = l :=
  List.mem_singleton.mp (hdom l hl [l] (.stay l))

theorem cautious_firstGuess : g.Cautious g.firstGuess := by
  have hentry : ∀ l ∈ g.entries, g.firstGuess l = (∅ : LocationSet).insert l := fun l hl =>
    if_pos (Std.ExtTreeSet.contains_iff_mem.mpr hl)
  have hother : ∀ l, l ∉ g.entries → g.firstGuess l = g.reachable := fun l hl =>
    if_neg fun hmem => hl (Std.ExtTreeSet.contains_iff_mem.mp hmem)
  -- The three parts are gone through for entries, of which only themselves are guessed, and for all
  -- others, of which everything is.
  refine ⟨fun l hl h hh => ?_, fun l hl h hdom => ?_, fun l hl h hh => ?_⟩
  · rcases mem_inner_iff.mp hl with ⟨hreach, hnot⟩
    rw [hother l hnot]
    rcases (mem_revised_iff hl).mp hh with rfl | hall
    · exact hreach
    · -- Whatever is guessed for a predecessor is reachable.
      rcases exists_predecessor hl with ⟨p, hp⟩
      have hmem := hall p hp
      by_cases hin : p ∈ g.entries
      · rw [hentry p hin, mem_singleton_iff] at hmem
        rw [hmem]
        exact ((mem_predecessors_iff p).mp hp).1
      · rwa [hother p hin] at hmem
  · by_cases hin : l ∈ g.entries
    · rw [hentry l hin, mem_singleton_iff]
      exact eq_of_dominates_entry h l hin hdom
    · rw [hother l hin]
      rcases (g.mem_reachable_iff l).mp hl with ⟨entry, hentry', visited, hroute⟩
      have hstart := g.reachable_of_entry entry hentry'
      exact g.reachable_of_route entry l visited hstart hroute h (hdom entry hentry' visited hroute)
  · rwa [hentry l hl, mem_singleton_iff] at hh

section Revise

variable (hc : g.Cautious guess) (l : LocationId) (hl : l ∈ g.inner)

include hc hl

/-- A revision only takes locations out. -/
theorem le_of_revise (m h : LocationId) (hh : h ∈ g.revise guess l m) : h ∈ guess m := by
  by_cases hm : m = l
  · subst hm
    rw [revise_self] at hh
    exact hc.above m hl h hh
  · rwa [revise_of_ne guess l m hm] at hh

theorem cautious_revise : g.Cautious (g.revise guess l) := by
  refine ⟨fun m hm h hh => ?_, fun m hm h hdom => ?_, fun m hm h hh => ?_⟩
  -- The revision before was no smaller, since a revision only takes locations out.
  · have hbefore : h ∈ g.revised guess m := revised_mono (le_of_revise hc l hl) hm hh
    by_cases heq : m = l
    · subst heq
      rw [revise_self]
      exact hbefore
    · rw [revise_of_ne guess l m heq]
      exact hc.above m hm h hbefore
  -- A dominator was guessed for all predecessors, so it is left in.
  · by_cases heq : m = l
    · subst heq
      rw [revise_self, mem_revised_iff hl]
      by_cases hsame : h = m
      · exact Or.inl hsame
      · refine Or.inr fun p hp => hc.complete p ((mem_predecessors_iff p).mp hp).1 h ?_
        exact dominates_predecessor h m p hdom hsame hp
    · rw [revise_of_ne guess l m heq]
      exact hc.complete m hm h hdom
  -- Entries are never revised.
  · have hne : m ≠ l := fun heq => (mem_inner_iff.mp hl).2 (heq ▸ hm)
    rw [revise_of_ne guess l m hne] at hh
    exact hc.entry m hm h hh

end Revise

theorem le_of_foldl_revise (hc : g.Cautious guess) (ls : List LocationId)
    (hls : ∀ l ∈ ls, l ∈ g.inner) :
    g.Cautious (ls.foldl g.revise guess)
      ∧ ∀ m, ∀ h ∈ ls.foldl g.revise guess m, h ∈ guess m := by
  induction ls generalizing guess with
  | nil => exact ⟨hc, fun _ _ hh => hh⟩
  | cons l ls ih =>
      rw [List.forall_mem_cons] at hls
      rcases ih (cautious_revise hc l hls.1) hls.2 with ⟨hcautious, hle⟩
      exact ⟨hcautious, fun m h hh => le_of_revise hc l hls.1 m h (hle m h hh)⟩

theorem cautious_sweeps (n : Nat) : g.Cautious (g.sweeps n) := by
  induction n with
  | zero => exact cautious_firstGuess
  | succ n ih => exact (le_of_foldl_revise ih g.inner fun _ hl => hl).1

/-- Revisions that change nothing altogether change nothing one by one, since none of them can be
    undone by a later one. -/
theorem revised_of_foldl_revise (hc : g.Cautious guess) (ls : List LocationId)
    (hls : ∀ l ∈ ls, l ∈ g.inner) (hsame : ls.foldl g.revise guess = guess) :
    ∀ l ∈ ls, g.revised guess l = guess l := by
  induction ls with
  | nil => exact nofun
  | cons l ls ih =>
      rw [List.forall_mem_cons] at hls
      rw [List.foldl_cons] at hsame
      have hlater := (le_of_foldl_revise (cautious_revise hc l hls.1) ls hls.2).2
      -- The later revisions only take out, so what is there in the end was there after the first
      -- one.
      have hfirst : g.revise guess l = guess := by
        funext m
        refine Std.ExtTreeSet.ext_mem fun h => ⟨le_of_revise hc l hls.1 m h, fun hh => ?_⟩
        rw [← hsame] at hh
        exact hlater m h hh
      rw [hfirst] at hsame
      refine List.forall_mem_cons.mpr ⟨?_, ih hls.2 hsame⟩
      exact (revise_self guess l).symm.trans (congrFun hfirst l)

/-- Guesses that no sweep changes are exact. -/
theorem mem_iff_of_settled (hc : g.Cautious guess) (hsettled : g.sweep guess = guess)
    (l : LocationId) (hl : l ∈ g.reachable) (h : LocationId) :
    h ∈ guess l ↔ g.Dominates h l := by
  have hfixed := revised_of_foldl_revise hc g.inner (fun _ hl => hl) hsettled
  -- What is left in at the end of a route was met on it, or is left in at its beginning.
  have hmet : ∀ m visited, g.Route m visited l → m ∈ g.reachable → h ∈ guess l →
      h ∈ visited ∨ h ∈ guess m := by
    intro m visited hroute hm hh
    induction hroute with
    | stay l => exact Or.inr hh
    | @go m k l op visited edge rest ih =>
        have hk := g.reachable_of_edge m k op hm edge
        have hmem : k ∈ visited := g.start_mem_of_route k l visited rest
        rcases ih hl hk hh with hmet | hleft
        · exact Or.inl (List.mem_cons_of_mem m hmet)
        · by_cases hentry : k ∈ g.entries
          · rw [hc.entry k hentry h hleft]
            exact Or.inl (List.mem_cons_of_mem m hmem)
          · have hinner := mem_inner_iff.mpr ⟨hk, hentry⟩
            rw [← hfixed k hinner, mem_revised_iff hinner] at hleft
            rcases hleft with rfl | hall
            · exact Or.inl (List.mem_cons_of_mem m hmem)
            · exact Or.inr (hall m ((mem_predecessors_iff m).mpr ⟨hm, op, edge⟩))
  refine ⟨fun hh entry hentry visited hroute => ?_, hc.complete l hl h⟩
  have hstart := g.reachable_of_entry entry hentry
  rcases hmet entry visited hroute hstart hh with hmet | hleft
  · exact hmet
  · rw [hc.entry entry hentry h hleft]
    exact g.start_mem_of_route entry l visited hroute

/-- Some sweep changes nothing. Every other one makes the guesses smaller altogether, which cannot
    go on for ever. -/
theorem exists_settled : ∃ n, g.sweep (g.sweeps n) = g.sweeps n := by
  by_contra hnone
  rw [not_exists] at hnone
  let guessed (n : Nat) : Finset (Sigma fun _ : LocationId => LocationId) :=
    g.inner.toFinset.sigma fun l => (g.sweeps n l).toList.toFinset
  have hmem : ∀ n l h, ⟨l, h⟩ ∈ guessed n ↔ l ∈ g.inner ∧ h ∈ g.sweeps n l := by
    intro n l h
    rw [Finset.mem_sigma, List.mem_toFinset, List.mem_toFinset, Std.ExtTreeSet.mem_toList]
  have hless : ∀ n, guessed (n + 1) < guessed n := by
    intro n
    have hle := (le_of_foldl_revise (g.cautious_sweeps n) g.inner fun _ hl => hl).2
    refine Finset.ssubset_iff_subset_ne.mpr ⟨?_, ?_⟩
    · rintro ⟨l, h⟩ hlh
      rw [hmem] at hlh ⊢
      exact ⟨hlh.1, hle l h hlh.2⟩
    · intro hsame
      refine hnone n (funext fun l => Std.ExtTreeSet.ext_mem fun h => ⟨hle l h, fun hh => ?_⟩)
      by_cases hl : l ∈ g.inner
      · exact ((hmem (n + 1) l h).mp (hsame ▸ (hmem n l h).mpr ⟨hl, hh⟩)).2
      · unfold sweep
        rwa [foldl_revise_of_not_mem g.inner l hl]
  exact not_strictAnti_of_wellFoundedLT guessed (strictAnti_nat_of_succ_lt hless)

end Sweeps

end Flow

end ActorCheck
