import ActorCheck.Proofs.Data.Endings
import ActorCheck.Proofs.Program.Registry

/-!
# Runs Along Sequences

Operations can be performed in a row in two ways. A data analysis takes all states that it has at a
time through the next operation, so it searches in breadth. Or the operations are made into a
relation, a straight line, and the relation is run, which searches in depth and follows the last
alternative first. Both come to the same states, in opposite orders, and one of them fails exactly
if the other one does. Which error is reported may differ.

A search in breadth from several states is a search from each of them, one after the other, and
that is where the two meet: behind the first operation of a line, a run goes through its successors
one by one.

## Main definitions

* `Runner.answers`: What a run along a line finishes with.
* `App.throwing`: A data analysis with several successors.

## Theorems

* `Relation.exists_gives_sequence`: Any operations make a sequence.
* `Flow.ahead_of_walk`, `Flow.hasLoops_of_line`: There is only one way along a line.
* `DataAnalysis.runFrom_ok_iff`: A search in breadth goes through the states one by one.
* `Runner.runFrom_of_line`: A run along a line.
* `App.sequence_as_run`: Running along a sequence and performing it.
-/

namespace ActorCheck

namespace Flow

variable (g : Flow) (last : LocationId)

/-- A walk along a line carries the first of the operations that are ahead, and the others still
    are afterwards. -/
theorem ahead_of_walk (l m : LocationId) (ops walked : List OperationId)
    (hline : g.Line last l ops) (h : g.Walk l walked m) :
    ∃ rest, ops = walked ++ rest ∧ g.Line last m rest := by
  -- By induction on the walk. Whatever it begins with is the only edge there, by the line.
  induction h generalizing ops with
  | nil l => exact ⟨ops, rfl, hline⟩
  | @cons l m n op walked edge _ ih =>
      have hmem := (g.mem_edgesFrom l m op).mpr edge
      cases ops with
      | nil =>
          rw [hline.2] at hmem
          cases hmem
      | cons first ops =>
          rcases hline with ⟨next, hedges, hrest⟩
          rw [hedges, List.mem_singleton] at hmem
          cases hmem
          rcases ih ops hrest with ⟨rest, rfl, hahead⟩
          exact ⟨rest, rfl, hahead⟩

theorem line_unique (l : LocationId) (ops other : List OperationId) (h : g.Line last l ops)
    (h' : g.Line last l other) : ops = other := by
  -- Where one line ends nothing leaves, so the other one ends there as well.
  induction ops generalizing l other with
  | nil =>
      cases other with
      | nil => rfl
      | cons op other =>
          rcases h' with ⟨next, hedges, _⟩
          cases h.2.symm.trans hedges
  | cons op ops ih =>
      rcases h with ⟨next, hedges, hrest⟩
      cases other with
      | nil => cases hedges.symm.trans h'.2
      | cons first other =>
          rcases h' with ⟨next', hedges', hrest'⟩
          cases hedges.symm.trans hedges'
          rw [ih next other hrest hrest']

theorem walk_of_line (l : LocationId) (ops : List OperationId) (h : g.Line last l ops) :
    g.Walk l ops last := by
  induction ops generalizing l with
  | nil =>
      rw [h.1]
      exact .nil last
  | cons op ops ih =>
      rcases h with ⟨next, hedges, hrest⟩
      have hmem : (op, next) ∈ g.edgesFrom l := hedges ▸ List.mem_singleton_self _
      exact .cons ((g.mem_edgesFrom l next op).mp hmem) (ih next hrest)

/-- A line does not come back: what is ahead of a location would be ahead of it once more. -/
theorem acyclicFrom_of_line (l : LocationId) (ops : List OperationId) (h : g.Line last l ops) :
    g.AcyclicFrom l := by
  intro n before hbefore around hround
  rcases g.ahead_of_walk last l n ops before h hbefore with ⟨rest, _, hn⟩
  -- After the round the same operations are ahead as before it.
  rcases g.ahead_of_walk last n n rest around hn hround with ⟨rest', heq, hn'⟩
  rw [g.line_unique last n rest' rest hn' hn] at heq
  exact List.self_eq_append_left.mp heq

theorem hasLoops_of_line (entry : LocationId) (ops : List OperationId)
    (hentry : g.entries.toList = [entry]) (h : g.Line last entry ops) : g.hasLoops = false := by
  -- Every route starts at the only entry, from which no round can be reached.
  refine g.hasLoops_of_noRounds (g.noRounds_iff.mpr ?_)
  rintro l ⟨start, hstart, visited, hroute⟩
  rw [← Std.ExtTreeSet.mem_toList, hentry, List.mem_singleton] at hstart
  subst hstart
  rcases g.exists_walk_of_route start l visited hroute with ⟨before, hbefore⟩
  exact g.acyclicFrom_of_line last start ops h l before hbefore

/-- A line has more locations than operations. -/
theorem length_of_line (entry : LocationId) (ops : List OperationId) (hwell : g.WellFormed)
    (hentry : g.entries.toList = [entry]) (h : g.Line last entry ops) :
    ops.length < g.locations.size := by
  have hin : entry ∈ g.entries := by
    rw [← Std.ExtTreeSet.mem_toList, hentry]
    exact List.mem_singleton_self entry
  exact g.length_of_walk entry last ops hwell (g.mem_locations_of_entry entry hwell hin)
    (g.acyclicFrom_of_line last entry ops h) (g.walk_of_line last entry ops h)

end Flow

namespace Relation

/-- Operations can be appended one by one, since the locations that are drawn are new. -/
theorem exists_gives_appendAll (ops : List OperationId) (r : Relation) (s : IdSupply)
    (hr : r.WellFormed) (hdrawn : ∀ l ∈ r.locations, l < s.next) :
    ∃ r' s', Gives (r.appendAll ops) s r' s' := by
  -- By induction on the operations. The premise that all locations were drawn is what makes the
  -- next one new.
  induction ops generalizing r s with
  | nil => exact ⟨r, s, (gives_pure _ _ _ _).mpr ⟨rfl, rfl⟩⟩
  | cons op ops ih =>
      -- Two numbers are drawn for each operation, one for the location and one for the relation.
      have hnew : s.next ∉ r.locations := fun hmem => Nat.lt_irrefl _ (hdrawn _ hmem)
      have hwell := r.toFlow.wellFormed_append op s.next hr
      let next : Relation := ⟨r.toFlow.append op s.next, s.next + 1, relationText (s.next + 1)⟩
      have hnext : Gives (r.append op s.next) ⟨s.next + 1⟩ next ⟨s.next + 1 + 1⟩ := by
        unfold append
        rw [if_neg hnew]
        exact (gives_make_iff none _ _ _ _).mpr ⟨hwell, rfl, rfl⟩
      have hbelow : ∀ l ∈ next.locations, l < s.next + 1 + 1 := by
        intro l hl
        rcases Std.ExtTreeSet.mem_insert.mp hl with heq | hmem
        · rw [← Std.LawfulEqCmp.eq_of_compare heq]
          exact Nat.lt_add_of_pos_right Nat.two_pos
        · exact Nat.lt_add_right 2 (hdrawn l hmem)
      rcases ih next ⟨s.next + 1 + 1⟩ hwell hbelow with ⟨r', s', hgives⟩
      refine ⟨r', s', ?_⟩
      unfold appendAll
      exact (gives_bind _ _ _ _ _).mpr ⟨s.next, ⟨s.next + 1⟩, rfl,
        (gives_bind _ _ _ _ _).mpr ⟨next, _, hnext, hgives⟩⟩

/-- Any operations make a sequence. -/
theorem exists_gives_sequence (ops : List OperationId) (s : IdSupply) :
    ∃ r s', Gives (sequence ops) s r s' := by
  let start : Relation := ⟨Flow.singleton s.next, s.next + 1, relationText (s.next + 1)⟩
  have hbelow : ∀ l ∈ start.locations, l < s.next + 1 + 1 := by
    intro l hl
    rw [(Flow.mem_singleton_iff s.next l).mp hl]
    exact Nat.lt_add_of_pos_right Nat.two_pos
  rcases start.exists_gives_appendAll ops ⟨s.next + 1 + 1⟩ (Flow.wellFormed_singleton s.next)
    hbelow with ⟨r, s', hgives⟩
  exact ⟨r, s', (gives_bind _ _ _ _ _).mpr ⟨start, ⟨s.next + 1 + 1⟩, rfl, hgives⟩⟩

end Relation

namespace DataAnalysis

variable {σ : Type} (analysis : DataAnalysis σ) (concern : Concern)

theorem runFrom_cons (states : List σ) (op : Operation) (ops : List Operation) :
    analysis.runFrom concern states (op :: ops)
      = if op.isEpsilon then analysis.runFrom concern states ops
        else analysis.runAll op concern states >>= fun next => analysis.runFrom concern next ops :=
  rfl

/-- An operation before others. -/
theorem run_cons (s : σ) (op : Operation) (ops : List Operation) :
    analysis.run s (op :: ops) concern
      = analysis.run s [op] concern >>= fun states => analysis.runFrom concern states ops := by
  unfold run
  rw [runFrom_cons, runFrom_cons]
  by_cases hnothing : op.isEpsilon = true
  · rw [if_pos hnothing, if_pos hnothing]
    rfl
  · rw [if_neg hnothing, if_neg hnothing]
    cases analysis.runAll op concern [s] with
    | error e => rfl
    | ok states => rfl

theorem runAll_append (op : Operation) (states others found : List σ) :
    analysis.runAll op concern (states ++ others) = .ok found
      ↔ ∃ first second, analysis.runAll op concern states = .ok first
        ∧ analysis.runAll op concern others = .ok second ∧ found = first ++ second := by
  unfold runAll
  rw [List.mapM_append]
  simp only [except_bind_ok, except_pure_ok]
  constructor
  · rintro ⟨_, ⟨parts, hparts, more, hmore, rfl⟩, rfl⟩
    exact ⟨_, _, ⟨parts, hparts, rfl⟩, ⟨more, hmore, rfl⟩, List.flatten_append⟩
  · rintro ⟨_, _, ⟨parts, hparts, rfl⟩, ⟨more, hmore, rfl⟩, rfl⟩
    exact ⟨_, ⟨parts, hparts, more, hmore, rfl⟩, List.flatten_append⟩

/-- A search in breadth from some states and others is one after the other. -/
theorem runFrom_append (states others : List σ) (ops : List Operation) (found : List σ) :
    analysis.runFrom concern (states ++ others) ops = .ok found
      ↔ ∃ first second, analysis.runFrom concern states ops = .ok first
        ∧ analysis.runFrom concern others ops = .ok second ∧ found = first ++ second := by
  -- By induction on the operations. The states are generalized, since each operation replaces them.
  induction ops generalizing states others found with
  | nil =>
      unfold runFrom
      simp only [Except.ok.injEq]
      constructor
      · rintro rfl
        exact ⟨states, others, rfl, rfl, rfl⟩
      · rintro ⟨_, _, rfl, rfl, rfl⟩
        rfl
  | cons op ops ih =>
      simp only [runFrom_cons]
      by_cases hnothing : op.isEpsilon = true
      · simp only [if_pos hnothing]
        exact ih states others found
      · simp only [if_neg hnothing, except_bind_ok, runAll_append]
        -- Both halves are taken through this operation, and then through the others.
        constructor
        · rintro ⟨_, ⟨first, second, hfirst, hsecond, rfl⟩, h⟩
          rcases (ih first second found).mp h with ⟨one, two, hone, htwo, rfl⟩
          exact ⟨one, two, ⟨first, hfirst, hone⟩, ⟨second, hsecond, htwo⟩, rfl⟩
        · rintro ⟨one, two, ⟨first, hfirst, hone⟩, ⟨second, hsecond, htwo⟩, rfl⟩
          exact ⟨first ++ second, ⟨first, second, hfirst, hsecond, rfl⟩,
            (ih first second _).mpr ⟨one, two, hone, htwo, rfl⟩⟩

theorem runFrom_nil (ops : List Operation) : analysis.runFrom concern [] ops = .ok [] := by
  induction ops with
  | nil => rfl
  | cons op ops ih =>
      rw [runFrom_cons]
      split
      · exact ih
      · exact ih

/-- A search in breadth goes through the states one by one. -/
theorem runFrom_ok_iff (states : List σ) (ops : List Operation) (found : List σ) :
    analysis.runFrom concern states ops = .ok found
      ↔ ∃ parts, List.Forall₂ (fun s part => analysis.run s ops concern = .ok part) states parts
        ∧ found = parts.flatten := by
  -- The states are split off one at a time. What remains of the search is about fewer of them.
  induction states generalizing found with
  | nil =>
      rw [runFrom_nil, Except.ok.injEq]
      constructor
      · rintro rfl
        exact ⟨[], .nil, rfl⟩
      · rintro ⟨_, hnone, rfl⟩
        cases hnone
        rfl
  | cons s states ih =>
      rw [← List.singleton_append, runFrom_append]
      constructor
      · rintro ⟨part, rest, hpart, hrest, rfl⟩
        rcases (ih rest).mp hrest with ⟨parts, hparts, rfl⟩
        exact ⟨part :: parts, .cons hpart hparts, rfl⟩
      · rintro ⟨_, hall, rfl⟩
        cases hall with
        | cons hpart hparts => exact ⟨_, _, hpart, (ih _).mpr ⟨_, hparts, rfl⟩, rfl⟩

end DataAnalysis

namespace Runner

variable {σ : Type} (r : Runner σ) (hscope : r.scope = .ok)
  (hfilter : ∀ s, r.analysis.isFeasible s = true)

/-- What a run finishes with when it has come to an exit with some states, the last one first. -/
def answers (states : List σ) : List (σ × Bool) := (states.map fun t => (t, true)).reverse

theorem flatten_answers (parts : List (List σ)) :
    (parts.map answers).reverse.flatten = answers parts.flatten := by
  unfold answers
  rw [List.map_flatten, List.reverse_flatten, List.map_map]
  rfl

/-- What a run finishes with behind some states that it follows from the last one to the first. -/
theorem followed_iff (follow : σ → Except AnalysisError (List (σ × Bool))) (ops : List Operation)
    (hfollow : ∀ t found, follow t = .ok found
      ↔ ∃ part, r.analysis.run t ops r.concern = .ok part ∧ found = answers part)
    (states : List σ) (found : List (σ × Bool)) :
    (∃ later, states.reverse.mapM follow = .ok later ∧ later.flatten = found)
      ↔ ∃ all, r.analysis.runFrom r.concern states ops = .ok all ∧ found = answers all := by
  simp only [except_mapM_ok, hfollow, forall₂_exists_map, DataAnalysis.runFrom_ok_iff]
  -- The parts of one search are those of the other, in reverse like the states.
  constructor
  · rintro ⟨_, ⟨parts, hparts, rfl⟩, rfl⟩
    refine ⟨_, ⟨parts.reverse, ?_, rfl⟩, ?_⟩
    · exact List.reverse_reverse states ▸ List.rel_reverse hparts
    · rw [← flatten_answers, List.map_reverse, List.reverse_reverse]
  · rintro ⟨_, ⟨parts, hparts, rfl⟩, rfl⟩
    refine ⟨_, ⟨parts.reverse, List.rel_reverse hparts, rfl⟩, ?_⟩
    rw [List.map_reverse, flatten_answers]

include hscope hfilter

/-- An edge leads to the states after its operation. -/
theorem after_eq_run (s : σ) (id : OperationId) (op : Operation) (hop : r.lookUp id = .ok op) :
    r.after s id = r.analysis.run s [op] r.concern := by
  rw [DataAnalysis.run_singleton]
  cases hsomething : op.isEpsilon with
  | true => exact r.after_of_nothing s id op hop hsomething
  | false =>
      rw [r.after_of_something s id op hop hsomething, hscope]
      change (r.analysis.successors s op r.concern >>= _) = _
      cases r.analysis.successors s op r.concern with
      | error e => rfl
      | ok states => exact congrArg Except.ok (List.filter_eq_self.mpr fun t _ => hfilter t)

/-- The only way on from a location on a line. -/
theorem alternatives_of_single (g : Flow) (l next : LocationId) (id : OperationId)
    (op : Operation) (hop : r.lookUp id = .ok op) (hedges : g.edgesFrom l = [(id, next)]) (s : σ) :
    r.alternatives g l s = r.analysis.run s [op] r.concern >>= fun states =>
      pure (states.map fun t => (next, t)) := by
  rw [← r.after_eq_run hscope hfilter s id op hop]
  unfold alternatives
  rw [hedges, List.mapM_cons, List.mapM_nil]
  change ((r.after s id >>= _) >>= _) >>= _ = _
  cases r.after s id with
  | error e => rfl
  | ok states => exact congrArg Except.ok (List.append_nil _)

/-- A run along a line answers with the states of a search in breadth, in the opposite order. -/
theorem runFrom_of_line (g : Relation) (last : LocationId) (hexit : ∀ l, l ∈ g.exits ↔ l = last)
    (ids : List OperationId) (ops : List Operation)
    (hops : List.Forall₂ (fun id op => r.lookUp id = .ok op) ids ops) (depth : Nat)
    (hdepth : ids.length < depth) (l : LocationId) (hline : g.Line last l ids) (s : σ)
    (found : List (σ × Bool)) : r.runFrom g depth l s = .ok found
      ↔ ∃ states, r.analysis.run s ops r.concern = .ok states ∧ found = answers states := by
  -- By induction on the operations that are ahead, together with the line of locations they lie on.
  induction hops generalizing depth l s found with
  | nil =>
      rcases hline with ⟨rfl, hend⟩
      cases depth with
      | zero => exact absurd hdepth (Nat.lt_irrefl 0)
      | succ depth =>
          rw [r.runFrom_of_end g depth l s hend,
            Std.ExtTreeSet.contains_iff_mem.mpr ((hexit l).mpr rfl), Except.ok.injEq]
          constructor
          · rintro rfl
            exact ⟨[s], rfl, rfl⟩
          · rintro ⟨states, hstates, rfl⟩
            cases hstates
            rfl
  | @cons id op ids ops hop _ ih =>
      have hout := g.not_mem_exits_of_line last l id ids hexit hline
      rcases hline with ⟨next, hedges, hrest⟩
      cases depth with
      | zero => exact absurd hdepth (Nat.not_lt_zero _)
      | succ depth =>
          -- The line goes on, so the run does not finish here. All results come from the later
          -- runs.
          have hhere : finished g.toFlow l s = [] := by
            refine if_neg fun hfinishes => ?_
            unfold Flow.finishesAt at hfinishes
            rw [hedges, Bool.or_eq_true, Std.ExtTreeSet.contains_iff_mem] at hfinishes
            exact hfinishes.elim hout Bool.false_ne_true
          have hlater : ∀ states : List σ, (states.map fun t => (next, t)).reverse.mapM
              (fun p => r.runFrom g depth p.1 p.2)
                = states.reverse.mapM fun t => r.runFrom g depth next t := by
            intro states
            rw [← List.map_reverse, List.mapM_map]
            rfl
          have hfollow := r.followed_iff _ ops
            (ih depth (Nat.lt_of_succ_lt_succ hdepth) next hrest)
          unfold runFrom
          rw [r.alternatives_of_single hscope hfilter g.toFlow l next id op hop hedges s,
            r.analysis.run_cons r.concern s op ops, hhere]
          simp only [except_bind_ok, except_pure_ok, List.nil_append]
          -- What comes after the first operation is the same for both, and so is what follows.
          constructor
          · rintro ⟨_, ⟨states, hstates, rfl⟩, hrest⟩
            rw [hlater, hfollow] at hrest
            rcases hrest with ⟨all, hall, heq⟩
            exact ⟨all, ⟨states, hstates, hall⟩, heq⟩
          · rintro ⟨all, ⟨states, hstates, hall⟩, heq⟩
            refine ⟨_, ⟨states, hstates, rfl⟩, ?_⟩
            rw [hlater, hfollow]
            exact ⟨all, hall, heq⟩

/-- The run of a whole line. It is not refused, and the depth that is granted is enough. -/
theorem runAlong_of_line (g : Relation) (entry last : LocationId) (hwell : g.WellFormed)
    (hentry : g.entries.toList = [entry]) (hexit : ∀ l, l ∈ g.exits ↔ l = last)
    (ids : List OperationId) (ops : List Operation)
    (hops : List.Forall₂ (fun id op => r.lookUp id = .ok op) ids ops)
    (hline : g.Line last entry ids) (s : σ) (found : List (σ × Bool)) :
    r.runAlong g entry s = .ok found
      ↔ ∃ states, r.analysis.run s ops r.concern = .ok states ∧ found = answers states := by
  rw [r.runAlong_of_accepted g (g.hasLoops_of_line last entry ids hentry hline)]
  have hdepth := Nat.lt_add_right patience (g.length_of_line last entry ids hwell hentry hline)
  exact r.runFrom_of_line hscope hfilter g last hexit ids ops hops _ hdepth entry hline s found

end Runner

namespace App

variable {σ : Type} (app : App) (analysis : DataAnalysis σ) (concern : Concern)

/-- The sequence of some operations can be made and has a single entry. Without an owner variables
    stay as they are, and if all states are feasible, then running along the sequence from its entry
    succeeds exactly if performing the operations does. Both come to the same states, each of them
    equally often, and the run has reached all of them at an exit. -/
theorem sequence_as_run (hfilter : ∀ s, analysis.isFeasible s = true) (ids : List OperationId)
    (ops : List Operation) (hops : ids.mapM app.operation = .ok ops) (supply : IdSupply) (s : σ) :
    ∃ line supply' entry r, Gives (Relation.sequence ids) supply line supply'
      ∧ line.soleEntry = .ok entry ∧ app.runner analysis concern line none = .ok r
      ∧ ((∃ found, r.runAlong line entry s = .ok found)
        ↔ ∃ states, analysis.run s ops concern = .ok states)
      ∧ ∀ found states, r.runAlong line entry s = .ok found →
        analysis.run s ops concern = .ok states →
        List.Perm found (states.map fun t => (t, true)) := by
  rcases Relation.exists_gives_sequence ids supply with ⟨line, supply', hgives⟩
  rcases Relation.line_of_gives_sequence ids line supply supply' hgives with
    ⟨entry, last, hentry, hexit, hline⟩
  have hwell := Relation.wellFormed_of_gives_sequence ids line supply supply' hgives
  have hsole : line.soleEntry = .ok entry := by
    unfold Relation.soleEntry
    rw [hentry]
  -- Without an owner nothing is scoped.
  let r : Runner σ := ⟨analysis, concern, fun id => ofModel (app.operation id), .ok⟩
  have hknown : List.Forall₂ (fun id op => r.lookUp id = .ok op) ids ops :=
    ((except_mapM_ok _ _ _).mp hops).imp fun id op hop => (except_mapError_ok _ _ _).mpr hop
  have hrun := r.runAlong_of_line rfl hfilter line entry last hwell hentry hexit ids ops hknown
    hline s
  refine ⟨line, supply', entry, r, hgives, hsole, rfl, ?_, fun found states hfound hstates => ?_⟩
  · constructor
    · rintro ⟨found, hfound⟩
      rcases (hrun found).mp hfound with ⟨states, hstates, _⟩
      exact ⟨states, hstates⟩
    · rintro ⟨states, hstates⟩
      exact ⟨_, (hrun _).mpr ⟨states, hstates, rfl⟩⟩
  -- A run goes through its states from the last one to the first, so the results come in the
  -- opposite order.
  · rcases (hrun found).mp hfound with ⟨states', hstates', rfl⟩
    cases hstates.symm.trans hstates'
    exact List.reverse_perm _

section Dice

/-- A program with one operation, apart from the one that does nothing. -/
def dice : App := ((newOperation (.evaluate (.num 6))).run (App.new "dice")).2

/-- An operation adds nothing or up to twice its number, and cannot be performed from where the sum
    is ten or more. -/
def throwing : DataAnalysis Nat where
  successors s op _ :=
    if s < 10 then .ok [s, s + op.id, s + 2 * op.id]
    else .error (.unsupported (.statement op.statement))
  isFeasible _ := true

/-- Two throws from nothing have nine results, some of them equal. From nine the second throw
    fails. -/
theorem sequence_as_run_throwing : (∀ s, throwing.isFeasible s = true)
    ∧ (∃ ops, [1, epsilonId, 1].mapM dice.operation = .ok ops
      ∧ throwing.run 0 ops .program = .ok [0, 1, 2, 1, 2, 3, 2, 3, 4])
    ∧ (∃ line supply' entry r found, Gives (Relation.sequence [1, epsilonId, 1]) dice.supply line
        supply' ∧ line.soleEntry = .ok entry ∧ dice.runner throwing .program line none = .ok r
      ∧ r.runAlong line entry 0 = .ok found
      ∧ List.Perm found ([0, 1, 2, 1, 2, 3, 2, 3, 4].map fun t => (t, true)))
    ∧ ∃ line supply' entry r, Gives (Relation.sequence [1, epsilonId, 1]) dice.supply line supply'
      ∧ line.soleEntry = .ok entry ∧ dice.runner throwing .program line none = .ok r
      ∧ ∀ found, r.runAlong line entry 9 ≠ .ok found := by
  have hfilter : ∀ s, throwing.isFeasible s = true := fun _ => rfl
  have hops : [1, epsilonId, 1].mapM dice.operation
      = .ok [⟨1, .evaluate (.num 6)⟩, .epsilon, ⟨1, .evaluate (.num 6)⟩] := rfl
  have hstates : throwing.run 0 [⟨1, .evaluate (.num 6)⟩, .epsilon, ⟨1, .evaluate (.num 6)⟩]
      .program = .ok [0, 1, 2, 1, 2, 3, 2, 3, 4] := rfl
  refine ⟨hfilter, ⟨_, hops, hstates⟩, ?_, ?_⟩
  · rcases dice.sequence_as_run throwing .program hfilter _ _ hops dice.supply 0 with
      ⟨line, supply', entry, r, hline, hentry, hr, hboth, hperm⟩
    rcases hboth.mpr ⟨_, hstates⟩ with ⟨found, hfound⟩
    exact ⟨line, supply', entry, r, found, hline, hentry, hr, hfound, hperm found _ hfound hstates⟩
  · rcases dice.sequence_as_run throwing .program hfilter _ _ hops dice.supply 9 with
      ⟨line, supply', entry, r, hline, hentry, hr, hboth, _⟩
    refine ⟨line, supply', entry, r, hline, hentry, hr, fun found hfound => ?_⟩
    rcases hboth.mp ⟨found, hfound⟩ with ⟨states, hfails⟩
    cases hfails

end Dice

end App

end ActorCheck
