import ActorCheck.Proofs.Data.Ways
import ActorCheck.Proofs.Flow.Levels
import ActorCheck.Proofs.Program.Drafts
import ActorCheck.Proofs.Relation.Words

/-!
# Runs Along Shortcuts

A run may take a relation as it is, or the equivalent one without edges that do nothing. The two
runs go through different locations and finish at different ones, and a state may be found more
often by the one than by the other. What they find at exits is the same, and so is whether they
fail.

A place of one run is matched with a place of the other if both have the same state and the
location of the shorter run leads silently to that of the longer one. This is kept: an edge that
does nothing only makes the silent way longer, any other edge of the longer run is taken by the
shorter one at once. Where the longer run is at an exit the shorter one is too, since it leads
silently to one, and what the longer run is refused the shorter one is refused. The other
direction is simpler. A shortcut stands for a silent way and an edge after it, and the longer run
takes both.

It matters that the operation that does nothing is known. A run looks it up like any other one, so
without it the longer run would fail where the shorter one does not. Every program knows it.

## Main definitions

* `Runner.Numbered`: Operations are known under their own numbers, the one that does nothing
  included.
* `App.KnowsEpsilon`: The program knows the operation that does nothing.

## Theorems

* `Runner.follows_of_removeEpsilons`, `Runner.follows_removeEpsilons`: The ways of one run and
  those of the other.
* `Runner.refused_removeEpsilons_iff`, `Runner.reaches_exit_removeEpsilons_iff`: What they are
  refused, and what they find at exits.
* `Runner.runAlong_error_iff_refused`, `Runner.mem_exits_of_runAlong`: What a run along an acyclic
  relation answers, told by ways.
* `App.knowsEpsilon_of_draft`, `App.knowsEpsilon_of_extends`: Every program knows the operation
  that does nothing.
* `App.removeEpsilons_preserves_runs`: The two runs agree.
-/

namespace ActorCheck

namespace Runner

variable {σ : Type} (r : Runner σ)

/-- Operations are known under their own numbers, and the one that does nothing is known. -/
structure Numbered (r : Runner σ) : Prop where
  own : ∀ id op, r.lookUp id = .ok op → op.id = id
  idle : ∃ op, r.lookUp epsilonId = .ok op

section Steps

variable (h : r.Numbered)

include h

theorem isEpsilon_iff_of_lookUp (id : OperationId) (op : Operation) (hop : r.lookUp id = .ok op) :
    op.isEpsilon = true ↔ id = epsilonId := by
  unfold Operation.isEpsilon
  rw [h.own id op hop, beq_iff_eq]

/-- Along an edge that does nothing the state is kept. -/
theorem steps_epsilon_iff (s t : σ) (choice : Nat) :
    r.Steps s epsilonId choice t ↔ choice = 0 ∧ t = s := by
  constructor
  -- The rule for an operation that is performed asks for one that does something.
  · intro hstep
    cases hstep with
    | keep => exact ⟨rfl, rfl⟩
    | @take op _ _ _ _ known something =>
        rw [(r.isEpsilon_iff_of_lookUp h epsilonId op known).mpr rfl] at something
        cases something
  · rintro ⟨rfl, rfl⟩
    rcases h.idle with ⟨op, hop⟩
    exact .keep hop ((r.isEpsilon_iff_of_lookUp h epsilonId op hop).mpr rfl)

/-- Doing nothing is never refused. -/
theorem ne_epsilon_of_refuses (s : σ) (id : OperationId) (hrefused : r.Refuses s id) :
    id ≠ epsilonId := by
  rintro rfl
  rcases h.idle with ⟨idle, hidle⟩
  have hnothing := (r.isEpsilon_iff_of_lookUp h epsilonId idle hidle).mpr rfl
  -- A refusal is an operation that is not known, or one that cannot be scoped or performed. The
  -- idle one is known, and neither is asked of it.
  cases hrefused with
  | unknown failed => cases hidle.symm.trans failed
  | misplaced known something =>
      cases hidle.symm.trans known
      cases hnothing.symm.trans something
  | unperformed known something =>
      cases hidle.symm.trans known
      cases hnothing.symm.trans something

end Steps

section Ways

variable (g : Flow)

theorem follows_trans (l m n : LocationId) (s t u : σ) (way way' : List Pick)
    (hfirst : r.Follows g l s way m t) (hrest : r.Follows g m t way' n u) :
    r.Follows g l s (way ++ way') n u := by
  -- On the first way, from any place, as the second one only continues it.
  induction way generalizing l s with
  | nil =>
      rcases hfirst with ⟨rfl, rfl⟩
      exact hrest
  | cons pick way ih =>
      rcases hfirst with ⟨hedge, v, hstep, hlater⟩
      exact ⟨hedge, v, hstep, ih pick.target v hlater⟩

variable (h : r.Numbered)

include h

/-- A silent way keeps the state. -/
theorem follows_of_silently (l m : LocationId) (s : σ) (hsilent : g.Silently l m) :
    ∃ way, r.Follows g l s way m s := by
  rcases hsilent with ⟨ops, hwalk, hword⟩
  -- Along the walk, of which every edge does nothing: one that did something would show in the
  -- word.
  induction hwalk with
  | nil l => exact ⟨[], rfl, rfl⟩
  | @cons l n m op ops edge _ ih =>
      by_cases hop : op = epsilonId
      · cases hop
        rcases ih hword with ⟨way, hway⟩
        exact ⟨⟨epsilonId, n, 0⟩ :: way, edge, s, (r.steps_epsilon_iff h s s 0).mpr ⟨rfl, rfl⟩,
          hway⟩
      · rw [Flow.word_cons op ops hop] at hword
        cases hword

/-- A way through the new flow stands for one through the old flow, which takes a silent way before
    each of its edges. -/
theorem follows_of_removeEpsilons (l m : LocationId) (s t : σ) (way : List Pick)
    (hway : r.Follows g.removeEpsilons l s way m t) : ∃ way', r.Follows g l s way' m t := by
  -- On the way, pick by pick: before each the silent way is put in that its edge stands for. The
  -- state does not change on it.
  induction way generalizing l s with
  | nil => exact ⟨[], hway⟩
  | cons pick way ih =>
      rcases hway with ⟨hedge, u, hstep, hlater⟩
      rcases (g.mem_edges_removeEpsilons_iff _).mp hedge with ⟨_, _, _, via, hvia, hold⟩
      rcases r.follows_of_silently g h l via s hvia with ⟨before, hbefore⟩
      rcases ih pick.target u hlater with ⟨after, hafter⟩
      exact ⟨_, r.follows_trans g l via m s s t before (pick :: after) hbefore
        ⟨hold, u, hstep, hafter⟩⟩

variable (hwell : g.WellFormed)

include hwell

/-- A way through the old flow is followed through the new one, from a location that is kept and
    leads silently to where the way begins. It gets to a location that is kept and leads silently to
    where the way ends. -/
theorem follows_removeEpsilons (l m : LocationId) (s t : σ) (way : List Pick)
    (hway : r.Follows g l s way m t) (start : LocationId)
    (hstart : start ∈ g.removeEpsilons.locations) (hsilent : g.Silently start l) :
    ∃ n ∈ g.removeEpsilons.locations, g.Silently n m
      ∧ ∃ way', r.Follows g.removeEpsilons start s way' n t := by
  -- On the longer way, with the start of the shorter one free, because every step through a real
  -- edge moves it on and a step that does nothing leaves it behind.
  induction way generalizing l s start with
  | nil =>
      rcases hway with ⟨rfl, rfl⟩
      exact ⟨start, hstart, hsilent, [], rfl, rfl⟩
  | cons pick way ih =>
      rcases hway with ⟨hedge, u, hstep, hlater⟩
      rcases pick with ⟨op, target, choice⟩
      by_cases hop : op = epsilonId
      · cases hop
        rcases (r.steps_epsilon_iff h s u choice).mp hstep with ⟨_, rfl⟩
        exact ih target u hlater start hstart (g.silently_tail start l target hsilent hedge)
      -- Any other edge can be taken from the start at once, and the silent way behind it is empty.
      · have hnew : ⟨start, target, op⟩ ∈ g.removeEpsilons.edges :=
          (g.mem_edges_removeEpsilons_iff _).mpr ⟨hstart,
            g.mem_locations_of_removeEpsilons hwell start hstart, hop, l, hsilent, hedge⟩
        rcases ih target u hlater target (g.target_mem_removeEpsilons _ hnew)
          (g.silently_refl target) with ⟨n, hn, hend, way', hway'⟩
        exact ⟨n, hn, hend, ⟨op, target, choice⟩ :: way', hnew, u, hstep, hway'⟩

variable (start : LocationId) (hstart : start ∈ g.entries) (s : σ)

include hstart

/-- Both runs are refused an operation, or none of them is. -/
theorem refused_removeEpsilons_iff :
    (∃ way m t, r.Follows g.removeEpsilons start s way m t
        ∧ ∃ op target, (⟨m, target, op⟩ : Edge) ∈ g.removeEpsilons.edges ∧ r.Refuses t op)
      ↔ ∃ way m t, r.Follows g start s way m t
        ∧ ∃ op target, (⟨m, target, op⟩ : Edge) ∈ g.edges ∧ r.Refuses t op := by
  constructor
  -- The edge that refuses comes behind a silent way, which the longer run can take first.
  · rintro ⟨way, m, t, hway, op, target, hedge, hrefused⟩
    rcases (g.mem_edges_removeEpsilons_iff _).mp hedge with ⟨_, _, _, via, hvia, hold⟩
    rcases r.follows_of_removeEpsilons g h start m s t way hway with ⟨before, hbefore⟩
    rcases r.follows_of_silently g h m via t hvia with ⟨silent, hsilent⟩
    exact ⟨_, via, t, r.follows_trans g start m via s t t before silent hbefore hsilent, op, target,
      hold, hrefused⟩
  -- What is refused does something, so its edge is one of the new flow from where the shorter run
  -- is.
  · rintro ⟨way, m, t, hway, op, target, hedge, hrefused⟩
    rcases r.follows_removeEpsilons g h hwell start m s t way hway start
      (g.entry_mem_removeEpsilons start hstart) (g.silently_refl start) with
      ⟨n, hn, hsilent, way', hway'⟩
    refine ⟨way', n, t, hway', op, target, (g.mem_edges_removeEpsilons_iff _).mpr ?_, hrefused⟩
    exact ⟨hn, g.mem_locations_of_removeEpsilons hwell n hn,
      r.ne_epsilon_of_refuses h t op hrefused, m, hsilent, hedge⟩

/-- Both runs get to exits in the same states. -/
theorem reaches_exit_removeEpsilons_iff (t : σ) :
    (∃ exit ∈ g.removeEpsilons.exits, ∃ way, r.Follows g.removeEpsilons start s way exit t)
      ↔ ∃ exit ∈ g.exits, ∃ way, r.Follows g start s way exit t := by
  constructor
  · rintro ⟨m, hm, way, hway⟩
    rcases (g.mem_exits_removeEpsilons_iff m).mp hm with ⟨_, _, exit, hexit, hsilently⟩
    rcases r.follows_of_removeEpsilons g h start m s t way hway with ⟨before, hbefore⟩
    rcases r.follows_of_silently g h m exit t hsilently with ⟨silent, hsilent⟩
    exact ⟨exit, hexit, _, r.follows_trans g start m exit s t t before silent hbefore hsilent⟩
  · rintro ⟨exit, hexit, way, hway⟩
    rcases r.follows_removeEpsilons g h hwell start exit s t way hway start
      (g.entry_mem_removeEpsilons start hstart) (g.silently_refl start) with
      ⟨n, hn, hsilent, way', hway'⟩
    refine ⟨n, (g.mem_exits_removeEpsilons_iff n).mpr ?_, way', hway'⟩
    exact ⟨hn, g.mem_locations_of_removeEpsilons hwell n hn, exit, hexit, hsilent⟩

end Ways

section Answers

variable (g : Relation) (hacyclic : g.Acyclic) (start : LocationId) (s : σ)

include hacyclic

/-- A run along an acyclic relation fails exactly if some way leads to an edge whose operation is
    refused. -/
theorem runAlong_error_iff_refused (hwell : g.WellFormed) (hstart : start ∈ g.entries) :
    (∃ e, r.runAlong g start s = .error e)
      ↔ ∃ way m t, r.Follows g.toFlow start s way m t
        ∧ ∃ op target, (⟨m, target, op⟩ : Edge) ∈ g.edges ∧ r.Refuses t op := by
  rw [r.runAlong_error_iff g hacyclic hwell start (g.mem_locations_of_entry start hwell hstart)]
  simp only [← r.fails_iff]
  constructor
  · rintro ⟨⟨m, t⟩, hreach, hfails⟩
    rcases r.exists_way_of_reaches g.toFlow _ _ hreach with ⟨way, hway⟩
    exact ⟨way, m, t, hway, hfails⟩
  · rintro ⟨way, m, t, hway, hfails⟩
    -- A way stands for a run as long as nothing fails on it. If nothing failed anywhere this one
    -- would be reached, and it fails at its end.
    by_contra hnone
    have hfine : ∀ x, r.Reaches g.toFlow (start, s) x → ¬ r.Fails g.toFlow x :=
      fun x hx hstuck => hnone ⟨x, hx, hstuck⟩
    exact hfine _ (r.reaches_of_follows g.toFlow start s way m t hfine hway) hfails

/-- A run that succeeds has found at exits what some way to an exit leads to. -/
theorem mem_exits_of_runAlong (found : List (σ × Bool)) (h : r.runAlong g start s = .ok found)
    (t : σ) :
    (t, true) ∈ found ↔ ∃ exit ∈ g.exits, ∃ way, r.Follows g.toFlow start s way exit t := by
  rw [r.runAlong_eq g hacyclic] at h
  -- Results and ways correspond one to one, so a result at an exit is a way to it and the other way
  -- round.
  have honce := r.eachOnce_runFrom g _ start s found h
  constructor
  · intro hmem
    rcases exists_key _ found honce (t, true) hmem with ⟨way, m, hway, _, hmark⟩
    exact ⟨m, hmark.mp rfl, way, hway⟩
  · rintro ⟨exit, hexit, way, hway⟩
    exact mem_of_key _ found honce way (t, true) ⟨exit, hway, Or.inl hexit, iff_of_true rfl hexit⟩

end Answers

end Runner

namespace App

/-- The program knows the operation that does nothing, and will not draw its number. -/
structure KnowsEpsilon (app : App) : Prop where
  known : app.operations[epsilonId]? = some .epsilon
  drawn : epsilonId < app.supply.next

section Knowledge

/-- What is added to a program has other numbers. -/
theorem knowsEpsilon_of_extends (a b : App) (h : a.Extends b) (ha : a.KnowsEpsilon) :
    b.KnowsEpsilon :=
  ⟨(h.operations epsilonId (Or.inl ha.drawn)).trans ha.known,
    Nat.lt_of_lt_of_le ha.drawn h.supply⟩

/-- Every program knows it as it was written. -/
theorem knowsEpsilon_of_draft (draft : AppDraft) (name : String) :
    (draft.build.run (App.new name)).2.KnowsEpsilon := by
  have hnew : (App.new name).KnowsEpsilon := ⟨rfl, Nat.zero_lt_one⟩
  have hactor := keeps_registerActor KnowsEpsilon
    (fun _ _ hle ha => ⟨ha.known, Nat.lt_of_lt_of_le ha.drawn hle⟩)
    fun _ _ ha => ⟨ha.known, ha.drawn⟩
  -- It is known from the start, and building a program only adds to it.
  refine keeps_buildApp KnowsEpsilon hactor (fun relation a ha => ?_) draft (App.new name) hnew
  have hbuild := knowsEpsilon_of_extends a _ (extends_build relation a) ha
  exact ends_bind KnowsEpsilon _ _ a hbuild fun _ _ _ hb => ⟨hb.known, hb.drawn⟩

theorem operation_ok_iff (app : App) (id : OperationId) (op : Operation) :
    ofModel (app.operation id) = .ok op
      ↔ ∃ statement, app.operations[id]? = some statement ∧ op = ⟨id, statement⟩ := by
  unfold operation ofModel
  rw [except_mapError_ok]
  cases app.operations[id]? with
  | none => exact iff_of_false nofun fun ⟨_, hnone, _⟩ => nomatch hnone
  | some statement =>
      rw [Except.ok.injEq]
      constructor
      · rintro rfl
        exact ⟨statement, rfl, rfl⟩
      · rintro ⟨_, hsame, rfl⟩
        cases hsame
        rfl

end Knowledge

variable {σ : Type} (app : App) (h : app.KnowsEpsilon) (analysis : DataAnalysis σ)
  (concern : Concern) (scope : Operation → Except AnalysisError Operation)

include h

/-- In a program operations are looked up by their numbers. -/
theorem numbered_of_knowsEpsilon :
    Runner.Numbered ⟨analysis, concern, fun id => ofModel (app.operation id), scope⟩ := by
  refine ⟨fun id op hop => ?_, .epsilon, (app.operation_ok_iff _ _).mpr ⟨.epsilon, h.known, rfl⟩⟩
  rcases (app.operation_ok_iff id op).mp hop with ⟨statement, _, rfl⟩
  rfl

/-- An acyclic relation has an equivalent one without edges that do nothing, and from every entry a
    run along the one succeeds exactly if a run along the other does, whatever the data analysis and
    the places of variables. Both find the same states at exits. -/
theorem removeEpsilons_preserves_runs (g : Relation) (hwell : g.WellFormed) (hacyclic : g.Acyclic)
    (supply : IdSupply) :
    let r : Runner σ := ⟨analysis, concern, fun id => ofModel (app.operation id), scope⟩
    ∃ g' supply', Gives g.removeEpsilons supply g' supply' ∧ g'.entries = g.entries
      ∧ ∀ start ∈ g.entries, ∀ s,
        ((∃ found, r.runAlong g' start s = .ok found) ↔ ∃ found, r.runAlong g start s = .ok found)
          ∧ ∀ found' found, r.runAlong g' start s = .ok found' → r.runAlong g start s = .ok found →
            ∀ t, (t, true) ∈ found' ↔ (t, true) ∈ found := by
  intro r
  have hnumbered : r.Numbered := app.numbered_of_knowsEpsilon h analysis concern scope
  rcases Relation.exists_gives_make (some g.name) _ supply g.plain_removeEpsilons.wellFormed with
    ⟨g', supply', hmade, hflow⟩
  have hentries : g'.entries = g.entries := by
    rw [hflow]
    rfl
  have hwell' : g'.WellFormed := hflow ▸ g.plain_removeEpsilons.wellFormed
  have hacyclic' : g'.Acyclic := hflow ▸ g.acyclic_removeEpsilons hacyclic
  refine ⟨g', supply', hmade, hentries, fun start hstart s => ⟨?_, ?_⟩⟩
  -- Both runs end in an error or a success, so it is enough to compare the errors. These are the
  -- refusals on the ways of the two.
  · have hfails :
        (∃ e, r.runAlong g' start s = .error e) ↔ ∃ e, r.runAlong g start s = .error e := by
      rw [r.runAlong_error_iff_refused g' hacyclic' start s hwell' (hentries ▸ hstart),
        r.runAlong_error_iff_refused g hacyclic start s hwell hstart, hflow]
      exact r.refused_removeEpsilons_iff g.toFlow hnumbered hwell start hstart s
    have hsucceeds : ∀ x : Except AnalysisError (List (σ × Bool)),
        (∃ found, x = .ok found) ↔ ¬ ∃ e, x = .error e := by
      rintro (e | found)
      · exact iff_of_false nofun (not_not_intro ⟨e, rfl⟩)
      · exact iff_of_true ⟨found, rfl⟩ nofun
    rw [hsucceeds, hsucceeds, hfails]
  · intro found' found hfound' hfound t
    rw [r.mem_exits_of_runAlong g' hacyclic' start s found' hfound' t,
      r.mem_exits_of_runAlong g hacyclic start s found hfound t, hflow]
    exact r.reaches_exit_removeEpsilons_iff g.toFlow hnumbered hwell start hstart s t

end App

section Locks

/-- A canal with locks. Boats can land before the first lock and behind the second one, and both
    landings are reached without a lock as well. Behind each of them the canal goes on. -/
def canal : Relation where
  locations := .ofList [1, 2, 3, 4, 5, 6] compare
  entries := {1}
  exits := .ofList [2, 4] compare
  edges := .ofList (show List Edge from
    [⟨1, 2, epsilonId⟩, ⟨1, 4, 1⟩, ⟨2, 3, 1⟩, ⟨3, 4, epsilonId⟩, ⟨3, 6, epsilonId⟩,
      ⟨4, 5, 2⟩]) compare
  id := 9
  name := "R9"

/-- A program with two operations, apart from the one that does nothing. -/
def ferry : App :=
  (AppDraft.build ⟨"ferry", [.sequence [.evaluate (.num 1), .evaluate (.num 2)]], []⟩).run
    (App.new "ferry") |>.2

/-- An operation may be without effect, or it adds its number. From three on the second one cannot
    be performed. -/
def rising : DataAnalysis Nat where
  successors s op _ :=
    if op.id = 2 ∧ 3 ≤ s then .error (.unsupported (.statement op.statement))
    else .ok [s, s + op.id]
  isFeasible _ := true

/-- The runs of boats. -/
def boats : Runner Nat := ⟨rising, .program, fun id => ofModel (ferry.operation id), .ok⟩

/-- From below, boats land where the water is as low as before or one higher, with shortcuts and
    without. From three on the canal cannot be passed either way. -/
theorem removeEpsilons_preserves_runs_canal : ferry.KnowsEpsilon ∧ canal.WellFormed
    ∧ canal.Acyclic
    ∧ ∃ g' supply', Gives canal.removeEpsilons ferry.supply g' supply'
      ∧ (∃ found, boats.runAlong g' 1 0 = .ok found ∧ ∀ t, (t, true) ∈ found ↔ t = 0 ∨ t = 1)
      ∧ ∀ found, boats.runAlong g' 1 3 ≠ .ok found := by
  have hknows : ferry.KnowsEpsilon := App.knowsEpsilon_of_draft _ "ferry"
  have hwell : canal.WellFormed := by
    unfold Flow.WellFormed
    decide
  have hup : ∀ e ∈ canal.edges.toList, e.source < e.target := by decide
  have hacyclic : canal.Acyclic :=
    canal.acyclic_of_rank id fun e he => hup e (Std.ExtTreeSet.mem_toList.mpr he)
  have hentry : (1 : LocationId) ∈ canal.entries := (Flow.mem_singleton_iff 1 1).mpr rfl
  -- Only the run along the canal as it is gets computed. That of the shortcuts is told by the
  -- theorem.
  have hlow : boats.runAlong canal 1 0 = .ok [(1, true), (3, false), (1, false), (0, true),
      (2, false), (0, false), (0, true), (1, false), (1, true), (3, false), (1, false), (0, false),
      (0, true), (2, false), (0, false)] := by
    refine (mem_toOption _ _).mp (Option.mem_def.mpr ?_)
    decide
  have hhigh : (boats.runAlong canal 1 3).toOption = none := by decide
  rcases ferry.removeEpsilons_preserves_runs hknows rising .program .ok canal hwell hacyclic
    ferry.supply with ⟨g', supply', hmade, _, hruns⟩
  refine ⟨hknows, hwell, hacyclic, g', supply', hmade, ?_, fun found hfound => ?_⟩
  · rcases (hruns 1 hentry 0).1.mpr ⟨_, hlow⟩ with ⟨found, hfound⟩
    refine ⟨found, hfound, fun t => ?_⟩
    rw [(hruns 1 hentry 0).2 found _ hfound hlow]
    simp
    omega
  · rcases (hruns 1 hentry 3).1.mp ⟨found, hfound⟩ with ⟨found', hfound'⟩
    cases hhigh.symm.trans (congrArg Except.toOption hfound')

end Locks

end ActorCheck
