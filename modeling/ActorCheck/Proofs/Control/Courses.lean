import ActorCheck.Proofs.Control.Effects
import ActorCheck.Proofs.Control.Session
import ActorCheck.Proofs.Control.StepCases
import ActorCheck.Proofs.Control.Turns

/-!
# Courses

What a statement about runs is about. A session says which states were found, but not from which
state and by whose step. A course is one path through a session: it begins at a state in which
the program has started, and every move takes it to a successor. A move says which thread took
the step, along which edge, and what the states were before and after it.

Between two moves of a course the session may do other things. It may start the program again,
or expand a state that lies on another path. The program has then grown when the course goes on,
which changes nothing that the course has seen. A journey is a run of a program of which nothing
else is explored.

## Main definitions

* `Move`: One step of a thread along an edge.
* `Scheduler.Passage`: One way through a step that makes a move.
* `Scheduler.Journey`: A run by itself.
* `Session.Course`: One path through a session.

## Theorems

* `Scheduler.passage_of_gives_successors`: Every successor is reached by a move.
* `Scheduler.effect_of_passage`, `Scheduler.executed_of_passage`: What the statement of a move
  does, and what it does to the thread that moves.
* `Scheduler.data_of_passage`: What the data analysis makes of a move.
* `Session.invariant_of_moves`: What every move keeps holds of every state that was found.
* `Session.explored_of_course`, `Session.course_of_explored`: The states that were found are those
  to which a course leads.
* `Session.course_nil`: A course without moves.
* `Session.course_cons`: The last move of a course, and the course before it.
* `Session.course_of_append`: A course up to one of its moves.
* `Session.passage_of_expandLast`: How a course goes on.
* `Session.course_of_expansions`: The course of a session in which the last state is expanded
  again and again.
-/

namespace ActorCheck

/-- One step of the thread at an index along an edge, with the operations that the data analysis
    performs for it. -/
structure Move (σ : Type) where
  source : ControlState σ
  index : Nat
  edge : Operation × Place
  operations : List Operation
  target : ControlState σ

namespace Scheduler

variable {σ : Type} [DecidableEq σ]

/-- One way through a step that makes a move, with what came about before each phase of it. The
    thread that runs takes the edge after the edges before it were tried. Of the outcomes of its
    statement one is pursued after those before it, and of the results of the data analysis for
    this outcome one after those before it. -/
structure Passage (c : Control σ) (k k' : Scheduler) (m : Move σ) where
  {t t₁ : Thread}
  {actor : Actor}
  {edges edges' : List (Operation × Place)}
  {outcomes outcomes' : List (ControlState.Outcome σ)}
  {s₁ : ControlState σ}
  {settled : Bool}
  {states states' : List σ}
  {data : σ}
  {tried sooner before : List (List (ControlState σ))}
  {next all : List (ControlState σ)}
  {k₁ k₂ k₃ k₄ k₅ : Scheduler}
  noTarget : m.source.isTarget = false
  running : m.source.running = [m.index]
  thread : m.source.threads[m.index]? = some t
  acting : k.app.actorNamed t.actor = .ok actor
  leaving : k.app.leaving m.source t = .ok (edges ++ m.edge :: edges')
  triedEdges : Gives (edges.mapM (takeEdge c m.source m.index actor.concern)) k tried k₁
  followed : Gives (follow m.source m.index m.edge.1 m.edge.2) k₁
    (outcomes ++ (s₁, settled) :: outcomes') k₂
  soonerOutcomes : Gives (outcomes.mapM (settle c m.index actor.concern m.edge.1)) k₂ sooner k₃
  moved : s₁.threads[m.index]? = some t₁
  operations : m.operations = if settled then [] else dataOperations t₁ m.edge.1
  analysed : dataAfter c s₁ settled t₁ m.edge.1 actor.concern = .ok (states ++ data :: states')
  beforeStates : Gives (states.mapM (complete c s₁ m.index t₁ actor.concern)) k₃ before k₄
  completed : Gives (complete c s₁ m.index t₁ actor.concern data) k₄ next k₅
  reached : m.target ∈ next
  grown : k₅.app.Extends k'.app
  whole : Gives (successors c m.source) k all k'
  offered : m.target ∈ all

/-- Every successor of a state is reached by a move that the state offers. -/
theorem passage_of_gives_successors (c : Control σ) (s s' : ControlState σ) (k k' : Scheduler)
    (all : List (ControlState σ)) (h : Gives (successors c s) k all k') (hs' : s' ∈ all) :
    ∃ index edge operations, Nonempty (Passage c k k' ⟨s, index, edge, operations, s'⟩) := by
  have hwhole := h
  -- A target and a state in which nobody runs have no successors, and several running threads are
  -- an error.
  unfold successors at h
  split at h
  · rcases (gives_pure _ _ _ _).mp h with ⟨rfl, rfl⟩
    cases hs'
  next htarget =>
    split at h
    · exact absurd h (not_gives_throw _ _ _ _)
    · split at h
      · rcases (gives_pure _ _ _ _).mp h with ⟨rfl, rfl⟩
        cases hs'
      next index hrunning =>
        unfold stepThread at h
        rw [gives_program_bind] at h
        rcases (gives_lookUp_bind _ _ _ _ _).mp h with ⟨t, hthread, h⟩
        rcases (gives_lookUp_bind _ _ _ _ _).mp h with ⟨actor, hactor, h⟩
        rcases (gives_lookUp_bind _ _ _ _ _).mp h with ⟨edges, hedges, h⟩
        split at h
        · rcases (gives_bind _ _ _ _ _).mp h with ⟨_, _, hthrow, _⟩
          exact absurd hthrow (not_gives_throw _ _ _ _)
        · rcases (gives_bind _ _ _ _ _).mp h with ⟨found, k₆, hfound, h⟩
          rcases (gives_pure _ _ _ _).mp h with ⟨rfl, rfl⟩
          -- An edge leads to outcomes, each outcome to results of the analysis, and each of
          -- these to states.
          rcases List.mem_flatten.mp hs' with ⟨results, hresults, hmem⟩
          rcases gives_mapM_split _ edges k k₆ found hfound results hresults with
            ⟨sooner, edge, later, tried, _, k₁, k₇, rfl, hearlier, hedge, hlater⟩
          unfold takeEdge at hedge
          rcases (gives_bind _ _ _ _ _).mp hedge with ⟨outcomes, k₂, hfollow, hedge⟩
          rcases (gives_bind _ _ _ _ _).mp hedge with ⟨settledAll, k₈, hsettle, hflat⟩
          rcases (gives_pure _ _ _ _).mp hflat with ⟨rfl, rfl⟩
          rcases List.mem_flatten.mp hmem with ⟨final, hfinal, hlast⟩
          rcases gives_mapM_split _ outcomes k₂ k₈ settledAll hsettle final hfinal with
            ⟨first, ⟨s₁, settled⟩, rest, settledStates, _, k₃, k₉, rfl, hsooner, hone, hrest⟩
          unfold settle at hone
          dsimp only at hone
          rcases (gives_lookUp_bind _ _ _ _ _).mp hone with ⟨t₁, hmoved, hone⟩
          rcases (gives_lookUp_bind _ _ _ _ _).mp hone with ⟨states, hdata, hone⟩
          rcases (gives_bind _ _ _ _ _).mp hone with ⟨completedAll, k₁₀, hcomplete, hflat⟩
          rcases (gives_pure _ _ _ _).mp hflat with ⟨rfl, rfl⟩
          rcases List.mem_flatten.mp hlast with ⟨next, hnext, hreached⟩
          rcases gives_mapM_split _ states k₃ k₁₀ completedAll hcomplete next hnext with
            ⟨lower, data, upper, completedStates, _, k₄, k₅, rfl, hbefore, hcompleted, hupper⟩
          rw [thread_ok] at hthread hmoved
          -- What came about after the state that is pursued has only added to the program.
          have hgrown : k₅.app.Extends k₆.app := App.extends_trans _ _ _
            (extends_of_gives _ (grows_mapM _ _ fun d _ => grows_complete c _ _ _ _ d) _ _ _ hupper)
            (App.extends_trans _ _ _
              (extends_of_gives _ (grows_mapM _ _ fun o _ => grows_settle c _ _ _ o) _ _ _ hrest)
              (extends_of_gives _ (grows_mapM _ _ fun e _ => grows_takeEdge c _ _ _ e) _ _ _
                hlater))
          exact ⟨index, edge, if settled then [] else dataOperations t₁ edge.1,
            ⟨⟨by simpa using htarget, hrunning, hthread, hactor, hedges, hearlier, hfollow, hsooner,
              hmoved, rfl, hdata, hbefore, hcompleted, hreached, hgrown, hwhole, hs'⟩⟩⟩
      · exact absurd h (not_gives_throw _ _ _ _)

/-- Who moves, and along which edge, in a state in which only one thread runs. -/
theorem edge_of_passage (c : Control σ) (k k' : Scheduler) (m : Move σ)
    (w : Passage c k k' m) (i : Nat) (t : Thread) (edges : List (Operation × Place))
    (hrunning : m.source.running = [i]) (ht : m.source.threads[i]? = some t)
    (hedges : k.app.leaving m.source t = .ok edges) :
    m.index = i ∧ w.t = t ∧ m.edge ∈ edges := by
  have hindex := w.running
  rw [hrunning] at hindex
  -- The list of those that run has one member, so its index and the thread there are known.
  have hi := List.singleton_inj.mp hindex
  have hthread := w.thread
  rw [← hi, ht] at hthread
  have hleaving := w.leaving
  rw [← Option.some.inj hthread, hedges] at hleaving
  refine ⟨hi.symm, (Option.some.inj hthread).symm, ?_⟩
  rw [Except.ok.inj hleaving]
  exact List.mem_append_right _ List.mem_cons_self

/-- The phases of a step without what came about before them. -/
theorem step_of_passage (c : Control σ) (k k' : Scheduler) (m : Move σ) (w : Passage c k k' m) :
    Step c k.app k'.app m.source m.target :=
  step_of_gives_successors c m.source m.target k k' w.all w.whole w.offered

/-- What the statement of a move does. -/
theorem effect_of_passage (c : Control σ) (k k' : Scheduler) (m : Move σ) (w : Passage c k k' m) :
    ∃ loops, Effect w.k₁.app w.k₂.app
      (m.source.setThread m.index { w.t with loops := loops, place := m.edge.2 }) m.index
      { w.t with loops := loops, place := m.edge.2 } m.edge.1.statement w.s₁ := by
  rcases effect_of_gives_follow m.source m.index m.edge.1 m.edge.2 w.t w.k₁ w.k₂ _ w.thread
    w.followed with ⟨loops, heffect⟩
  exact ⟨loops, heffect (w.s₁, w.settled) (List.mem_append_right _ List.mem_cons_self)⟩

/-- The thread that makes a move, after its statement. -/
theorem executed_of_passage (c : Control σ) (k k' : Scheduler) (m : Move σ)
    (w : Passage c k k' m) : ∃ loops, Executed w.k₁.app
      (m.source.setThread m.index { w.t with loops := loops, place := m.edge.2 })
      m.edge.1.statement w.t₁ := by
  rcases effect_of_passage c k k' m w with ⟨loops, heffect⟩
  let moved : Thread := { w.t with loops := loops, place := m.edge.2 }
  have hruns : moved.status = .running :=
    m.source.isRunning_of_running m.index w.t w.running w.thread
  have hmoved : (m.source.threads.set m.index moved)[m.index]? = some moved :=
    List.getElem?_set_self (List.getElem?_eq_some_iff.mp w.thread).1
  exact ⟨loops, executed_of_effect _ _ _ w.s₁ m.index moved _ hruns hmoved heffect w.t₁ w.moved⟩

/-- The data after the statement of a move. It is a result of the operations of the move, unless
    the statement was settled without them. -/
theorem data_of_passage (c : Control σ) (k k' : Scheduler) (m : Move σ) (w : Passage c k k' m) :
    (w.settled = true ∧ m.operations = [] ∧ w.data = w.s₁.data)
      ∨ (w.settled = false ∧ m.operations = dataOperations w.t₁ m.edge.1
        ∧ ∃ found, c.analysis.run w.s₁.data m.operations w.actor.concern = .ok found
          ∧ w.data ∈ found) := by
  have hmem : w.data ∈ w.states ++ w.data :: w.states' :=
    List.mem_append_right _ List.mem_cons_self
  have hoperations := w.operations
  have hanalysed := w.analysed
  unfold dataAfter at hanalysed
  dsimp only at hanalysed
  -- A statement that is settled leaves the data alone. Otherwise the analysis has performed the
  -- operations.
  cases hsettled : w.settled with
  | true =>
      rw [hsettled, if_pos rfl] at hoperations hanalysed
      rw [← (except_pure_ok _ _).mp hanalysed] at hmem
      exact Or.inl ⟨rfl, hoperations, List.mem_singleton.mp (List.mem_of_mem_filter hmem)⟩
  | false =>
      rw [hsettled, if_neg Bool.false_ne_true] at hoperations hanalysed
      rw [← hoperations] at hanalysed
      rcases (except_bind_ok _ _ _).mp hanalysed with ⟨found, hfound, hfeasible⟩
      rw [← (except_pure_ok _ _).mp hfeasible] at hmem
      exact Or.inr ⟨rfl, hoperations, found, hfound, List.mem_of_mem_filter hmem⟩

theorem extends_of_passage (c : Control σ) (k k' : Scheduler) (m : Move σ) (w : Passage c k k' m) :
    k.app.Extends k'.app :=
  extends_of_gives _ (grows_successors c m.source) k k' w.all w.whole

/-- Whatever relates two schedulers if one adds something relates those of all phases of a move. -/
theorem related_of_passage {R : Scheduler → Scheduler → Prop} (hR : Additive R)
    (c : Control σ) (k k' : Scheduler) (m : Move σ) (w : Passage c k k' m) :
    R k w.k₁ ∧ R w.k₁ w.k₂ ∧ R w.k₂ w.k₄ ∧ R w.k₄ w.k₅ := by
  refine ⟨?_, ?_, hR.trans _ w.k₃ _ ?_ ?_, ?_⟩
  · exact related_of_gives _ _ (keeps_mapM hR.modest _ _ fun e _ => keeps_takeEdge hR c _ _ _ e)
      _ _ _ w.triedEdges
  · exact related_of_gives _ _ (keeps_follow hR _ _ _ _) _ _ _ w.followed
  · exact related_of_gives _ _ (keeps_mapM hR.modest _ _ fun o _ =>
      keeps_settle hR.modest c _ _ _ o) _ _ _ w.soonerOutcomes
  · exact related_of_gives _ _ (keeps_mapM hR.modest _ _ fun d _ =>
      keeps_complete hR.modest c _ _ _ _ d) _ _ _ w.beforeStates
  · exact related_of_gives _ _ (keeps_complete hR.modest c _ _ _ _ _) _ _ _ w.completed

/-- A run of a program of which nothing else is explored, with the moves it has made so far. -/
inductive Journey (c : Control σ) (app : App) (data : σ) :
    List (Move σ) → Scheduler → ControlState σ → Prop where
  | start (k : Scheduler) (s : ControlState σ)
      (gives : Gives (startState data) (Scheduler.new app) s k) : Journey c app data [] k s
  | move (moves : List (Move σ)) (m : Move σ) (k k' : Scheduler)
      (before : Journey c app data moves k m.source) (passage : Passage c k k' m) :
      Journey c app data (moves ++ [m]) k' m.target

end Scheduler

namespace Session

variable {σ : Type} [DecidableEq σ]

/-- One path through a session, from a state in which the program has started to the state that
    is named. The moves are listed from the last one to the first one. -/
inductive Course (c : Control σ) (app : App) :
    Session σ → ControlState σ → List (Move σ) → Prop where
  | start (x : Session σ) (data : σ) (s : ControlState σ) (k : Scheduler)
      (h : Explored c app x) (hs : Gives (Scheduler.startState data) x.scheduler s k) :
      Course c app (x.start data) s []
  | move (x : Session σ) (m : Move σ) (moves : List (Move σ)) (k : Scheduler)
      (h : Course c app x m.source moves) (w : Scheduler.Passage c x.scheduler k m) :
      Course c app (x.expand c m.source) m.target (m :: moves)
  /-- The program is started once more. -/
  | restarted (x : Session σ) (s : ControlState σ) (moves : List (Move σ)) (data : σ)
      (h : Course c app x s moves) : Course c app (x.start data) s moves
  /-- A state is expanded that need not lie on the path. -/
  | expanded (x : Session σ) (s : ControlState σ) (moves : List (Move σ)) (u : ControlState σ)
      (h : Course c app x s moves) (hu : u ∈ x.found) : Course c app (x.expand c u) s moves

omit [DecidableEq σ] in
theorem mem_start (x : Session σ) (data : σ) (s : ControlState σ) (hs : s ∈ x.found) :
    s ∈ (x.start data).found := by
  rw [start_eq]
  exact (mem_found_extend _ _ _ _).mpr (Or.inl hs)

theorem mem_expand (c : Control σ) (x : Session σ) (s u : ControlState σ) (hs : s ∈ x.found) :
    s ∈ (x.expand c u).found := by
  rw [expand_eq]
  exact (mem_found_extend _ _ _ _).mpr (Or.inl hs)

omit [DecidableEq σ] in
theorem mem_start_of_gives (x : Session σ) (data : σ) (s : ControlState σ) (k : Scheduler)
    (h : Gives (Scheduler.startState data) x.scheduler s k) : s ∈ (x.start data).found := by
  rw [start_eq, h]
  exact (mem_found_extend _ _ _ _).mpr (Or.inr ⟨[s], rfl, List.mem_singleton_self s⟩)

theorem mem_expand_of_passage (c : Control σ) (x : Session σ) (k : Scheduler) (m : Move σ)
    (w : Scheduler.Passage c x.scheduler k m) : m.target ∈ (x.expand c m.source).found := by
  rw [expand_eq, w.whole]
  exact (mem_found_extend _ _ _ _).mpr (Or.inr ⟨w.all, rfl, w.offered⟩)

/-- An invariant of the states that were found, together with one of the scheduler. The one of the
    scheduler is kept by whatever the scheduler adds. The one of states survives additions to the
    program, holds at the start and is kept by every move. -/
theorem invariant_of_moves (c : Control σ) (app : App) (K : Scheduler → Prop)
    (J : App → ControlState σ → Prop) (hnew : K (Scheduler.new app))
    (hadds : Scheduler.Additive fun k k' => K k → K k')
    (hmono : ∀ (k : Scheduler) (b : App) (s : ControlState σ), K k → k.app.Extends b →
      J k.app s → J b s)
    (hstart : ∀ (data : σ) (k k' : Scheduler) (s : ControlState σ),
      Gives (Scheduler.startState data) k s k' → J k'.app s)
    (hmove : ∀ (y : Session σ) (k : Scheduler) (m : Move σ), Explored c app y →
      m.source ∈ y.found → K y.scheduler → J y.scheduler.app m.source →
      Scheduler.Passage c y.scheduler k m → J k.app m.target)
    (x : Session σ) (h : Explored c app x) :
    K x.scheduler ∧ ∀ s ∈ x.found, J x.scheduler.app s := by
  -- By induction on the session, with both invariants at once, since the one of states relies on
  -- that of the scheduler.
  induction h with
  | new => exact ⟨hnew, nofun⟩
  | start x data hx ih =>
      have hext := Scheduler.grows_startState data x.scheduler
      rw [start_eq, scheduler_extend]
      refine ⟨Scheduler.keeps_startState hadds.modest data x.scheduler ih.1, fun s hs => ?_⟩
      rcases (mem_found_extend _ _ _ _).mp hs with hs | ⟨states, hfound, hs⟩
      · exact hmono _ _ s ih.1 hext (ih.2 s hs)
      · rcases hrun : ((Scheduler.startState data).run x.scheduler).1 with e | s₀
        · rw [hrun] at hfound
          cases hfound
        · rw [hrun] at hfound
          cases hfound
          rw [List.mem_singleton.mp hs]
          exact hstart data x.scheduler _ s₀ (Prod.ext hrun rfl)
  | expand x s₀ hx hs₀ ih =>
      have hext := Scheduler.grows_successors c s₀ x.scheduler
      rw [expand_eq, scheduler_extend]
      refine ⟨Scheduler.keeps_successors hadds c s₀ x.scheduler ih.1, fun s hs => ?_⟩
      rcases (mem_found_extend _ _ _ _).mp hs with hs | ⟨next, hfound, hs⟩
      · exact hmono _ _ s ih.1 hext (ih.2 s hs)
      · rcases Scheduler.passage_of_gives_successors c s₀ s x.scheduler _ next
          (Prod.ext hfound rfl) hs with ⟨index, edge, operations, ⟨w⟩⟩
        exact hmove x _ _ hx hs₀ ih.1 (ih.2 s₀ hs₀) w

/-- A course goes through states that were found. -/
theorem explored_of_course (c : Control σ) (app : App) (x : Session σ) (s : ControlState σ)
    (moves : List (Move σ)) (h : Course c app x s moves) : Explored c app x ∧ s ∈ x.found := by
  -- Each constructor of courses is one of sessions.
  induction h with
  | start x data s k hx hs => exact ⟨.start x data hx, mem_start_of_gives x data s k hs⟩
  | move x m moves k _ w ih => exact ⟨.expand x m.source ih.1 ih.2, mem_expand_of_passage c x k m w⟩
  | restarted x s moves data _ ih => exact ⟨.start x data ih.1, mem_start x data s ih.2⟩
  | expanded x s moves u _ hu ih => exact ⟨.expand x u ih.1 hu, mem_expand c x s u ih.2⟩

/-- A course leads to every state that was found. -/
theorem course_of_explored (c : Control σ) (app : App) (x : Session σ) (h : Explored c app x) :
    ∀ s ∈ x.found, ∃ moves, Course c app x s moves := by
  -- Each state that was found is the start of a course or prolongs one by a move. A course to an
  -- older state goes on alongside.
  induction h with
  | new => exact nofun
  | start x data hx ih =>
      intro s hs
      rw [start_eq] at hs
      rcases (mem_found_extend _ _ _ _).mp hs with hs | ⟨states, hfound, hs⟩
      · rcases ih s hs with ⟨moves, h⟩
        exact ⟨moves, .restarted x s moves data h⟩
      · rcases hrun : ((Scheduler.startState data).run x.scheduler).1 with e | s₀
        · rw [hrun] at hfound
          cases hfound
        · rw [hrun] at hfound
          cases hfound
          rw [List.mem_singleton.mp hs]
          exact ⟨[], .start x data s₀ _ hx (Prod.ext hrun rfl)⟩
  | expand x s₀ hx hs₀ ih =>
      intro s hs
      rw [expand_eq] at hs
      rcases (mem_found_extend _ _ _ _).mp hs with hs | ⟨next, hfound, hs⟩
      · rcases ih s hs with ⟨moves, h⟩
        exact ⟨moves, .expanded x s moves s₀ h hs₀⟩
      · rcases Scheduler.passage_of_gives_successors c s₀ s x.scheduler _ next
          (Prod.ext hfound rfl) hs with ⟨index, edge, operations, ⟨w⟩⟩
        rcases ih s₀ hs₀ with ⟨moves, h⟩
        exact ⟨⟨s₀, index, edge, operations, s⟩ :: moves, .move x _ moves _ h w⟩

/-- A course without moves ends in the state in which the program was started. -/
theorem course_nil (c : Control σ) (app : App) (x : Session σ) (s : ControlState σ)
    (h : Course c app x s []) : ∃ (data : σ) (k k' : Scheduler),
      Gives (Scheduler.startState data) k s k' ∧ app.Extends k'.app
        ∧ k'.app.Extends x.scheduler.app := by
  -- The list of moves is a variable for the induction, which is on the course: its last steps may
  -- have explored something else.
  generalize hmoves : ([] : List (Move σ)) = moves at h
  induction h with
  | start x data s k hx hs =>
      refine ⟨data, x.scheduler, k, hs, App.extends_trans _ _ _ (extends_of_explored c app x hx)
        (Scheduler.extends_of_gives _ (Scheduler.grows_startState data) _ k s hs), ?_⟩
      rw [start_eq, scheduler_extend, hs]
      exact App.extends_refl k.app
  | move y m moves' k hy w _ => cases hmoves
  | restarted x s moves' data _ ih =>
      rcases ih hmoves with ⟨data', k, k', hs, happ, hext⟩
      refine ⟨data', k, k', hs, happ, App.extends_trans _ _ _ hext ?_⟩
      rw [start_eq, scheduler_extend]
      exact Scheduler.grows_startState data x.scheduler
  | expanded x s moves' u _ _ ih =>
      rcases ih hmoves with ⟨data', k, k', hs, happ, hext⟩
      refine ⟨data', k, k', hs, happ, App.extends_trans _ _ _ hext ?_⟩
      rw [expand_eq, scheduler_extend]
      exact Scheduler.grows_successors c u x.scheduler

/-- The last move of a course, and the course before it. -/
theorem course_cons (c : Control σ) (app : App) (x : Session σ) (s : ControlState σ) (m : Move σ)
    (moves : List (Move σ)) (h : Course c app x s (m :: moves)) :
    s = m.target ∧ ∃ (y : Session σ) (k : Scheduler), Course c app y m.source moves
      ∧ Nonempty (Scheduler.Passage c y.scheduler k m) ∧ k.app.Extends x.scheduler.app := by
  -- As before, what was explored alongside comes after the last move.
  generalize hmoves : m :: moves = all at h
  induction h with
  | start x data s k hx hs => cases hmoves
  | move y m' moves' k hy w _ =>
      cases hmoves
      refine ⟨rfl, y, k, hy, ⟨w⟩, ?_⟩
      rw [expand_eq, scheduler_extend, w.whole]
      exact App.extends_refl k.app
  | restarted x s moves' data _ ih =>
      rcases ih hmoves with ⟨hs, y, k, hy, hw, hext⟩
      refine ⟨hs, y, k, hy, hw, App.extends_trans _ _ _ hext ?_⟩
      rw [start_eq, scheduler_extend]
      exact Scheduler.grows_startState data x.scheduler
  | expanded x s moves' u _ _ ih =>
      rcases ih hmoves with ⟨hs, y, k, hy, hw, hext⟩
      refine ⟨hs, y, k, hy, hw, App.extends_trans _ _ _ hext ?_⟩
      rw [expand_eq, scheduler_extend]
      exact Scheduler.grows_successors c u x.scheduler

/-- The part of a course up to one of its moves is a course. -/
theorem course_of_append (c : Control σ) (app : App) (x : Session σ) (s : ControlState σ)
    (m : Move σ) (later earlier : List (Move σ)) (h : Course c app x s (later ++ m :: earlier)) :
    ∃ y, Course c app y m.target (m :: earlier) := by
  -- The later moves are taken off one by one.
  induction later generalizing x s with
  | nil =>
      rcases course_cons c app x s m earlier h with ⟨rfl, _⟩
      exact ⟨x, h⟩
  | cons m' later ih =>
      rcases course_cons c app x s m' (later ++ m :: earlier) h with ⟨_, y, k, hy, _⟩
      exact ih y m'.source hy

omit [DecidableEq σ] in
/-- A course begins with the state in which the program starts. -/
theorem gives_of_start (x : Session σ) (data : σ) (s : ControlState σ)
    (hnew : x.found.length < (x.start data).found.length)
    (hs : (x.start data).found.getLast? = some s) :
    ∃ k, Gives (Scheduler.startState data) x.scheduler s k := by
  rw [start_eq] at hnew hs
  -- A failure would have found nothing, but there is one state more.
  rcases hrun : (Scheduler.startState data).run x.scheduler with ⟨_ | s₀, k⟩
  · rw [hrun] at hnew
    exact absurd hnew (Nat.lt_irrefl _)
  · rw [hrun] at hs
    have hlast : (x.found ++ [s₀]).getLast? = some s := hs
    rw [List.getLast?_concat] at hlast
    cases hlast
    exact ⟨k, hrun⟩

/-- The state that is found last when the last state is expanded is reached by a move. -/
theorem passage_of_expandLast (c : Control σ) (x : Session σ)
    (hnew : x.found.length < (x.expandLast c).found.length) :
    ∃ (m : Move σ) (k : Scheduler), x.found.getLast? = some m.source
      ∧ (x.expandLast c).found.getLast? = some m.target ∧ x.expandLast c = x.expand c m.source
      ∧ Nonempty (Scheduler.Passage c x.scheduler k m) := by
  unfold expandLast at hnew ⊢
  rcases hs : x.found.getLast? with _ | s
  · rw [hs] at hnew
    exact absurd hnew (Nat.lt_irrefl _)
  · rw [hs] at hnew
    dsimp only at hnew ⊢
    rcases hrun : (Scheduler.successors c s).run x.scheduler with ⟨_ | next, k⟩
    · rw [expand_eq, hrun] at hnew
      exact absurd hnew (Nat.lt_irrefl _)
    · have hfound : (x.expand c s).found = x.found ++ next := by
        rw [expand_eq, hrun]
        rfl
      -- The state that is found last is one of the successors.
      have hne : next ≠ [] := by
        rintro rfl
        rw [hfound, List.append_nil] at hnew
        exact Nat.lt_irrefl _ hnew
      have hlast := List.getLast?_eq_some_getLast hne
      rcases Scheduler.passage_of_gives_successors c s _ x.scheduler k next hrun
        (List.getLast_mem hne) with ⟨index, edge, operations, hw⟩
      refine ⟨⟨s, index, edge, operations, next.getLast hne⟩, k, rfl, ?_, rfl, hw⟩
      rw [hfound, List.getLast?_append_of_ne_nil _ hne]
      exact hlast

/-- A course begins where a session starts the program. -/
theorem course_of_start (c : Control σ) (app : App) (x : Session σ) (data : σ)
    (hx : Explored c app x) (hnew : x.found.length < (x.start data).found.length) :
    ∃ s, (x.start data).found.getLast? = some s ∧ Course c app (x.start data) s [] := by
  have hne : (x.start data).found ≠ [] := by
    intro hempty
    rw [hempty] at hnew
    exact Nat.not_lt_zero _ hnew
  refine ⟨_, List.getLast?_eq_some_getLast hne, ?_⟩
  rcases gives_of_start x data _ hnew (List.getLast?_eq_some_getLast hne) with ⟨k, hk⟩
  exact .start x data _ k hx hk

/-- A session in which the last state is expanded again and again goes along a course. -/
theorem course_of_expansions (c : Control σ) (app : App) (f : Nat → Session σ)
    (hf : ∀ n, f (n + 1) = (f n).expandLast c)
    (hstart : ∃ s, (f 0).found.getLast? = some s ∧ Course c app (f 0) s []) (n : Nat)
    (hgrows : ∀ i < n, (f i).found.length < (f (i + 1)).found.length) :
    ∃ s moves, Course c app (f n) s moves ∧ (f n).found.getLast? = some s ∧ moves.length = n
      ∧ ∀ (i : Nat) (m : Move σ), moves.reverse[i]? = some m →
        m.source ∈ (f i).found.getLast? ∧ m.target ∈ (f (i + 1)).found.getLast?
          ∧ ∃ k, Nonempty (Scheduler.Passage c (f i).scheduler k m) := by
  -- By induction on the number of expansions, each of which prolongs the course by one move.
  induction n with
  | zero =>
      rcases hstart with ⟨s, hs, hcourse⟩
      refine ⟨s, [], hcourse, hs, rfl, fun i m hm => ?_⟩
      cases hm
  | succ n ih =>
      rcases ih fun i hi => hgrows i (Nat.lt_succ_of_lt hi) with ⟨s, moves, h, hs, hlength, hmoves⟩
      have hnew := hgrows n (Nat.lt_succ_self n)
      rw [hf n] at hnew
      rcases passage_of_expandLast c (f n) hnew with ⟨m, k, hsource, htarget, hexpand, ⟨w⟩⟩
      rw [hs] at hsource
      cases hsource
      have hcourse := Course.move (f n) m moves k h w
      rw [← hexpand, ← hf n] at hcourse
      rw [← hf n] at htarget
      refine ⟨m.target, m :: moves, hcourse, htarget, congrArg Nat.succ hlength, fun i m' hm' => ?_⟩
      rw [List.reverse_cons] at hm'
      -- The move that is listed first is the last one.
      rcases Nat.lt_or_ge i moves.reverse.length with hi | hi
      · rw [List.getElem?_append_left hi] at hm'
        exact hmoves i m' hm'
      · rw [List.getElem?_append_right hi] at hm'
        have hi' : i = n := by
          have hlt := (List.getElem?_eq_some_iff.mp hm').1
          rw [List.length_singleton] at hlt
          rw [List.length_reverse] at hi hlt
          omega
        rw [hi', List.length_reverse, hlength, Nat.sub_self] at hm'
        cases hm'
        rw [hi']
        exact ⟨hs, htarget, k, ⟨w⟩⟩

end Session

end ActorCheck
