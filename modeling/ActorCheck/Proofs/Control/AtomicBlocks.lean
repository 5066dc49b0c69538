import ActorCheck.Proofs.Control.Messages
import ActorCheck.Proofs.Control.Places
import ActorCheck.Proofs.Control.Rosters
import ActorCheck.Proofs.Control.TurnChecks
import ActorCheck.Proofs.Control.WakeUps

/-!
# Atomic Blocks

A thread in an atomic block keeps its turn. The turn is passed at the end of a step, and a thread
whose counter of open blocks is positive keeps it if it still runs by then and something leaves its
place. The first of these can fail, so what has to be followed is the status of the thread that has
taken the step, from its statement on to the end of the step.

After its statement the thread runs, unless it has failed, was started again by its own message, or
waits. A thread that has failed stays failed, and one that was started again has left its atomic
blocks. A thread that runs on is done if nothing leaves its place, and is started again if it is a
monitor. So as long as the statement did not make it wait, a thread that is still in an atomic block
at the end of the step runs, or it is done or failed.

A statement that makes the thread wait is different, because the wait can be over within the same
step. Those it waits for may have nothing to do, or the time to wait may be none. The thread is then
able to run, but it does not run, and has to take its turn like all others, atomic block or not.

## Main definitions

* `Move.Blocks`: The statement of a move makes the thread wait.
* `Move.LetsGo`: A move after which the thread need not be in an atomic block, or could not go on.

## Theorems

* `App.holding_of_roused`: The thread before the turn is passed.
* `App.alone_of_passTurn`: It keeps its turn in an atomic block.
* `Session.alone_of_move`, `Session.index_of_next_move`: What this makes of a move, and of the
  next one.
* `Session.blocks_not_interleaved`: The moves of an atomic block.
* `Session.interleaved_after_wait`: A wait that is over within a step.
-/

namespace ActorCheck

section Moves

variable {σ : Type}

/-- The statement of a move makes the thread wait: for some time, or for those who receive its
    message. -/
def Move.Blocks (app : App) (m : Move σ) : Prop :=
  (∃ args result, m.edge.1.statement = .call Builtin.waitSeconds args result)
    ∨ ∃ message, m.edge.1.statement = .broadcastAndWait message
      ∧ ∃ t ∈ m.source.threads, t.status ≠ .failure ∧ app.Receives message t

/-- A move may be the last one of an atomic block. Its statement makes the thread wait, or no block
    is open any more, or the thread cannot go on. -/
def Move.LetsGo (app : App) (m : Move σ) : Prop :=
  m.Blocks app ∨ ∃ t, m.target.threads[m.index]? = some t
    ∧ (t.atomic = 0 ∨ t.status = .wait ∨ t.status = .done ∨ t.status = .failure)

variable (app : App) (m : Move σ)

/-- To enter an atomic block makes nobody wait. -/
theorem not_blocks_of_beginAtomic (h : m.edge.1.statement = .beginAtomic) : ¬ m.Blocks app := by
  rintro (⟨args, result, hcall⟩ | ⟨message, hask, _⟩)
  · exact absurd (h.symm.trans hcall) nofun
  · exact absurd (h.symm.trans hask) nofun

/-- A thread that runs on in an atomic block does not let go of it. -/
theorem not_letsGo_of_running (t : Thread) (ht : m.target.threads[m.index]? = some t)
    (hinside : 0 < t.atomic) (hruns : t.status = .running) (hblocks : ¬ m.Blocks app) :
    ¬ m.LetsGo app := by
  -- None of the reasons to let go applies: the statement does not block, a block is open, and the
  -- thread runs.
  rintro (hwaits | ⟨u, hu, hnone | hover⟩)
  · exact hblocks hwaits
  · cases ht.symm.trans hu
    exact absurd hnone hinside.ne'
  · cases ht.symm.trans hu
    rw [hruns] at hover
    exact hover.elim nofun (Or.rec nofun nofun)

end Moves

namespace App

variable (app : App)

/-- The thread runs and has somewhere to go, unless it is in no atomic block, done or failed. -/
def Holding (t : Thread) : Prop :=
  t.atomic = 0 ∨ t.status = .done ∨ t.status = .failure
    ∨ (t.status = .running ∧ app.hasLeaving t = .ok true)

section Ends

variable (t u : Thread)

/-- A thread before the turn is passed, if it did not wait when its statement was interpreted. -/
theorem holding_of_roused (concern : Concern)
    (ht : t.status = .running ∨ t.status = .failure ∨ t.atomic = 0)
    (h : app.Roused concern t u) : app.Holding u := by
  rcases h with ⟨finished, started, hfinish, hstart, hrelieve⟩
  -- A thread that has not stopped has somewhere to go, if it still runs.
  have hfinished : app.Holding finished := by
    cases hfinish with
    | stopped => exact Or.inr (Or.inl rfl)
    | kept going =>
        rcases ht with hruns | hfailed | hnone
        · rw [hruns] at going
          exact Or.inr (Or.inr (Or.inr ⟨hruns, (going.resolve_left nofun).resolve_left nofun⟩))
        · exact Or.inr (Or.inr (Or.inl hfailed))
        · exact Or.inl hnone
  -- A monitor that is started again is in no atomic block.
  have hstarted : app.Holding started := by
    cases hstart with
    | kept => exact hfinished
    | restarted => exact Or.inl rfl
  -- Only a waiting thread is woken, and this one does not wait.
  cases hrelieve with
  | kept ids => exact hstarted
  | awake ids _ waits =>
      rcases hstarted with hnone | hdone | hfailed | ⟨hruns, _⟩
      · exact Or.inl hnone
      · exact absurd (waits.symm.trans hdone) nofun
      · exact absurd (waits.symm.trans hfailed) nofun
      · exact absurd (waits.symm.trans hruns) nofun

/-- A thread that is done or has failed does not get its turn. -/
theorem status_of_turned (ht : t.status = .done ∨ t.status = .failure) (h : app.Turned t u) :
    u.status = .done ∨ u.status = .failure := by
  cases h with
  | kept => exact ht
  | paused runs =>
      rw [runs] at ht
      exact ht.elim nofun nofun
  | stopped => exact Or.inl rfl
  | granted active =>
      rcases ht with ht | ht
      · rw [ht] at active
        exact active.elim nofun nofun
      · rw [ht] at active
        exact active.elim nofun nofun

end Ends

variable {σ : Type} (s s' : ControlState σ) (index : Nat) (t : Thread)
  (ht : s.threads[index]? = some t) (h : app.passTurn s index = .ok s')

include ht h

/-- A thread that runs in an atomic block and has somewhere to go keeps its turn. -/
theorem kept_of_passTurn (hruns : t.status = .running) (hinside : 0 < t.atomic)
    (hleaves : app.hasLeaving t = .ok true) : s' = s := by
  unfold passTurn at h
  rcases (except_bind_ok _ _ _).mp h with ⟨u, hu, h⟩
  rw [thread_ok, ht] at hu
  cases hu
  rcases (except_bind_ok _ _ _).mp h with ⟨more, hmore, h⟩
  cases hleaves.symm.trans hmore
  -- The turn stays where it is under this very condition.
  have hkeeps : (t.isRunning && decide (0 < t.atomic) && true) = true := by
    unfold Thread.isRunning
    rw [hruns, decide_eq_true hinside]
    rfl
  dsimp only at h
  rw [if_pos hkeeps] at h
  rcases (except_bind_ok _ _ _).mp h with ⟨next, hnext, h⟩
  cases (except_pure_ok _ _).mp hnext
  rcases (except_bind_ok _ _ _).mp h with ⟨_, _, h⟩
  exact ((except_pure_ok _ _).mp h).symm

/-- A thread that holds its turn when it is passed runs alone afterwards, unless it is in no atomic
    block, done or failed. -/
theorem alone_of_passTurn (hholding : app.Holding t) (u : Thread)
    (hu : s'.threads[index]? = some u) (hinside : 0 < u.atomic) (hdone : u.status ≠ .done)
    (halive : u.status ≠ .failure) : s'.running = [index] := by
  have hturned := related_of_forall₂ _ _ _ (app.turns_of_passTurn s s' index h).1 index t u ht hu
  have hstays := app.stays_of_turned t u hturned
  have hactive : ¬ (t.status = .done ∨ t.status = .failure) := fun hover =>
    (app.status_of_turned t u hover hturned).elim hdone halive
  rcases hholding with hnone | hover | hover | ⟨hruns, hleaves⟩
  · rw [hstays.atomic, hnone] at hinside
    exact absurd hinside (Nat.lt_irrefl 0)
  · exact absurd (Or.inl hover) hactive
  · exact absurd (Or.inr hover) hactive
  · rw [hstays.atomic] at hinside
    have hsame := app.kept_of_passTurn s s' index t ht h hruns hinside hleaves
    -- It is among the running threads after the turn is passed, and the check allows no second one.
    rcases app.turned_of_passTurn s s' index h with ⟨_, _, _, _, hcheck, _⟩
    have hmem : index ∈ s'.running := by
      rw [hsame]
      exact (s.mem_running index).mpr ⟨t, ht, hruns⟩
    have hone := ((app.checkTurn_ok s').mp hcheck).1
    rcases List.length_eq_one_iff.mp (Nat.le_antisymm hone (List.length_pos_of_mem hmem)) with
      ⟨i, hi⟩
    rw [hi, List.mem_singleton] at hmem
    rw [hi, hmem]

end App

namespace Scheduler

variable {σ : Type} [DecidableEq σ] (c : Control σ) (k k' : Scheduler) (m : Move σ)
  (w : Passage c k k' m)

/-- The thread that makes a move does not wait after its statement, unless the statement makes it
    wait. -/
theorem status_of_passage (app : App) (hext : app.Extends k.app)
    (hscripts : ∀ t ∈ m.source.threads, ∃ script, app.scriptOf t = .ok script)
    (hblocks : ¬ m.Blocks app) :
    w.t₁.status = .running ∨ w.t₁.status = .failure ∨ w.t₁.atomic = 0 := by
  rcases executed_of_passage c k k' m w with ⟨loops, hexecuted⟩
  -- By what the statement has done. Two of the cases are statements that make the thread wait,
  -- which is ruled out.
  cases hexecuted with
  | running runs => exact Or.inl runs
  | failed _ _ fails => exact Or.inr (Or.inl fails)
  | restarted _ outside => exact Or.inr (Or.inr outside)
  | paused args result call => exact absurd (Or.inl ⟨args, result, call⟩) hblocks
  | asked message threads receivers send broadcast heard =>
      refine absurd (Or.inr ⟨message, send, ?_⟩) hblocks
      have hext₁ := App.extends_trans _ _ _ hext
        (related_of_passage additive_extends c k k' m w).1
      -- There is somebody to wait for, or it would not wait.
      have hsome : ∃ id, id ∈ receivers := by
        by_contra hnone
        exact heard ((awaited_eq_empty receivers).mpr fun id hid => hnone ⟨id, hid⟩)
      rcases hsome with ⟨id, hid⟩
      rcases w.k₁.app.receives_of_mem_receivers message _ threads receivers broadcast id hid with
        ⟨t, ht, halive, hears⟩
      have hreceives : ∀ u ∈ m.source.threads, w.k₁.app.Receives message u →
          app.Receives message u := by
        intro u hu
        rcases hscripts u hu with ⟨script, hscript⟩
        exact (app.receives_iff_of_extends message u w.k₁.app hext₁ script hscript).mp
      -- The thread that moves has the same script and runs before and after it has moved.
      rcases List.mem_or_eq_of_mem_set ht with ht | rfl
      · exact ⟨t, ht, halive, hreceives t ht hears⟩
      · have hmem := List.mem_of_getElem? w.thread
        exact ⟨w.t, hmem, halive, hreceives w.t hmem
          (w.k₁.app.receives_of_same message _ w.t ⟨rfl, rfl, rfl⟩ hears)⟩

/-- The thread that makes a move, at the end of the step when the turn is passed. -/
theorem roused_of_passage (hdrawn : k.app.RelationsDrawn) :
    ∃ s v, s.threads[m.index]? = some v ∧ w.k₅.app.passTurn s m.index = .ok m.target
      ∧ w.k₅.app.Roused w.actor.concern { w.t₁ with operations := [] } v := by
  rcases related_of_passage additive_extends c k k' m w with ⟨hext₁, hext₂, hext₄, hext₅⟩
  have hdrawn₄ := App.relationsDrawn_of_extends k.app w.k₄.app (App.extends_trans _ _ _
    (App.extends_trans _ _ _ hext₁ hext₂) hext₄) hdrawn
  rcases roused_of_completed c w.k₄.app w.k₅.app w.actor.concern w.s₁ m.target m.index w.t₁
    w.data hext₅ hdrawn₄ (completed_of_gives_complete c w.s₁ m.index w.t₁ w.actor.concern w.data
      w.k₄ w.k₅ w.next w.completed m.target w.reached) with ⟨s, hroused, _, hturn⟩
  rcases getElem?_of_forall₂_left _ _ _ hroused m.index _
    (List.getElem?_set_self (List.getElem?_eq_some_iff.mp w.moved).1) with ⟨v, hv, hrousedV⟩
  exact ⟨s, v, hv, hturn, hrousedV⟩

end Scheduler

/-- Somebody works in an atomic block. Those who are asked have nothing to do, and a guest would
    like to run. -/
def shelter (work : List Statement) : AppDraft where
  name := "shelter"
  relations := [.sequence work, .sequence [], .sequence [.epsilon, .epsilon]]
  actors := [
    ⟨"worker", .program, none, [], [], [], [(.bootstrap, 0)]⟩,
    ⟨"answerer", .program, none, [], [], [], [(.messageReceived "ask" "app", 1)]⟩,
    ⟨"guest", .program, none, [], [], [], [(.bootstrap, 2)]⟩]

/-- The program of the worker, the one who answers and the guest. -/
def shelterApp (work : List Statement) : App := ((shelter work).build.run (App.new "shelter")).2

/-- The shelter after a number of steps. -/
def shelterSession (work : List Statement) : Nat → Session Unit
  | 0 => (Session.new (shelterApp work)).start ()
  | n + 1 => (shelterSession work n).expandLast .indifferent

/-- Work in two atomic blocks, one inside the other. -/
def nestedWork : List Statement := [.beginAtomic, .beginAtomic, .epsilon, .endAtomic, .endAtomic]

/-- Work in an atomic block that begins with asking. -/
def askingWork : List Statement :=
  [.beginAtomic, .broadcastAndWait ⟨.str "app", .str "ask"⟩, .epsilon]

theorem explored_shelterSession (work : List Statement) (n : Nat) :
    Session.Explored .indifferent (shelterApp work) (shelterSession work n) := by
  induction n with
  | zero => exact .start _ () .new
  | succ n ih => exact Session.explored_of_expandLast _ _ _ ih

namespace Session

section Blocks

variable {σ : Type} [DecidableEq σ] (c : Control σ) (app : App) (hdrawn : app.RelationsDrawn)
  (hd : app.Distinct)

include hdrawn hd

/-- A thread that is in an atomic block after its move runs alone, unless it waits, is done or has
    failed, or the statement of the move has made it wait. -/
theorem alone_of_move (x : Session σ) (h : Explored c app x) (k : Scheduler) (m : Move σ)
    (w : Scheduler.Passage c x.scheduler k m) (hs : m.source ∈ x.found) (hblocks : ¬ m.Blocks app)
    (u : Thread) (hu : m.target.threads[m.index]? = some u) (hinside : 0 < u.atomic)
    (hdone : u.status ≠ .done) (halive : u.status ≠ .failure) : m.target.running = [m.index] := by
  have hext := extends_of_explored c app x h
  have hdrawnX := App.relationsDrawn_of_extends _ _ hext hdrawn
  rcases Scheduler.roused_of_passage c _ k m w hdrawnX with ⟨s, v, hv, hturn, hroused⟩
  have hstatus := Scheduler.status_of_passage c _ k m w app hext
    (fun t ht => scriptOf_of_explored c app x h m.source hs hd t ht) hblocks
  have hholding := w.k₅.app.holding_of_roused { w.t₁ with operations := [] } v _ hstatus hroused
  exact w.k₅.app.alone_of_passTurn s m.target m.index v hv hturn hholding u hu hinside hdone halive

/-- After a move that does not let go of an atomic block the same thread makes the next move. -/
theorem index_of_next_move (x : Session σ) (s : ControlState σ) (m b : Move σ)
    (moves : List (Move σ)) (h : Course c app x s (m :: b :: moves)) (hholds : ¬ b.LetsGo app) :
    m.index = b.index := by
  rcases course_cons c app x s m _ h with ⟨_, y, k, hy, ⟨w⟩, _⟩
  rcases course_cons c app y m.source b moves hy with ⟨hsource, z, k', hz, ⟨w'⟩, _⟩
  rcases explored_of_course c app z b.source moves hz with ⟨hexplored, hfound⟩
  have hdrawnZ := App.relationsDrawn_of_extends _ _ (extends_of_explored c app z hexplored) hdrawn
  rcases Scheduler.stepper_of_passage c _ k' b w' hdrawnZ with ⟨u, hu, _⟩
  -- The opposite of letting go, item by item, is what keeps the turn.
  have hnever : ¬ (u.atomic = 0 ∨ u.status = .wait ∨ u.status = .done ∨ u.status = .failure) :=
    fun hover => hholds (Or.inr ⟨u, hu, hover⟩)
  rcases not_or.mp hnever with ⟨hinside, hnever⟩
  rcases not_or.mp hnever with ⟨_, hnever⟩
  rcases not_or.mp hnever with ⟨hdone, halive⟩
  have halone := alone_of_move c app hdrawn hd z hexplored k' b w' hfound
    (fun hblocks => hholds (Or.inl hblocks)) u hu (Nat.pos_of_ne_zero hinside) hdone halive
  -- The next move is made by the only thread that runs, and this is the one that has just moved.
  have hrunning := w.running
  rw [hsource, halone] at hrunning
  exact (List.singleton_inj.mp hrunning).symm

/-- In every run the moves after a thread has entered an atomic block are its own, until one of them
    lets go of the block. By induction on the moves in between, the last of which is the one that is
    listed first. -/
theorem own_moves_until_letsGo (x : Session σ) (s : ControlState σ) (m first : Move σ)
    (between earlier : List (Move σ))
    (h : Course c app x s (m :: (between ++ first :: earlier))) :
    m.index = first.index ∨ ∃ b ∈ between ++ [first], b.index = first.index ∧ b.LetsGo app := by
  induction between generalizing x s m with
  | nil =>
      by_cases hlets : first.LetsGo app
      · exact Or.inr ⟨first, List.mem_singleton_self first, rfl, hlets⟩
      · exact Or.inl (index_of_next_move c app hdrawn hd x s m first earlier h hlets)
  | cons b between ih =>
      rcases course_cons c app x s m _ h with ⟨_, y, k, hy, _, _⟩
      -- If an earlier move has let go there is nothing to show. Otherwise the move before this one
      -- was the thread's own, and the question is whether it has let go.
      rcases ih y m.source b hy with hsame | ⟨b', hb', hindex, hlets⟩
      · by_cases hlets : b.LetsGo app
        · exact Or.inr ⟨b, List.mem_cons_self, hsame, hlets⟩
        · have hnext := index_of_next_move c app hdrawn hd x s m b _ h hlets
          exact Or.inl (hnext.trans hsame)
      · exact Or.inr ⟨b', List.mem_cons_of_mem b hb', hindex, hlets⟩

/-- If a thread is still in an atomic block after its move, it runs alone, unless it waits, is done
    or has failed, or the statement of the move has made it wait. So all moves after it has entered
    an atomic block are its own, until one of them lets go of the block. -/
theorem blocks_not_interleaved (x : Session σ) (h : Explored c app x) :
    (∀ (k : Scheduler) (m : Move σ), Nonempty (Scheduler.Passage c x.scheduler k m) →
        m.source ∈ x.found → ¬ m.Blocks app → ∀ t, m.target.threads[m.index]? = some t →
        0 < t.atomic → t.status ≠ .wait → t.status ≠ .done → t.status ≠ .failure →
        m.target.running = [m.index])
      ∧ ∀ (s : ControlState σ) (later between earlier : List (Move σ)) (m first : Move σ),
        Course c app x s (later ++ m :: (between ++ first :: earlier)) →
        first.edge.1.statement = .beginAtomic →
        m.index = first.index ∨ ∃ b ∈ between ++ [first], b.index = first.index ∧ b.LetsGo app := by
  refine ⟨?_, fun s later between earlier m first hcourse _ => ?_⟩
  · rintro k m ⟨w⟩ hs hblocks t ht hinside _ hdone halive
    exact alone_of_move c app hdrawn hd x h k m w hs hblocks t ht hinside hdone halive
  · rcases course_of_append c app x s m later _ hcourse with ⟨y, hy⟩
    exact own_moves_until_letsGo c app hdrawn hd y m.target m first between earlier hy

end Blocks

/-- The worker goes on in its blocks while the guest has to wait for its turn. -/
theorem blocks_not_interleaved_shelter : ∃ (s : ControlState Unit) (second first : Move Unit),
    Course .indifferent (shelterApp nestedWork) (shelterSession nestedWork 2) s [second, first]
      ∧ first.edge.1.statement = .beginAtomic ∧ second.index = first.index
      ∧ first.target.running = [first.index] ∧ ∃ t ∈ first.target.threads, t.status = .yield := by
  have hlength : ∀ i < 3, (shelterSession nestedWork i).found.length = i + 1 := by
    decide +kernel
  have hnew : (Session.new (shelterApp nestedWork) : Session Unit).found.length
      < (shelterSession nestedWork 0).found.length := by
    rw [hlength 0 (by decide)]
    exact Nat.zero_lt_one
  rcases course_of_expansions .indifferent _ (shelterSession nestedWork) (fun _ => rfl)
    (course_of_start _ _ _ _ .new hnew) 2
    (fun i hi => by rw [hlength i (by omega), hlength (i + 1) (by omega)]; omega) with
    ⟨s, moves, h, _, hcount, hmoves⟩
  rcases List.length_eq_two.mp hcount with ⟨second, first, rfl⟩
  -- The first move enters the outer block. Afterwards the worker is in one block and runs.
  rcases hmoves 0 first rfl with ⟨hsource, htarget, k, ⟨w⟩⟩
  have henters : ∀ s ∈ (shelterSession nestedWork 0).found.getLast?, s.running = [0]
      ∧ ∃ t ∈ s.threads[0]?, ∃ edges ∈
        ((shelterSession nestedWork 0).scheduler.app.leaving s t).toOption,
        ∀ edge ∈ edges, edge.1.statement = .beginAtomic := by
    decide +kernel
  have hinside : ∀ s ∈ (shelterSession nestedWork 1).found.getLast?,
      (∃ t ∈ s.threads[0]?, t.atomic = 1 ∧ t.status = .running)
        ∧ ∃ t ∈ s.threads, t.status = .yield := by
    decide +kernel
  rcases henters first.source hsource with ⟨hrunning, t, ht, edges, hedges, hbegins⟩
  rcases Scheduler.edge_of_passage _ _ _ first w 0 t edges hrunning ht
    ((mem_toOption _ _).mp hedges) with ⟨hindex, _, hedge⟩
  rcases hinside first.target htarget with ⟨⟨u, hu, hone, hruns⟩, hguest⟩
  rw [Option.mem_def, ← hindex] at hu
  have hbegin := hbegins first.edge hedge
  have hblocks := not_blocks_of_beginAtomic (shelterApp nestedWork) first hbegin
  have hboth := fun n => blocks_not_interleaved .indifferent (shelterApp nestedWork)
    (App.relationsDrawn_of_draft _ _) (App.distinct_of_draft _ _) (shelterSession nestedWork n)
    (explored_shelterSession _ n)
  have halone := (hboth 0).1 k first ⟨w⟩ (List.mem_of_getLast? hsource) hblocks u hu
    (hone ▸ Nat.zero_lt_one) (by rw [hruns]; nofun) (by rw [hruns]; nofun) (by rw [hruns]; nofun)
  have hlets := not_letsGo_of_running _ first u hu (hone ▸ Nat.zero_lt_one) hruns hblocks
  refine ⟨s, second, first, h, hbegin, ?_, halone, hguest⟩
  refine ((hboth 2).2 s [] [] [] second first h hbegin).resolve_right ?_
  rintro ⟨b, hb, _, hover⟩
  rw [List.mem_singleton.mp hb] at hover
  exact hlets hover

/-- The wait of a thread is over within the step that has begun it, and its turn goes to somebody
    else although it is in an atomic block and able to run. -/
theorem interleaved_after_wait : ¬ ∀ (c : Control Unit) (app : App) (x : Session Unit),
    app.RelationsDrawn → app.Distinct → Explored c app x →
      ∀ (k : Scheduler) (m : Move Unit), Nonempty (Scheduler.Passage c x.scheduler k m) →
        m.source ∈ x.found → ∀ t, m.target.threads[m.index]? = some t →
        0 < t.atomic → t.status ≠ .wait → t.status ≠ .done → t.status ≠ .failure →
        m.target.running = [m.index] := by
  intro h
  -- The worker asks, and the one who is asked has nothing to do and is done at once. So the wait is
  -- over within the step, but the turn goes to the guest.
  rcases passage_of_expandLast .indifferent (shelterSession askingWork 1) (by decide +kernel) with
    ⟨m, k, hsource, htarget, _, ⟨w⟩⟩
  have hasks : ∀ s ∈ (shelterSession askingWork 1).found.getLast?, s.running = [0] := by
    decide +kernel
  have hover : ∀ s ∈ (shelterSession askingWork 2).found.getLast?, s.running = [2]
      ∧ ∃ t ∈ s.threads[0]?, t.atomic = 1 ∧ t.status = .yield := by
    decide +kernel
  have hindex : m.index = 0 :=
    List.singleton_inj.mp (w.running.symm.trans (hasks m.source hsource))
  rcases hover m.target htarget with ⟨hrunning, t, ht, hone, hyields⟩
  rw [Option.mem_def, ← hindex] at ht
  have halone := h .indifferent _ _ (App.relationsDrawn_of_draft _ _) (App.distinct_of_draft _ _)
    (explored_shelterSession askingWork 1) k m ⟨w⟩ (List.mem_of_getLast? hsource) t ht
    (hone ▸ Nat.zero_lt_one) (by rw [hyields]; nofun) (by rw [hyields]; nofun)
    (by rw [hyields]; nofun)
  rw [hrunning, hindex] at halone
  cases halone

end Session

end ActorCheck
