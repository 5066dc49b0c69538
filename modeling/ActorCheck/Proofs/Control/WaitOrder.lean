import ActorCheck.Proofs.Control.Passages
import ActorCheck.Proofs.Control.WakeUps

/-!
# No Circular Waiting

No thread of a program waits for itself, directly or through others. Nothing in the program checks
this. It follows from what a message does that is sent with waiting: the receivers have just been
started again, so they wait for nobody, and the sender is not among them.

`Ranked` is the invariant. It asks for a rank of every number such that whoever waits has a higher
rank than those it waits for. A sender that begins to wait forces new ranks: its receivers get the
lowest one, and all others are lifted by one. This is possible although receivers may have been
waited for before, and may have waited themselves. Whatever else a step does makes threads wait
for less or for a number that no thread has, and the ranks can stay.

## Main definitions

* `ControlState.WaitsFor`: A thread waits for another one.
* `Ranked`: Waiting goes from higher ranks to lower ones.

## Theorems

* `ranked_of_fewer`: Ranks survive if threads wait for less.
* `ranked_of_asked`: Ranks after a sender has begun to wait for its receivers.
* `Scheduler.ranked_of_effect`: Ranks after a statement.
* `Scheduler.ranked_of_passage`: Ranks after a step.
* `Session.no_circular_waiting`: Waiting leads to no thread twice.
-/

namespace ActorCheck

/-- The thread at an index waits for the thread at another one: it has the number of that thread
    in its waiting set. -/
def ControlState.WaitsFor {σ : Type} (s : ControlState σ) (i j : Nat) : Prop :=
  ∃ t u, s.threads[i]? = some t ∧ s.threads[j]? = some u ∧ u.id ∈ t.waitingFor

instance {σ : Type} (s : ControlState σ) (i j : Nat) : Decidable (s.WaitsFor i j) :=
  decidable_of_iff (∃ t ∈ s.threads[i]?, ∃ u ∈ s.threads[j]?, u.id ∈ t.waitingFor)
    ⟨fun ⟨t, ht, u, hu, hid⟩ => ⟨t, u, ht, hu, hid⟩, fun ⟨t, u, ht, hu, hid⟩ => ⟨t, ht, u, hu, hid⟩⟩

/-- Some rank of the numbers decreases from whoever waits to those it waits for. -/
def Ranked (threads : List Thread) : Prop :=
  ∃ rank : ThreadId → Nat, ∀ t ∈ threads, ∀ u ∈ threads, u.id ∈ t.waitingFor →
    rank u.id < rank t.id

/-- Threads that do not wait have any rank. -/
theorem ranked_of_free (threads : List Thread) (h : ∀ t ∈ threads, t.waitingFor = ∅) :
    Ranked threads := by
  refine ⟨fun _ => 0, fun t ht u _ hid => ?_⟩
  rw [h t ht] at hid
  exact absurd hid Std.ExtTreeSet.not_mem_empty

/-- The ranks survive if no thread begins to wait for another one. -/
theorem ranked_of_fewer (ts us : List Thread)
    (hfewer : ∀ v ∈ us, ∃ t ∈ ts, t.id = v.id
      ∧ ∀ w ∈ us, w.id ∈ v.waitingFor → w.id ∈ t.waitingFor)
    (h : Ranked ts) : Ranked us := by
  rcases h with ⟨rank, hrank⟩
  refine ⟨rank, fun v hv w hw hid => ?_⟩
  rcases hfewer v hv with ⟨t, ht, htv, hwaits⟩
  rcases hfewer w hw with ⟨u, hu, huw, _⟩
  rw [← htv, ← huw]
  refine hrank t ht u hu ?_
  rw [huw]
  exact hwaits w hw hid

/-- A sender begins to wait for its receivers. They wait for nobody, and it is none of them. -/
theorem ranked_of_asked (ts : List Thread) (receivers : Std.ExtTreeSet ThreadId)
    (hnodup : (ts.map Thread.id).Nodup)
    (hfree : ∀ id, id ∈ receivers → ∃ u ∈ ts, u.id = id ∧ u.waitingFor = ∅) (i : Nat)
    (t u : Thread) (ht : ts[i]? = some t) (hid : u.id = t.id) (hothers : t.id ∉ receivers)
    (hwaits : u.waitingFor = receivers) (h : Ranked ts) : Ranked (ts.set i u) := by
  rcases h with ⟨rank, hrank⟩
  -- The receivers get the lowest rank, and everybody else is lifted above it.
  refine ⟨fun id => if id ∈ receivers then 0 else rank id + 1, fun v hv w hw hvw => ?_⟩
  have hold : ∀ x ∈ ts.set i u, ∃ y ∈ ts, y.id = x.id := by
    intro x hx
    rcases List.mem_or_eq_of_mem_set hx with hx | rfl
    · exact ⟨x, hx, rfl⟩
    · exact ⟨t, List.mem_of_getElem? ht, hid.symm⟩
  dsimp only
  rcases List.mem_or_eq_of_mem_set hv with hv | rfl
  · by_cases hreceiver : v.id ∈ receivers
    -- Receivers wait for nobody.
    · rcases hfree v.id hreceiver with ⟨x, hx, hxv, hnone⟩
      rw [List.inj_on_of_nodup_map hnodup hx hv hxv] at hnone
      rw [hnone] at hvw
      exact absurd hvw Std.ExtTreeSet.not_mem_empty
    · rcases hold w hw with ⟨y, hy, hyw⟩
      have hlt := hrank v hv y hy (hyw ▸ hvw)
      rw [if_neg hreceiver, ← hyw]
      split
      · exact Nat.succ_pos _
      · exact Nat.succ_lt_succ hlt
  · rw [hwaits] at hvw
    rw [if_pos hvw, hid, if_neg hothers]
    exact Nat.succ_pos _

/-- Where there are ranks, waiting leads to no thread twice. -/
theorem acyclic_of_ranked {σ : Type} (s : ControlState σ) (h : Ranked s.threads) (i : Nat) :
    ¬ Relation.TransGen s.WaitsFor i i := by
  rcases h with ⟨rank, hrank⟩
  have hfalls : ∀ j, Relation.TransGen s.WaitsFor i j → ∃ t u, s.threads[i]? = some t
      ∧ s.threads[j]? = some u ∧ rank u.id < rank t.id := by
    -- Ranks fall along every way of waiting, by induction on its last wait.
    intro j hj
    induction hj with
    | single hwaits =>
        rcases hwaits with ⟨t, u, ht, hu, hid⟩
        exact ⟨t, u, ht, hu, hrank t (List.mem_of_getElem? ht) u (List.mem_of_getElem? hu) hid⟩
    | tail _ hwaits ih =>
        rcases ih with ⟨t, u, ht, hu, hlt⟩
        rcases hwaits with ⟨u', v, hu', hv, hid⟩
        rw [hu] at hu'
        cases hu'
        exact ⟨t, v, ht, hv, Nat.lt_trans
          (hrank u (List.mem_of_getElem? hu) v (List.mem_of_getElem? hv) hid) hlt⟩
  intro hcycle
  rcases hfalls i hcycle with ⟨t, u, ht, hu, hlt⟩
  rw [ht] at hu
  cases hu
  exact Nat.lt_irrefl _ hlt

namespace Scheduler

variable {σ : Type}

/-- The thread that executes a statement changes, but waits for the same as before. -/
theorem ranked_of_setThread (ts : List Thread) (i : Nat) (t u : Thread) (ht : ts[i]? = some t)
    (hid : u.id = t.id) (hwaits : u.waitingFor = t.waitingFor) (h : Ranked ts) :
    Ranked (ts.set i u) := by
  refine ranked_of_fewer ts _ (fun v hv => ?_) h
  rcases List.mem_or_eq_of_mem_set hv with hv | rfl
  · exact ⟨v, hv, rfl, fun _ _ hw => hw⟩
  · exact ⟨t, List.mem_of_getElem? ht, hid.symm, fun _ _ hw => hwaits ▸ hw⟩

theorem ranked_of_heard (app : App) (m : Message) (ts us : List Thread)
    (hheard : List.Forall₂ (app.Heard m) ts us) (h : Ranked ts) : Ranked us := by
  refine ranked_of_fewer ts us (fun v hv => ?_) h
  rcases mem_of_forall₂_right _ ts us hheard v hv with ⟨t, ht, htv⟩
  exact ⟨t, ht, (app.same_of_heard t v m htv).id.symm, fun w _ => app.fewer_of_heard t v m htv w.id⟩

/-- Ranks after a statement. -/
theorem ranked_of_effect (before after : App) (s s' : ControlState σ) (index : Nat) (t : Thread)
    (statement : Statement) (hlinked : before.Linked s.threads s.conditions)
    (ht : s.threads[index]? = some t) (hs : Ranked s.threads)
    (h : Effect before after s index t statement s') : Ranked s'.threads := by
  have hself : ∀ u : Thread, u.id = t.id → u.waitingFor = t.waitingFor →
      Ranked (s.threads.set index u) := fun u hid hwaits =>
    ranked_of_setThread s.threads index t u ht hid hwaits hs
  have hsent : ∀ m threads receivers, before.broadcast m s.threads = .ok (threads, receivers) →
      Ranked threads := fun m threads receivers hbroadcast =>
    ranked_of_heard before m s.threads threads
      (before.heard_of_broadcast m _ threads receivers hbroadcast).1 hs
  -- Only a message sent with waiting and a timed wait add to a waiting set. The other statements
  -- leave the sets alone or empty them.
  cases h with
  | unchanged => exact hs
  | signalled properties => exact hself _ rfl rfl
  | opened => exact hself _ rfl rfl
  | closed inside => exact hself _ rfl rfl
  | entered method args result u same waitingFor status => exact hself u same.id waitingFor
  | returned result u same waitingFor status => exact hself u same.id waitingFor
  | sent m threads receivers broadcast => exact hsent m threads receivers broadcast
  | unheard m threads broadcast => exact hsent m threads ∅ broadcast
  | asked m threads receivers sender broadcast others heard known =>
      rcases before.heard_of_broadcast m _ threads receivers broadcast with ⟨hheard, hreceivers⟩
      have hfree : ∀ id, id ∈ receivers → ∃ u ∈ threads, u.id = id ∧ u.waitingFor = ∅ := by
        intro id hid
        rcases hreceivers id hid with ⟨u, hu, huid, _, hnone⟩
        exact ⟨u, hu, huid, hnone⟩
      have hids := map_id_of_same _ _ (hheard.imp fun v w hvw => before.same_of_heard v w m hvw)
      have hsender : sender.id = t.id := by
        rcases getElem?_of_forall₂_left _ _ _ hheard index t ht with ⟨v, hv, htv⟩
        rw [known] at hv
        cases hv
        exact (before.same_of_heard t sender m htv).id
      exact ranked_of_asked threads receivers (hids ▸ before.nodup_threads _ _ hlinked) hfree index
        sender _ known rfl (hsender ▸ others) rfl (hsent m threads receivers broadcast)
  | paused args result checker ops new below ready =>
      refine ranked_of_fewer s.threads _ (fun v hv => ?_) hs
      rcases List.mem_or_eq_of_mem_set hv with hv | rfl
      · exact ⟨v, hv, rfl, fun _ _ hw => hw⟩
      -- The number that is new in the waiting set belongs to no thread.
      · refine ⟨t, List.mem_of_getElem? ht, rfl, fun w hw hid => ?_⟩
        refine (Std.ExtTreeSet.mem_insert.mp hid).resolve_left fun heq => ?_
        have hchecker : checker.id = w.id := Std.LawfulEqCmp.eq_of_compare heq
        have hdrawn : w.id < before.supply.next := by
          rcases List.mem_or_eq_of_mem_set hw with hw | rfl
          · exact hlinked.drawn w (List.mem_append_left _ hw)
          · exact hlinked.drawn t (List.mem_append_left _ (List.mem_of_getElem? ht))
        exact absurd hdrawn (Nat.not_lt.mpr (hchecker ▸ new))
  | resolved v e name => exact hs

variable [DecidableEq σ]

/-- Ranks after a step. -/
theorem ranked_of_passage (c : Control σ) (k k' : Scheduler) (m : Move σ)
    (w : Passage c k k' m) (hdrawn : k.app.RelationsDrawn)
    (hlinked : k.app.Linked m.source.threads m.source.conditions) (hs : Ranked m.source.threads) :
    Ranked m.target.threads := by
  rcases related_of_passage additive_extends c k k' m w with ⟨hext, _⟩
  rcases effect_of_passage c k k' m w with ⟨loops, heffect⟩
  let moved : Thread := { w.t with loops := loops, place := m.edge.2 }
  have hruns := m.source.isRunning_of_running m.index w.t w.running w.thread
  have horderly := hlinked.orderly w.t (List.mem_of_getElem? w.thread)
  have hlater := k.app.later_of_running w.t moved horderly hruns ⟨rfl, rfl, rfl⟩ rfl
    (by change w.t.status ≠ .wait; rw [hruns]; decide)
  have hlinkedMoved := App.linked_of_extends _ _ _ _ hext hdrawn
    (k.app.linked_of_set _ _ hlinked m.index w.t moved w.thread hlater)
  have hranked := ranked_of_effect _ _ _ w.s₁ m.index moved _ hlinkedMoved
    (List.getElem?_set_self (List.getElem?_eq_some_iff.mp w.thread).1)
    (ranked_of_setThread _ m.index w.t moved w.thread rfl rfl hs) heffect
  -- The rest of the step makes threads wait for less.
  have hcleared := ranked_of_setThread _ m.index w.t₁ { w.t₁ with operations := [] } w.moved rfl rfl
    hranked
  refine ranked_of_fewer _ _ (fun v hv => ?_) hcleared
  rcases mem_of_forall₂_right _ _ _ (ended_of_passage c k k' m w hdrawn).1 v hv with ⟨t, ht, htv⟩
  exact ⟨t, ht, (k'.app.same_of_ended t v w.actor.concern htv).id.symm,
    fun u _ => k'.app.fewer_of_ended t v w.actor.concern htv u.id⟩

omit [DecidableEq σ] in
/-- When a program starts nobody waits. -/
theorem ranked_of_gives_startState (data : σ) (k k' : Scheduler) (s : ControlState σ)
    (h : Gives (startState data) k s k') : Ranked s.threads := by
  rcases turned_of_gives_startState data k k' s h with ⟨threads, hthreads, _, _, hturned⟩
  have hnumbered := numbered_of_gives_initialThreads k k' threads hthreads
  refine ranked_of_free s.threads fun u hu => ?_
  rcases mem_of_forall₂_right _ threads s.threads hturned u hu with ⟨t, ht, htu⟩
  rw [k'.app.fewer_of_turned t u htu]
  exact (hnumbered.free t ht).1

end Scheduler

namespace Session

variable {σ : Type} [DecidableEq σ]

/-- In every state that was found, waiting leads to no thread twice, however many threads wait for
    the answers to however many messages. -/
theorem no_circular_waiting (c : Control σ) (app : App) (hdrawn : app.RelationsDrawn)
    (x : Session σ) (h : Explored c app x) (s : ControlState σ) (hs : s ∈ x.found) (i : Nat) :
    ¬ Relation.TransGen s.WaitsFor i i := by
  have hadds := Scheduler.additive_of_extends App.RelationsDrawn App.relationsDrawn_of_extends
  -- The ranks hold at the start and after every move. Which ranks they are may change from state to
  -- state.
  refine acyclic_of_ranked s ((invariant_of_moves c app (fun k => k.app.RelationsDrawn)
    (fun _ s => Ranked s.threads) hdrawn hadds (fun _ _ _ _ _ hs => hs)
    Scheduler.ranked_of_gives_startState ?_ x h).2 s hs) i
  intro y k m hy hm hk hs w
  exact Scheduler.ranked_of_passage c y.scheduler k m w hk
    (awaiting_of_explored c app hdrawn y hy m.source hm).linked hs

/-- Somebody waits for an answer while the one who answers waits for help. -/
theorem no_circular_waiting_relay : ∃ s ∈ (relaySession asking [.epsilon] 2).found,
    s.WaitsFor 0 1 ∧ s.WaitsFor 1 2 ∧ ∀ i, ¬ Relation.TransGen s.WaitsFor i i := by
  have hfound : ∃ s ∈ (relaySession asking [.epsilon] 2).found,
      s.WaitsFor 0 1 ∧ s.WaitsFor 1 2 := by
    decide +kernel
  rcases hfound with ⟨s, hs, hfirst, hsecond⟩
  exact ⟨s, hs, hfirst, hsecond, no_circular_waiting .indifferent _
    (App.relationsDrawn_of_draft _ _) _ (explored_relaySession _ _ _) s hs⟩

end Session

end ActorCheck
