import ActorCheck.Proofs.Control.Courses
import ActorCheck.Proofs.Control.Identities
import ActorCheck.Proofs.Control.Priority

/-!
# Taking Turns

A thread that has had its turn has to wait for those who can run as well. How far that goes
depends on where the search for the next thread begins, which is behind the thread that took
the last step. So the thread `j` that waits comes closer to its turn whenever somebody else is
chosen in the order of the search. `turnsUntil` counts how far it is, and the count goes down
with every turn that is granted in this way.

An observer is chosen out of order. After its step the search begins behind the observer and
not behind the thread that ran before it, and threads in between may be passed over. An
observer between `i` and `j` does no harm. Any other one brings back the turn of `i` while `j`
still waits, as the last theorem of this module shows.

## Main definitions

* `App.Ready`: The thread at an index waits for its turn and can run.
* `App.turnsUntil`: How far it is from one thread to another in the order of the search.

## Theorems

* `App.turnsUntil_lt_of_order`: Whoever comes earlier in the search is closer.
* `App.closer_of_passTurn`: A turn that is not granted to an observer brings `j` closer to its
  own.
* `Session.closer_of_course`: The same for a course during which `j` waits.
* `Session.takes_turns`: Nobody has two turns while somebody else waits for one, unless an
  observer outside of the space between them has run.
* `Session.overtaken_after_observer`: Such an observer brings the turn back.
-/

namespace ActorCheck

namespace App

variable {σ : Type} (app : App)

/-- The thread at an index waits for its turn, and something leaves its place. -/
def Ready (app : App) (s : ControlState σ) (i : Nat) : Prop :=
  ∃ t, s.threads[i]? = some t ∧ t.status = .yield ∧ app.hasLeaving t = .ok true

/-- How far behind `i` the thread at `j` is in the order of the search that begins behind `i`,
    where `i` itself comes last and counts as no distance. -/
def turnsUntil (count i j : Nat) : Nat := (j + count - i) % count

section Distance

theorem turnsUntil_add (count i d : Nat) (hi : i < count) (hd : d < count) :
    turnsUntil count i ((i + d) % count) = d := by
  unfold turnsUntil
  -- The sum stays within one round or goes round once, since neither part is a whole round.
  by_cases hwrap : i + d < count
  · have hsum : i + d + count - i = d + count := by omega
    rw [Nat.mod_eq_of_lt hwrap, hsum, Nat.add_mod_right, Nat.mod_eq_of_lt hd]
  · have hback : (i + d) % count = i + d - count := by
      rw [Nat.mod_eq_sub_mod (Nat.le_of_not_lt hwrap), Nat.mod_eq_of_lt (by omega)]
    have hsum : i + d - count + count - i = d := by omega
    rw [hback, hsum, Nat.mod_eq_of_lt hd]

/-- Whoever comes earlier in the search that begins behind `i` is closer to `j` than `i` is. -/
theorem turnsUntil_lt_of_order (count i b j : Nat) (before after : List Nat) (hi : i < count)
    (hji : j ≠ i) (horder : turnOrder count i = before ++ b :: after) (hj : j ∈ after) :
    turnsUntil count b j < turnsUntil count i j := by
  have hplace : ∀ k x, (turnOrder count i)[k]? = some x → k < count ∧ x = (i + 1 + k) % count := by
    intro k x hx
    unfold turnOrder at hx
    rw [List.getElem?_map, Option.map_eq_some_iff] at hx
    rcases hx with ⟨k', hk', rfl⟩
    rcases List.getElem?_eq_some_iff.mp hk' with ⟨hlt, hk'⟩
    rw [List.getElem_range] at hk'
    rw [List.length_range] at hlt
    exact ⟨hlt, hk' ▸ rfl⟩
  -- The places of the two in the order of the search.
  rcases List.getElem?_of_mem hj with ⟨p, hp⟩
  have hbplace : (turnOrder count i)[before.length]? = some b := by
    rw [horder, List.getElem?_append_right (Nat.le_refl _), Nat.sub_self]
    rfl
  have hjplace : (turnOrder count i)[before.length + (p + 1)]? = some j := by
    rw [horder, List.getElem?_append_right (Nat.le_add_right _ _), Nat.add_sub_cancel_left,
      List.getElem?_cons_succ]
    exact hp
  rcases hplace _ _ hbplace with ⟨_, hbeq⟩
  rcases hplace _ _ hjplace with ⟨hjlt, hjeq⟩
  have hcount : 0 < count := Nat.zero_lt_of_lt hi
  -- Only `i` itself comes last.
  have hlast : before.length + (p + 1) + 1 < count := by
    by_contra hge
    have hround : i + 1 + (before.length + (p + 1)) = i + count := by omega
    rw [hround, Nat.add_mod_right, Nat.mod_eq_of_lt hi] at hjeq
    exact hji hjeq
  have hfromI : turnsUntil count i j = before.length + (p + 1) + 1 := by
    have hsum : i + 1 + (before.length + (p + 1)) = i + (before.length + (p + 1) + 1) := by omega
    rw [hjeq, hsum]
    exact turnsUntil_add count i _ hi hlast
  have hfromB : turnsUntil count b j = p + 1 := by
    have hsum : i + 1 + (before.length + (p + 1)) = i + 1 + before.length + (p + 1) := by omega
    rw [hjeq, hsum, ← Nat.mod_add_mod, ← hbeq]
    exact turnsUntil_add count b _ (hbeq ▸ Nat.mod_lt _ hcount) (by omega)
  rw [hfromI, hfromB]
  omega

end Distance

theorem observes_of_same (t u : Thread) (h : t.Same u) : app.observes u = app.observes t := by
  unfold observes
  rw [h.actor]

section Turns

variable (b : App) (hext : app.Extends b) (hdrawn : app.RelationsDrawn) (s s' : ControlState σ)

include hext hdrawn

/-- While `j` waits, a turn is granted to an observer or to somebody who is closer to `j`. -/
theorem closer_of_grantTurn (stepped j : Nat) (hstepped : stepped < s.threads.length)
    (hother : j ≠ stepped) (hidle : ∀ t ∈ s.threads, t.status ≠ .running)
    (hready : b.Ready s' j) (h : app.grantTurn s stepped = .ok s') (i : Nat) (u : Thread)
    (hu : s'.threads[i]? = some u) (hrun : u.status = .running) :
    b.observes u = .ok true
      ∨ turnsUntil s.threads.length i j < turnsUntil s.threads.length stepped j := by
  rcases searched_of_grantTurn app s s' stepped hidle h with
    ⟨rfl, _⟩ | ⟨chosen, t, ht, hsearch, rfl⟩
  · exact absurd hrun (hidle u (List.mem_of_getElem? hu))
  -- The chosen thread is the one that runs, and `j` is another one.
  have hi : i = chosen := by
    by_contra hne
    exact hidle u (List.mem_of_getElem? ((List.getElem?_set_ne (Ne.symm hne)).symm.trans hu)) hrun
  have hset : (s.threads.set chosen { t with status := .running })[chosen]?
      = some { t with status := .running } :=
    List.getElem?_set_self (List.getElem?_eq_some_iff.mp ht).1
  subst hi
  rcases hready with ⟨w, hw, hyield, hleaves⟩
  have hne : j ≠ i := by
    rintro rfl
    cases Option.some.inj (hw.symm.trans hset)
    cases hyield
  have hwait : s.threads[j]? = some w := (List.getElem?_set_ne (Ne.symm hne)).symm.trans hw
  -- The search cannot have passed `j` over.
  have hpassed : app.canRun w ≠ .ok false := by
    intro hcan
    rw [canRun_yield app w hyield] at hcan
    rw [hasLeaving_of_extends app b hext hdrawn w false hcan] at hleaves
    cases hleaves
  have hjorder : j ∈ turnOrder s.threads.length stepped :=
    (mem_turnOrder _ _ j).mpr (List.getElem?_eq_some_iff.mp hwait).1
  -- An observer may stand anywhere. Anybody else was found in the order of the search, and `j` is
  -- not among those who were passed over.
  cases hsearch with
  | observer index v hv _ hobserver =>
      rw [ht] at hv
      cases hv
      refine Or.inl ?_
      rw [observes_of_extends app b hext, Option.some.inj (hu.symm.trans hset)]
      exact hobserver
  | other index _ hchoice =>
      rcases hchoice with hnone | ⟨_, before, after, horder, hbefore⟩
      · cases hnone
      refine Or.inr (turnsUntil_lt_of_order _ stepped i j before after hstepped hother horder ?_)
      rw [horder] at hjorder
      rcases List.mem_append.mp hjorder with hfirst | hrest
      · exact absurd (hbefore j hfirst w hwait) hpassed
      · exact (List.mem_cons.mp hrest).resolve_left hne

/-- While `j` waits, the turn passes to an observer or to somebody who is closer to `j`, unless
    the thread that took the step is in an atomic block. -/
theorem closer_of_passTurn (index j : Nat) (hs : s.InStep index) (hother : j ≠ index)
    (hready : b.Ready s' j) (h : app.passTurn s index = .ok s') (i : Nat) (u : Thread)
    (hu : s'.threads[i]? = some u) (hrun : u.status = .running) :
    (i = index ∧ 0 < u.atomic) ∨ b.observes u = .ok true
      ∨ turnsUntil s'.threads.length i j < turnsUntil s'.threads.length index j := by
  have hlength := s.length_of_kin s' (Scheduler.kin_of_passTurn app s s' index h)
  -- The thread keeps its turn in an atomic block, and otherwise the search decides.
  rcases turned_of_passTurn app s s' index h with ⟨t, more, ht, _, _, ⟨rfl, _, hatomic, _⟩ | hgrant⟩
  · have hi := hs.alone i u hu hrun
    rw [hi, ht] at hu
    cases hu
    exact Or.inl ⟨hi, hatomic⟩
  · have hset : (s.setThread index (giveTurnAway more t)).threads.length = s.threads.length :=
      List.length_set
    have hcloser := closer_of_grantTurn app b hext hdrawn _ s' index j (hset ▸ hs.present) hother
      (idle_of_giveTurnAway s index t more hs) hready hgrant i u hu hrun
    rw [hset, ← hlength] at hcloser
    exact Or.inr hcloser

end Turns

end App

namespace Session

section Turns

variable {σ : Type} [DecidableEq σ] (c : Control σ) (app : App) (hdrawn : app.RelationsDrawn)

/-- The threads of a course are the same ones all along. -/
theorem kin_of_course (first : Move σ) (before : List (Move σ)) (between : List (Move σ))
    (x : Session σ) (s : ControlState σ) (h : Course c app x s (between ++ first :: before)) :
    first.target.Kin s := by
  induction between generalizing x s with
  | nil =>
      rcases course_cons c app x s first before h with ⟨rfl, _⟩
      exact ControlState.kin_refl _
  | cons m rest ih =>
      rcases course_cons c app x s m _ h with ⟨rfl, y, k, hy, ⟨w⟩, _⟩
      exact ControlState.kin_trans _ _ _ (ih y m.source hy)
        (Scheduler.kin_of_step c y.scheduler.app k.app _ _ (Scheduler.step_of_passage c _ k m w))

include hdrawn

/-- A move of a course, while `j` waits, is followed by one of an observer or of somebody who is
    closer to `j`, unless the thread that took the step is in an atomic block. -/
theorem closer_of_move (x : Session σ) (moves : List (Move σ)) (m : Move σ) (k : Scheduler)
    (b : App) (h : Course c app x m.source moves) (w : Scheduler.Passage c x.scheduler k m)
    (hext : k.app.Extends b) (j : Nat) (hother : j ≠ m.index) (hready : b.Ready m.target j)
    (i : Nat) (u : Thread) (hu : m.target.threads[i]? = some u) (hrun : u.status = .running) :
    (i = m.index ∧ 0 < u.atomic) ∨ b.observes u = .ok true
      ∨ App.turnsUntil m.target.threads.length i j
        < App.turnsUntil m.target.threads.length m.index j := by
  rcases explored_of_course c app x m.source moves h with ⟨hx, hs⟩
  have hdrawnX := App.relationsDrawn_of_extends app _ (extends_of_explored c app x hx) hdrawn
  have hsteady := steady_of_explored c app hdrawn x hx m.source hs
  rcases Scheduler.passed_of_step c _ k.app m.source m.target hdrawnX hsteady
    (Scheduler.step_of_passage c _ k m w) with
    ⟨a, v, index, hrunning, hbefore, hafter, hmiddle, hturn⟩
  have hindex : index = m.index := by
    rw [w.running] at hrunning
    exact (List.singleton_inj.mp hrunning).symm
  subst hindex
  exact a.closer_of_passTurn b (App.extends_trans _ _ _ hafter hext)
    (App.relationsDrawn_of_extends _ a hbefore hdrawnX) v m.target m.index j hmiddle hother hready
    hturn i u hu hrun

/-- While `j` waits, whoever runs is an observer or closer to `j` than the thread that took the
    first step, if all observers that ran in between were closer, too. -/
theorem closer_of_course (first : Move σ) (before between : List (Move σ)) (b : App) (j : Nat)
    (hother : j ≠ first.index)
    (hfree : ∀ t, first.target.threads[first.index]? = some t → t.atomic = 0)
    (x : Session σ) (s : ControlState σ) (h : Course c app x s (between ++ first :: before))
    (hext : x.scheduler.app.Extends b) (hready : ∀ m ∈ between ++ [first], b.Ready m.target j)
    (hobservers : ∀ m ∈ between, ∀ u, m.source.threads[m.index]? = some u →
      b.observes u = .ok true → App.turnsUntil first.target.threads.length m.index j
        < App.turnsUntil first.target.threads.length first.index j)
    (i : Nat) (u : Thread) (hu : s.threads[i]? = some u) (hrun : u.status = .running) :
    b.observes u = .ok true ∨ App.turnsUntil first.target.threads.length i j
      < App.turnsUntil first.target.threads.length first.index j := by
  -- What is carried along the course is that whoever runs is an observer or closer to `j` than the
  -- first thread was.
  induction between generalizing x s i u with
  | nil =>
      rcases course_cons c app x s first before h with ⟨rfl, y, k, hy, ⟨w⟩, hk⟩
      rcases closer_of_move c app hdrawn y before first k b hy w (App.extends_trans _ _ _ hk hext) j
        hother (hready first (List.mem_singleton_self first)) i u hu hrun with
        ⟨rfl, hatomic⟩ | hcloser
      · exact absurd hatomic (hfree u hu ▸ Nat.lt_irrefl 0)
      · exact hcloser
  | cons m rest ih =>
      have hkin := kin_of_course c app first before (m :: rest) x s h
      rcases course_cons c app x s m _ h with ⟨rfl, y, k, hy, ⟨w⟩, hk⟩
      have hext' : y.scheduler.app.Extends b :=
        App.extends_trans _ _ _ (Scheduler.extends_of_passage c _ k m w)
          (App.extends_trans _ _ _ hk hext)
      have hrest : ∀ m' ∈ rest ++ [first], b.Ready m'.target j := fun m' hm' =>
        hready m' (List.mem_cons_of_mem m hm')
      -- The thread that takes this step was closer to `j`, or it is an observer and was closer,
      -- too.
      have hruns : m.index ∈ m.source.running := by
        rw [w.running]
        exact List.mem_singleton_self m.index
      rcases (m.source.mem_running m.index).mp hruns with ⟨v, hv, hvrun⟩
      have hmover : App.turnsUntil first.target.threads.length m.index j
          < App.turnsUntil first.target.threads.length first.index j :=
        (ih y m.source hy hext' hrest (fun m' hm' => hobservers m' (List.mem_cons_of_mem m hm'))
          m.index v hv hvrun).elim (hobservers m List.mem_cons_self v hv) id
      -- It is another thread than `j`, which was waiting.
      have hne : j ≠ m.index := by
        rintro rfl
        have hsource : b.Ready m.source m.index := by
          cases rest with
          | nil =>
              rcases course_cons c app y m.source first before hy with ⟨heq, _⟩
              rw [heq]
              exact hrest first (List.mem_singleton_self first)
          | cons m' rest' =>
              rcases course_cons c app y m.source m' _ hy with ⟨heq, _⟩
              rw [heq]
              exact hrest m' List.mem_cons_self
        rcases hsource with ⟨w, hw, hyield, _⟩
        rw [hv] at hw
        cases hw
        rw [hvrun] at hyield
        cases hyield
      have hcloser := closer_of_move c app hdrawn y _ m k b hy w (App.extends_trans _ _ _ hk hext) j
        hne (hready m List.mem_cons_self) i u hu hrun
      rw [ControlState.length_of_kin _ _ hkin] at hcloser
      rcases hcloser with ⟨rfl, _⟩ | hobserver | hcloser
      · exact Or.inr hmover
      · exact Or.inl hobserver
      · exact Or.inr (Nat.lt_trans hcloser hmover)

/-- A thread that is no observer and in no atomic block takes no other step while a thread `j`
    waits for its turn, if every observer that takes a step in between has its place between the
    two, going round. -/
theorem takes_turns (x : Session σ) (s : ControlState σ) (last first : Move σ)
    (between before : List (Move σ)) (h : Course c app x s (last :: (between ++ first :: before)))
    (t : Thread) (ht : first.target.threads[first.index]? = some t) (hfree : t.atomic = 0)
    (hplain : app.observes t = .ok false) (j : Nat) (hother : j ≠ first.index)
    (hready : ∀ m ∈ between ++ [first], x.scheduler.app.Ready m.target j)
    (hobservers : ∀ m ∈ between, ∀ u, m.source.threads[m.index]? = some u →
      app.observes u = .ok true → App.turnsUntil first.target.threads.length m.index j
        < App.turnsUntil first.target.threads.length first.index j) :
    last.index ≠ first.index := by
  have hactors := app.observes_of_extends _ (extends_of_explored c app x
    (explored_of_course c app x s _ h).1)
  rcases course_cons c app x s last _ h with ⟨rfl, y, k, hy, ⟨w⟩, hk⟩
  have hruns : last.index ∈ last.source.running := by
    rw [w.running]
    exact List.mem_singleton_self last.index
  rcases (last.source.mem_running last.index).mp hruns with ⟨u, hu, hrun⟩
  have hcloser := closer_of_course c app hdrawn first before between x.scheduler.app j hother
    (fun t' ht' => Option.some.inj (ht.symm.trans ht') ▸ hfree) y last.source hy
    (App.extends_trans _ _ _ (Scheduler.extends_of_passage c _ k last w) hk) hready
    (fun m hmem v hv hobserver => hobservers m hmem v hv ((hactors v).symm.trans hobserver))
    last.index u hu hrun
  -- No observer took the last step if it was the same thread, and nobody is closer to `j` than
  -- itself.
  intro hsame
  rw [hsame] at hcloser hu
  rcases hcloser with hobserver | hcloser
  · rw [hactors, app.observes_of_same t u (ControlState.same_of_kin _ _
      (kin_of_course c app first before between y last.source hy) _ t u ht hu), hplain] at hobserver
    cases hobserver
  · exact Nat.lt_irrefl _ hcloser

end Turns

section Patrol

/-- The first three moves of the patrol. -/
theorem course_patrolSession (actors : List ActorDraft)
    (hlength : ∀ n < 4, (patrolSession actors n).found.length = n + 1) :
    ∃ first m last : Move Unit,
      Course .indifferent (patrol actors) (patrolSession actors 3) last.target [last, m, first]
        ∧ first.source ∈ (patrolSession actors 0).found.getLast?
        ∧ first.target ∈ (patrolSession actors 1).found.getLast?
        ∧ m.source ∈ (patrolSession actors 1).found.getLast?
        ∧ m.target ∈ (patrolSession actors 2).found.getLast?
        ∧ last.source ∈ (patrolSession actors 2).found.getLast?
        ∧ first.source.running = [first.index] ∧ m.source.running = [m.index]
        ∧ last.source.running = [last.index] := by
  have hnew : (Session.new (patrol actors) : Session Unit).found.length
      < (patrolSession actors 0).found.length := by
    rw [hlength 0 (by omega)]
    exact Nat.zero_lt_one
  rcases course_of_expansions .indifferent (patrol actors) (patrolSession actors) (fun _ => rfl)
    (course_of_start _ _ _ _ .new hnew) 3
    (fun i hi => by rw [hlength i (by omega), hlength (i + 1) (by omega)]; omega) with
    ⟨s, moves, h, _, hthree, hmoves⟩
  rcases List.length_eq_three.mp hthree with ⟨last, m, first, rfl⟩
  rcases course_cons _ _ _ s last _ h with ⟨rfl, _⟩
  rcases hmoves 0 first rfl with ⟨hfirst, hfirst', _, ⟨w₀⟩⟩
  rcases hmoves 1 m rfl with ⟨hm, hm', _, ⟨w₁⟩⟩
  rcases hmoves 2 last rfl with ⟨hlast, _, _, ⟨w₂⟩⟩
  exact ⟨first, m, last, h, hfirst, hfirst', hm, hm', hlast, w₀.running, w₁.running, w₂.running⟩

/-- A watcher that has its place between the sender and somebody who waits does not disturb the
    order of turns. -/
theorem takes_turns_patrol : ∃ first m last : Move Unit,
    Course .indifferent (patrol crowded) (patrolSession crowded 3) last.target [last, m, first]
      ∧ (∃ u, m.source.threads[m.index]? = some u ∧ (patrol crowded).observes u = .ok true)
      ∧ last.index ≠ first.index := by
  have hlength : ∀ n < 4, (patrolSession crowded n).found.length = n + 1 := by
    decide +kernel
  rcases course_patrolSession _ hlength with
    ⟨first, m, last, h, h₀, h₁, h₁', h₂, _, hfirst, hm, _⟩
  have hsender : ∀ s ∈ (patrolSession crowded 0).found.getLast?, s.running = [0] := by
    decide +kernel
  have hsent : ∀ s ∈ (patrolSession crowded 1).found.getLast?,
      s.running = [1] ∧ s.threads.length = 4
        ∧ (∃ t ∈ s.threads[0]?, t.atomic = 0 ∧ (patrol crowded).observes t = .ok false)
        ∧ (∃ t ∈ s.threads[1]?, (patrol crowded).observes t = .ok true)
        ∧ ∃ t ∈ s.threads[3]?, t.status = .yield
          ∧ (patrolSession crowded 3).scheduler.app.hasLeaving t = .ok true := by
    decide +kernel
  have hwatched : ∀ s ∈ (patrolSession crowded 2).found.getLast?,
      ∃ t ∈ s.threads[3]?, t.status = .yield
        ∧ (patrolSession crowded 3).scheduler.app.hasLeaving t = .ok true := by
    decide +kernel
  rcases hsent _ h₁ with ⟨_, hcount, ⟨t, ht, hfree, hplain⟩, _, hready₁⟩
  rcases hsent _ h₁' with ⟨hrunning, _, _, ⟨u, hu, hobserver⟩, _⟩
  have hfirstIndex : first.index = 0 := by
    rw [hsender _ h₀] at hfirst
    exact (List.singleton_inj.mp hfirst).symm
  have hmIndex : m.index = 1 := by
    rw [hrunning] at hm
    exact (List.singleton_inj.mp hm).symm
  refine ⟨first, m, last, h, ⟨u, hmIndex ▸ hu, hobserver⟩, ?_⟩
  refine takes_turns .indifferent _ (App.relationsDrawn_of_draft _ _) _ _ last first [m] [] h t
    (hfirstIndex ▸ ht) hfree hplain 3 (hfirstIndex ▸ by decide) ?_ ?_
  · exact List.forall_mem_cons.mpr ⟨hwatched _ h₂, List.forall_mem_singleton.mpr hready₁⟩
  · intro m' hm' _ _ _
    rw [List.mem_singleton.mp hm', hcount, hmIndex, hfirstIndex]
    decide

/-- A watcher that has its place before the sender gives the turn back to the sender, and the
    bystander is passed over. -/
theorem overtaken_after_observer : ¬ ∀ (c : Control Unit) (app : App) (x : Session Unit)
    (s : ControlState Unit) (last first : Move Unit) (between before : List (Move Unit)),
    app.RelationsDrawn → Course c app x s (last :: (between ++ first :: before)) →
      ∀ t, first.target.threads[first.index]? = some t → t.atomic = 0 → app.observes t = .ok false →
      ∀ j u, j ≠ first.index → first.target.threads[j]? = some u → app.observes u = .ok false →
      (∀ m ∈ between, m.index ≠ j) →
      (∀ m ∈ between ++ [first], x.scheduler.app.Ready m.target j) →
        last.index ≠ first.index := by
  intro h
  have hlength : ∀ n < 4, (patrolSession watchful n).found.length = n + 1 := by
    decide +kernel
  rcases course_patrolSession _ hlength with
    ⟨first, m, last, hcourse, h₀, h₁, h₁', h₂, h₂', hfirst, hm, hlast⟩
  have hsender : ∀ s ∈ (patrolSession watchful 0).found.getLast?, s.running = [1] := by
    decide +kernel
  have hsent : ∀ s ∈ (patrolSession watchful 1).found.getLast?,
      s.running = [0]
        ∧ (∃ t ∈ s.threads[1]?, t.atomic = 0 ∧ (patrol watchful).observes t = .ok false)
        ∧ ∃ t ∈ s.threads[2]?, (patrol watchful).observes t = .ok false
          ∧ t.status = .yield
          ∧ (patrolSession watchful 3).scheduler.app.hasLeaving t = .ok true := by
    decide +kernel
  have hwatched : ∀ s ∈ (patrolSession watchful 2).found.getLast?,
      s.running = [1] ∧ ∃ t ∈ s.threads[2]?, t.status = .yield
        ∧ (patrolSession watchful 3).scheduler.app.hasLeaving t = .ok true := by
    decide +kernel
  rcases hsent _ h₁ with ⟨_, ⟨t, ht, hfree, hplain⟩, u, hu, hother, hready₁⟩
  have hfirstIndex : first.index = 1 := by
    rw [hsender _ h₀] at hfirst
    exact (List.singleton_inj.mp hfirst).symm
  have hmIndex : m.index = 0 := by
    rw [(hsent _ h₁').1] at hm
    exact (List.singleton_inj.mp hm).symm
  have hlastIndex : last.index = 1 := by
    rw [(hwatched _ h₂').1] at hlast
    exact (List.singleton_inj.mp hlast).symm
  refine h .indifferent _ _ _ last first [m] [] (App.relationsDrawn_of_draft _ _) hcourse t
    (hfirstIndex ▸ ht) hfree hplain 2 u (hfirstIndex ▸ by decide) hu hother ?_ ?_
    (hlastIndex.trans hfirstIndex.symm)
  · exact List.forall_mem_singleton.mpr (hmIndex ▸ by decide)
  · exact List.forall_mem_cons.mpr
      ⟨(hwatched _ h₂).2, List.forall_mem_singleton.mpr ⟨u, hu, hready₁⟩⟩

end Patrol

end Session

end ActorCheck
