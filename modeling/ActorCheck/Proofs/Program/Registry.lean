import ActorCheck.Proofs.Program.Judges
import ActorCheck.Proofs.Program.Lines

/-!
# What Is Registered

A thread and a place in it refer to actors, scripts and relations by name or by number, and
whoever follows such a reference looks it up. This module says when a look-up finds what was meant.

An actor is refused if its name is taken, and every script draws a number of its own. So in a
program as it was written no two actors share a name and no two scripts of an actor share a number:
`Distinct`. A relation checks its flow when it is made and is registered under the number it drew
then: `Filed`. Both survive whatever an analysis adds, the first because no actor is added, the
second because the relations that are added are made in the same way.

## Main definitions

* `App.Distinct`: Actors and their scripts are told apart by what they are looked up by.
* `App.Filed`: Relations are well formed and registered under their own numbers.
* `App.Registered`: Both, and no number is in use that was not drawn.

## Theorems

* `App.actor_of_distinct`, `App.script_of_distinct`: What is looked up is found.
* `App.distinct_of_draft`, `App.filed_of_draft`, `App.registered_of_draft`: A program as it was
  written.
-/

namespace ActorCheck

namespace Relation

theorem wellFormed_of_make (name : Option String) (g : Flow) (s s' : IdSupply) (r : Relation)
    (h : Gives (make name g) s r s') : r.WellFormed := by
  rw [flow_of_gives_make name g s s' r h]
  exact wellFormed_of_gives_make name g s s' r h

theorem wellFormed_of_gives_appendAll (ops : List OperationId) (r r' : Relation) (s s' : IdSupply)
    (hr : r.WellFormed) (h : Gives (r.appendAll ops) s r' s') : r'.WellFormed := by
  -- Appending makes a new relation each time, which checks its flow, so only the last one counts.
  induction ops generalizing r s with
  | nil =>
      rcases (gives_pure _ _ _ _).mp h with ⟨rfl, rfl⟩
      exact hr
  | cons op ops ih =>
      rw [appendAll] at h
      rcases (gives_bind _ _ _ _ _).mp h with ⟨goto, s₁, _, h⟩
      rcases (gives_bind _ _ _ _ _).mp h with ⟨next, s₂, happend, h⟩
      unfold append at happend
      split at happend
      · exact absurd happend (not_gives_throw _ _ _ _)
      · exact ih next s₂ (wellFormed_of_make none _ s₁ s₂ next happend) h

theorem wellFormed_of_gives_sequence (ops : List OperationId) (r : Relation) (s s' : IdSupply)
    (h : Gives (sequence ops) s r s') : r.WellFormed := by
  unfold sequence at h
  rcases (gives_bind _ _ _ _ _).mp h with ⟨start, s₁, hstart, h⟩
  cases hstart
  exact wellFormed_of_gives_appendAll ops _ r _ s' (Flow.wellFormed_singleton s.next) h

theorem wellFormed_of_gives_branch (a b : Relation) (exit : LocationId) (s s' : IdSupply)
    (r : Relation) (h : Gives (a.branch b exit) s r s') : r.WellFormed := by
  unfold branch at h
  split at h
  · exact absurd h (not_gives_throw _ _ _ _)
  · rcases (gives_bind _ _ _ _ _).mp h with ⟨entry, s₁, _, h⟩
    exact wellFormed_of_make none _ s₁ s' r h

end Relation

namespace App

/-- Actors differ in their names, and the scripts of an actor in their numbers. -/
structure Distinct (app : App) : Prop where
  actors : (app.actors.map Actor.name).Nodup
  scripts : ∀ a ∈ app.actors, (a.scripts.map Script.id).Nodup

/-- Every relation is well formed and registered under its own number. -/
def Filed (app : App) : Prop :=
  ∀ (id : RelationId) (r : Relation), app.relation id = .ok r → r.id = id ∧ r.WellFormed

/-- A look-up finds what was meant, and still does after additions. -/
structure Registered (app : App) : Prop where
  relations : app.RelationsDrawn
  operations : app.OperationsDrawn
  distinct : app.Distinct
  filed : app.Filed

section LookUp

theorem relation_ok (app : App) (id : RelationId) (r : Relation) :
    app.relation id = .ok r ↔ app.relations[id]? = some r := by
  unfold relation
  cases app.relations[id]? with
  | none => exact iff_of_false nofun nofun
  | some found => exact ⟨fun h => congrArg some (Except.ok.inj h), fun h => by cases h; rfl⟩

theorem distinct_of_extends (a b : App) (h : a.Extends b) (ha : a.Distinct) : b.Distinct := by
  refine ⟨?_, ?_⟩
  · rw [h.actors]
    exact ha.actors
  · rw [h.actors]
    exact ha.scripts

/-- Only the relations that were added have to be looked at again. -/
theorem registered_of_extends (a b : App) (h : a.Extends b) (ha : a.Registered) (hb : b.Filed) :
    b.Registered :=
  ⟨relationsDrawn_of_extends a b h ha.relations, operationsDrawn_of_extends a b h ha.operations,
    distinct_of_extends a b h ha.distinct, hb⟩

/-- A look-up by a key that only one member has. -/
theorem find?_of_nodup {α κ : Type} [DecidableEq κ] (key : α → κ) (xs : List α)
    (h : (xs.map key).Nodup) (x : α) (hx : x ∈ xs) :
    xs.find? (fun y => key y == key x) = some x := by
  -- Something is found, since the member itself is a match, and only the member has its key.
  cases hfind : xs.find? fun y => key y == key x with
  | none => exact absurd (beq_self_eq_true (key x)) (List.find?_eq_none.mp hfind x hx)
  | some y =>
      have hkey := List.find?_some (p := fun y => key y == key x) hfind
      rw [List.inj_on_of_nodup_map h (List.mem_of_find?_eq_some hfind) hx (beq_iff_eq.mp hkey)]

variable (app : App) (h : app.Distinct) (a : Actor) (ha : a ∈ app.actors)

include h ha

theorem actor_of_distinct : app.actor a.name = .ok a := by
  unfold actor
  rw [find?_of_nodup Actor.name app.actors h.actors a ha]

theorem script_of_distinct (script : Script) (hscript : script ∈ a.scripts) :
    app.script a.name script.id = .ok script := by
  unfold App.script
  refine (except_bind_ok _ _ _).mpr ⟨a, app.actor_of_distinct h a ha, ?_⟩
  have hfind : a.script? script.id = some script :=
    find?_of_nodup Script.id a.scripts (h.scripts a ha) script hscript
  dsimp only
  rw [hfind]
  rfl

end LookUp

section Actors

/-- What every step of a fold keeps holds of its result. -/
theorem gives_foldlM {α β : Type} (I : β → App → Prop) (f : β → α → Modelling β)
    (hf : ∀ y x a z b, I y a → Gives (f y x) a z b → I z b) (xs : List α) (y z : β) (a b : App)
    (hy : I y a) (h : Gives (xs.foldlM f y) a z b) : I z b := by
  induction xs generalizing y a with
  | nil =>
      rcases (gives_pure _ _ _ _).mp h with ⟨rfl, rfl⟩
      exact hy
  | cons x xs ih =>
      rw [List.foldlM_cons] at h
      rcases (gives_bind _ _ _ _ _).mp h with ⟨y', a', hfirst, h⟩
      exact ih y' a' (hf y x a y' a' hy hfirst) h

/-- The scripts of an actor carry numbers that were drawn one after the other. -/
theorem scripts_of_gives_buildActor (relations : List RelationId) (draft : ActorDraft)
    (actor : Actor) (a b : App) (h : Gives (draft.build relations) a actor b) :
    (actor.scripts.map Script.id).Nodup
      ∧ ∀ id ∈ actor.scripts.map Script.id, id < b.supply.next := by
  unfold ActorDraft.build at h
  rcases (gives_bind _ _ _ _ _).mp h with ⟨callable, c, hcallable, h⟩
  -- Methods are added before scripts, so the numbers are counted from an actor without any.
  have hnone : callable.scripts = [] := by
    refine gives_foldlM (fun actor _ => actor.scripts = []) _ ?_ _ _ callable a c ?_ hcallable
    · intro y m a z b hy hadd
      rcases (gives_lookUp _ _ _ _).mp hadd with ⟨hadd, rfl⟩
      unfold Actor.addMethod at hadd
      split at hadd
      · cases hadd
      · cases hadd
        exact hy
    -- Variables and methods of the system do not count as scripts either.
    · have hkept : ∀ (f : Actor → String → Actor), (∀ y x, (f y x).scripts = y.scripts) →
          ∀ (xs : List String) (y : Actor), (xs.foldl f y).scripts = y.scripts := by
        intro f hf xs
        induction xs with
        | nil => exact fun y => rfl
        | cons x xs ih => exact fun y => (ih (f y x)).trans (hf y x)
      exact (hkept Actor.addExternal (fun _ _ => rfl) _ _).trans
        (hkept Actor.addVariable (fun _ _ => rfl) _ _)
  -- Scripts are added one after the other, and what holds so far is that their numbers differ and
  -- were drawn.
  refine gives_foldlM (fun actor a => (actor.scripts.map Script.id).Nodup
    ∧ ∀ id ∈ actor.scripts.map Script.id, id < a.supply.next) _ ?_ _ callable actor c b ?_ h
  · rintro y ⟨event, n⟩ a z b ⟨hnodup, hdrawn⟩ hadd
    rcases (gives_bind _ _ _ _ _).mp hadd with ⟨script, a', hscript, hadd⟩
    cases hscript
    rcases (gives_pure _ _ _ _).mp hadd with ⟨rfl, rfl⟩
    unfold Actor.addScript
    dsimp only
    rw [List.map_append]
    refine ⟨List.nodup_append.mpr ⟨hnodup, List.nodup_singleton _, ?_⟩, ?_⟩
    · rintro id hid other hother rfl
      rw [List.mem_singleton.mp hother] at hid
      exact Nat.lt_irrefl _ (hdrawn _ hid)
    · intro id hid
      rcases List.mem_append.mp hid with hid | hid
      · exact Nat.lt_succ_of_lt (hdrawn id hid)
      · rw [List.mem_singleton.mp hid]
        exact Nat.lt_succ_self _
  · rw [hnone]
    exact ⟨List.nodup_nil, fun id hid => absurd hid List.not_mem_nil⟩

theorem distinct_of_registerActor (relations : List RelationId) (draft : ActorDraft) :
    Keeps Distinct (draft.register relations) := by
  intro a ha
  unfold ActorDraft.register
  have hbuild : ((draft.build relations).run a).2.Distinct :=
    keeps_buildActor Distinct (fun _ _ _ hb => ⟨hb.actors, hb.scripts⟩) relations draft a ha
  refine ends_bind Distinct _ _ a hbuild (fun actor b hactor hb => ?_)
  have hscripts := (scripts_of_gives_buildActor relations draft actor a b hactor).1
  unfold addActor
  refine ends_bind Distinct _ _ b hb (fun app c happ _ => ?_)
  cases happ
  split
  · exact hb
  next hnew =>
    refine ⟨?_, fun other hother => ?_⟩
    · change ((b.actors ++ [actor]).map Actor.name).Nodup
      rw [List.map_append]
      refine List.nodup_append.mpr ⟨hb.actors, List.nodup_singleton _, ?_⟩
      -- An actor with the same name would have been noticed by the check.
      rintro name hname other hother rfl
      rw [List.mem_singleton.mp hother] at hname
      rcases List.mem_map.mp hname with ⟨known, hknown, heq⟩
      exact hnew (List.any_eq_true.mpr ⟨known, hknown, beq_iff_eq.mpr heq⟩)
    · rcases List.mem_append.mp hother with hother | hother
      · exact hb.scripts other hother
      · rw [List.mem_singleton.mp hother]
        exact hscripts

end Actors

section Relations

/-- The relation of a draft is well formed. -/
theorem wellFormed_of_build (draft : RelationDraft) (a b : App) (r : Relation)
    (h : Gives draft.build a r b) : r.WellFormed := by
  induction draft generalizing a b r with
  | sequence statements =>
      rw [RelationDraft.build] at h
      rcases (gives_bind _ _ _ _ _).mp h with ⟨ops, c, _, h⟩
      exact Relation.wellFormed_of_gives_sequence _ r _ _ (gives_building _ c b r h)
  | concat first second _ _ =>
      rw [RelationDraft.build] at h
      rcases (gives_bind _ _ _ _ _).mp h with ⟨r₁, c, _, h⟩
      rcases (gives_bind _ _ _ _ _).mp h with ⟨r₂, d, _, h⟩
      exact Relation.wellFormed_of_make none _ _ _ r (gives_building _ d b r h)
  | branch left right _ _ =>
      rw [RelationDraft.build] at h
      rcases (gives_bind _ _ _ _ _).mp h with ⟨r₁, c, _, h⟩
      rcases (gives_bind _ _ _ _ _).mp h with ⟨r₂, d, _, h⟩
      rcases (gives_bind _ _ _ _ _).mp h with ⟨exit, e, _, h⟩
      exact Relation.wellFormed_of_gives_branch r₁ r₂ exit _ _ r (gives_building _ e b r h)
  | eliminate draft _ =>
      rw [RelationDraft.build] at h
      rcases (gives_bind _ _ _ _ _).mp h with ⟨r₁, c, _, h⟩
      exact Relation.wellFormed_of_make (some r₁.name) _ _ _ r (gives_building _ c b r h)
  | graph count entries exits edges =>
      rw [RelationDraft.build] at h
      rcases (gives_bind _ _ _ _ _).mp h with ⟨locations, c, _, h⟩
      rcases (gives_bind _ _ _ _ _).mp h with ⟨g, d, _, h⟩
      exact Relation.wellFormed_of_make none g _ _ r (gives_building _ d b r h)
  -- Another name does not change the flow.
  | named name draft ih =>
      rw [RelationDraft.build] at h
      rcases (gives_bind _ _ _ _ _).mp h with ⟨r₁, c, hr₁, h⟩
      rcases (gives_pure _ _ _ _).mp h with ⟨rfl, rfl⟩
      exact ih a c r₁ hr₁

theorem filed_of_addRelation (r : Relation) (hr : r.WellFormed) (a : App) (ha : a.Filed) :
    ((addRelation r).run a).2.Filed := by
  intro id other hother
  have hother : (a.relations.insert r.id r)[id]? = some other := (relation_ok _ _ _).mp hother
  -- The new relation is found under its own number, and all others are as before.
  rw [Std.ExtTreeMap.getElem?_insert] at hother
  split at hother
  next heq =>
    cases hother
    exact ⟨Std.LawfulEqCmp.eq_of_compare heq, hr⟩
  next => exact ha id other ((relation_ok _ _ _).mpr hother)

theorem filed_of_register (draft : RelationDraft) : Keeps Filed draft.register := by
  intro a ha
  unfold RelationDraft.register
  have hbuild := keeps_build Filed (fun _ _ _ hb => hb) (fun _ _ hb => hb) draft a ha
  -- The relation was built to be well formed and is filed under the number it carries. The rest
  -- leaves relations alone.
  refine ends_bind Filed _ _ a hbuild (fun r b hr hb => ?_)
  refine ends_bind Filed _ _ b ?_ (fun _ c _ hc => hc)
  exact filed_of_addRelation r (wellFormed_of_build draft a b r hr) b hb

/-- The relation of a condition is filed like every other one. -/
theorem filed_of_makeConditionScript (owner : ActorName) (condition : Expr) (a : App)
    (ha : a.Filed) : ((makeConditionScript owner condition).run a).2.Filed := by
  unfold makeConditionScript
  refine ends_bind Filed _ _ a ha (fun holds b₁ _ h₁ => ?_)
  refine ends_bind Filed _ _ b₁ h₁ (fun fails b₂ _ h₂ => ?_)
  refine ends_bind Filed _ _ b₂ h₂ (fun entry b₃ _ h₃ => ?_)
  refine ends_bind Filed _ _ b₃ h₃ (fun exit b₄ _ h₄ => ?_)
  refine ends_bind Filed _ _ b₄ h₄ (fun reject b₅ _ h₅ => ?_)
  refine ends_bind Filed _ _ b₅ h₅ (fun r b₆ hr h₆ => ?_)
  have hwell := Relation.wellFormed_of_make none _ _ _ r (gives_building _ b₅ b₆ r hr)
  refine ends_bind Filed _ _ b₆ (filed_of_addRelation r hwell b₆ h₆) (fun _ b₇ _ h₇ => ?_)
  exact ends_bind Filed _ _ b₇ h₇ (fun _ b₈ _ h₈ => h₈)

end Relations

section Drafts

variable (draft : AppDraft) (name : String)

/-- A program as it was written tells actors and scripts apart. -/
theorem distinct_of_draft : (draft.build.run (App.new name)).2.Distinct := by
  refine keeps_buildApp Distinct distinct_of_registerActor (fun r a ha => ?_) draft (App.new name)
    ⟨List.nodup_nil, fun a ha => absurd ha List.not_mem_nil⟩
  unfold RelationDraft.register
  refine ends_bind Distinct _ _ a (distinct_of_extends a _ (extends_build r a) ha) ?_
  exact fun r b _ hb => ⟨hb.actors, hb.scripts⟩

/-- The relations of a program as it was written are filed. -/
theorem filed_of_draft : (draft.build.run (App.new name)).2.Filed := by
  refine keeps_buildApp Filed (keeps_registerActor Filed (fun _ _ _ ha => ha) fun _ _ ha => ha)
    filed_of_register draft (App.new name) (fun id r hr => ?_)
  rw [relation_ok, show (App.new name).relations[id]? = none from Std.ExtTreeMap.getElem?_empty]
    at hr
  cases hr

theorem registered_of_draft : (draft.build.run (App.new name)).2.Registered :=
  ⟨relationsDrawn_of_draft draft name, (unasked_of_draft draft name).operations,
    distinct_of_draft draft name, filed_of_draft draft name⟩

end Drafts

end App

end ActorCheck
