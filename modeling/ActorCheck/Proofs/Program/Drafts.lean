import ActorCheck.Program.Draft
import ActorCheck.Proofs.Program.Growth

/-!
# Drafted Programs

A program that a draft describes makes every relation before it adds it, so the
numbers of all its relations were drawn from its supply. This is the condition
under which what an analysis looks up does not change while the program grows.

## Main definitions

* `Relation.Makes`: A computation that makes a relation with a number of its own.
* `App.Keeps`: A computation on a program keeps a property of it.

## Theorems

* `App.keeps_build`, `App.keeps_buildApp`: What building a relation or a program keeps.
* `App.drawn_of_build`: The relation of a draft carries a number that was drawn.
* `App.relationsDrawn_of_draft`: The relations of a drafted program.
-/

namespace ActorCheck

namespace Relation

/-- The computation takes no number back, and the relation that it makes carries a
    number that was drawn. -/
structure Makes (x : Drawing Relation) : Prop where
  draws : Draws x
  drawn : ∀ (s s' : IdSupply) (r : Relation), Gives x s r s' → r.id < s'.next

theorem makes_make (name : Option String) (g : Flow) : Makes (make name g) := by
  refine ⟨draws_make name g, fun s s' r h => ?_⟩
  rcases id_of_gives_make name g s s' r h with ⟨hid, hnext⟩
  rw [hid, hnext]
  exact Nat.lt_succ_self s.next

theorem makes_append (r : Relation) (op : OperationId) (goto : LocationId) :
    Makes (r.append op goto) := by
  refine ⟨draws_append r op goto, ?_⟩
  unfold append
  split
  · exact fun s s' r h => absurd h (not_gives_throw _ _ _ _)
  · exact (makes_make none _).drawn

theorem drawn_of_gives_appendAll (ops : List OperationId) (r r' : Relation) (s s' : IdSupply)
    (hr : r.id < s.next) (h : Gives (r.appendAll ops) s r' s') : r'.id < s'.next := by
  induction ops generalizing r s with
  | nil =>
      rcases (gives_pure _ _ _ _).mp h with ⟨rfl, rfl⟩
      exact hr
  | cons op ops ih =>
      rw [appendAll] at h
      rcases (gives_bind _ _ _ _ _).mp h with ⟨goto, s₁, _, h⟩
      rcases (gives_bind _ _ _ _ _).mp h with ⟨next, s₂, happend, h⟩
      exact ih next s₂ ((makes_append r op goto).drawn s₁ s₂ next happend) h

theorem makes_sequence (ops : List OperationId) : Makes (sequence ops) := by
  refine ⟨draws_sequence ops, fun s s' r h => ?_⟩
  unfold sequence at h
  rcases (gives_bind _ _ _ _ _).mp h with ⟨start, s₁, hstart, h⟩
  cases hstart
  exact drawn_of_gives_appendAll ops _ r _ s' (Nat.lt_succ_self _) h

theorem makes_branch (a b : Relation) (exit : LocationId) : Makes (a.branch b exit) := by
  unfold branch
  split
  · exact ⟨fun s => Nat.le_refl s.next, fun s s' r h => absurd h (not_gives_throw _ _ _ _)⟩
  · refine ⟨draws_bind _ _ (fun s => Nat.le_succ s.next) (fun entry => draws_make none _), ?_⟩
    intro s s' r h
    rcases (gives_bind _ _ _ _ _).mp h with ⟨entry, s₁, _, h⟩
    exact (makes_make none _).drawn s₁ s' r h

end Relation

namespace App

theorem drawn_of_gives_building (x : Drawing Relation) (hx : Relation.Makes x) (a a' : App)
    (r : Relation) (h : Gives (building x) a r a') : r.id < a'.supply.next :=
  hx.drawn a.supply a'.supply r (gives_building x a a' r h)

/-- The computation keeps a property of programs, whether it succeeds or not. -/
def Keeps (P : App → Prop) {α : Type} (x : Modelling α) : Prop :=
  ∀ a : App, P a → P (x.run a).2

theorem keeps_bind (P : App → Prop) {α β : Type} (x : Modelling α) (f : α → Modelling β)
    (hx : Keeps P x) (hf : ∀ r, Keeps P (f r)) : Keeps P (x >>= f) :=
  fun a ha => ends_bind P x f a (hx a ha) (fun r b _ hb => hf r b hb)

theorem keeps_mapM (P : App → Prop) {α β : Type} (f : α → Modelling β) (xs : List α)
    (hf : ∀ x, Keeps P (f x)) : Keeps P (xs.mapM f) :=
  fun a ha => ends_mapM P f xs (fun x _ b hb => hf x b hb) a ha

theorem keeps_lookUp (P : App → Prop) {α : Type} (x : Except ModelError α) :
    Keeps P (liftM x : Modelling α) := by
  intro a ha
  cases x with
  | error e => exact ha
  | ok r => exact ha

theorem keeps_foldlM (P : App → Prop) {α β : Type} (f : β → α → Modelling β) (xs : List α)
    (init : β) (hf : ∀ b x, Keeps P (f b x)) : Keeps P (xs.foldlM f init) := by
  induction xs generalizing init with
  | nil => exact fun a ha => ha
  | cons x xs ih =>
      rw [List.foldlM_cons]
      exact keeps_bind P _ _ (hf init x) ih

section Build

variable (P : App → Prop)
  (hdraw : ∀ (a : App) (s : IdSupply), a.supply.next ≤ s.next → P a → P { a with supply := s })
  (hop : ∀ (s : Statement) (a : App), P a → P ((newOperation s).run a).2)

include hdraw

theorem keeps_fresh : Keeps P (liftM fresh : Modelling Nat) :=
  fun a ha => hdraw a ⟨a.supply.next + 1⟩ (Nat.le_succ _) ha

theorem keeps_building {α : Type} (x : Drawing α) (hx : Draws x) : Keeps P (building x) :=
  fun a ha => hdraw a (x.run a.supply).2 (hx a.supply) ha

include hop

omit hdraw in
/-- The flow of a graph: only its operations are new. -/
theorem keeps_draftFlow (locations : List LocationId) (entries exits : List Nat)
    (edges : List DraftEdge) : Keeps P (liftM (draftFlow locations entries exits edges)) := by
  unfold draftFlow
  dsimp only
  -- The induction is over the edges, with any flow to begin with.
  generalize (exits.map (counted locations)).foldl Flow.addExit _ = g
  induction edges generalizing g with
  | nil => exact fun a ha => ha
  | cons e es ih =>
      intro a ha
      rw [List.foldlM_cons]
      refine ih _ _ ?_
      cases e.label with
      | statement s => exact hop s a ha
      | operation id => exact ha

/-- Building the relation of a draft draws numbers and adds operations. -/
theorem keeps_build (draft : RelationDraft) : Keeps P draft.build := by
  -- The parts of a draft are built first, and then their relations are put together.
  induction draft with
  | sequence statements =>
      rw [RelationDraft.build]
      refine keeps_bind P _ _ (keeps_mapM P _ _ fun s => hop s) (fun ops => ?_)
      exact keeps_building P hdraw _ (Relation.draws_sequence _)
  | concat first second ihFirst ihSecond =>
      rw [RelationDraft.build]
      refine keeps_bind P _ _ ihFirst (fun r => keeps_bind P _ _ ihSecond (fun r' => ?_))
      exact keeps_building P hdraw _ (Relation.draws_make none _)
  | branch left right ihLeft ihRight =>
      rw [RelationDraft.build]
      refine keeps_bind P _ _ ihLeft (fun r => keeps_bind P _ _ ihRight (fun r' => ?_))
      refine keeps_bind P _ _ (keeps_fresh P hdraw) (fun exit => ?_)
      exact keeps_building P hdraw _ (Relation.makes_branch r r' exit).draws
  | eliminate draft ih =>
      rw [RelationDraft.build]
      refine keeps_bind P _ _ ih (fun r => ?_)
      exact keeps_building P hdraw _ (Relation.draws_make (some r.name) _)
  | graph count entries exits edges =>
      rw [RelationDraft.build]
      refine keeps_bind P _ _ (keeps_mapM P _ _ fun _ => keeps_fresh P hdraw) (fun locations => ?_)
      refine keeps_bind P _ _ (keeps_draftFlow P hop locations entries exits edges) ?_
      exact fun g => keeps_building P hdraw _ (Relation.draws_make none g)
  | named name draft ih =>
      rw [RelationDraft.build]
      exact keeps_bind P _ _ ih (fun r a ha => ha)

end Build

/-- The relation of a draft carries a number that was drawn. -/
theorem drawn_of_build (draft : RelationDraft) (a b : App) (r : Relation)
    (h : Gives draft.build a r b) : r.id < b.supply.next := by
  -- Whatever form the draft has, its relation is made last and draws its number then.
  induction draft generalizing a b r with
  | sequence statements =>
      rw [RelationDraft.build] at h
      rcases (gives_bind _ _ _ _ _).mp h with ⟨ops, c, _, h⟩
      exact drawn_of_gives_building _ (Relation.makes_sequence _) c b r h
  | concat first second _ _ =>
      rw [RelationDraft.build] at h
      rcases (gives_bind _ _ _ _ _).mp h with ⟨r₁, c, _, h⟩
      rcases (gives_bind _ _ _ _ _).mp h with ⟨r₂, d, _, h⟩
      exact drawn_of_gives_building _ (Relation.makes_make none _) d b r h
  | branch left right _ _ =>
      rw [RelationDraft.build] at h
      rcases (gives_bind _ _ _ _ _).mp h with ⟨r₁, c, _, h⟩
      rcases (gives_bind _ _ _ _ _).mp h with ⟨r₂, d, _, h⟩
      rcases (gives_bind _ _ _ _ _).mp h with ⟨exit, e, _, h⟩
      exact drawn_of_gives_building _ (Relation.makes_branch r₁ r₂ exit) e b r h
  | eliminate draft _ =>
      rw [RelationDraft.build] at h
      rcases (gives_bind _ _ _ _ _).mp h with ⟨r₁, c, _, h⟩
      exact drawn_of_gives_building _ (Relation.makes_make (some r₁.name) _) c b r h
  | graph count entries exits edges =>
      rw [RelationDraft.build] at h
      rcases (gives_bind _ _ _ _ _).mp h with ⟨locations, c, _, h⟩
      rcases (gives_bind _ _ _ _ _).mp h with ⟨g, d, _, h⟩
      exact drawn_of_gives_building _ (Relation.makes_make none g) d b r h
  -- A relation under another name keeps its number.
  | named name draft ih =>
      rw [RelationDraft.build] at h
      rcases (gives_bind _ _ _ _ _).mp h with ⟨r₁, c, hr₁, h⟩
      rcases (gives_pure _ _ _ _).mp h with ⟨rfl, rfl⟩
      exact ih a c r₁ hr₁

/-- Building the relation of a draft only adds to the program. -/
theorem extends_build (draft : RelationDraft) (a : App) : a.Extends (draft.build.run a).2 :=
  keeps_build a.Extends (fun b s hle hb => extends_supply a b hb s hle)
    (fun s b hb => extends_newOperation s a b hb) draft a (extends_refl a)

section Register

variable (P : App → Prop)
  (hdraw : ∀ (a : App) (s : IdSupply), a.supply.next ≤ s.next → P a → P { a with supply := s })

include hdraw

/-- Building an actor only draws numbers, for its scripts. -/
theorem keeps_buildActor (relations : List RelationId) (draft : ActorDraft) :
    Keeps P (draft.build relations) := by
  unfold ActorDraft.build
  refine keeps_bind P _ _ (keeps_foldlM P _ _ _ fun _ _ => keeps_lookUp P _) (fun callable => ?_)
  refine keeps_foldlM P _ _ _ fun actor script => ?_
  exact keeps_bind P _ _ (fun a ha => keeps_fresh P hdraw a ha) (fun _ a ha => ha)

theorem keeps_registerActor
    (hactors : ∀ (a : App) (actors : List Actor), P a → P { a with actors := actors })
    (relations : List RelationId) (draft : ActorDraft) : Keeps P (draft.register relations) := by
  unfold ActorDraft.register
  refine keeps_bind P _ _ (keeps_buildActor P hdraw relations draft) (fun actor a ha => ?_)
  unfold addActor
  refine ends_bind P _ _ a ha (fun app b happ hb => ?_)
  cases happ
  split
  · exact ha
  · exact hactors a _ ha

end Register

section Whole

variable (P : App → Prop)
  (hactor : ∀ (relations : List RelationId) (draft : ActorDraft),
    Keeps P (draft.register relations))

include hactor

theorem keeps_registerActors (relations : List RelationId) (drafts : List ActorDraft) :
    Keeps P (forIn drafts PUnit.unit fun draft _ => do
      draft.register relations
      pure (ForInStep.yield PUnit.unit)) := by
  induction drafts with
  | nil => exact fun a ha => ha
  | cons draft drafts ih =>
      -- The loop never stops early, so the rest of the actors follows.
      rw [List.forIn_cons]
      refine keeps_bind P _ _ ?_ (fun next => ?_)
      · exact keeps_bind P _ _ (hactor relations draft) (fun _ a ha => ha)
      · cases next with
        | done _ => exact fun a ha => ha
        | yield _ => exact ih

/-- Building a program registers relations and then actors. -/
theorem keeps_buildApp (hregister : ∀ draft : RelationDraft, Keeps P draft.register)
    (draft : AppDraft) : Keeps P draft.build := by
  unfold AppDraft.build
  refine keeps_bind P _ _ (keeps_mapM P _ _ fun r => ?_) (fun relations => ?_)
  -- The map is a sequence of two steps, of which only the first changes the program.
  · have hmap : Relation.id <$> r.register = r.register >>= fun s => pure s.id :=
      (bind_pure_comp _ _).symm
    rw [hmap]
    exact keeps_bind P _ (fun s => pure s.id) (hregister r) (fun _ a ha => ha)
  · exact keeps_bind P _ _ (keeps_registerActors P hactor relations draft.actors)
      (fun _ a ha => ha)

end Whole

theorem relationsDrawn_of_register (draft : RelationDraft) :
    Keeps RelationsDrawn draft.register := by
  intro a ha
  unfold RelationDraft.register
  have hbuild := relationsDrawn_of_extends a _ (extends_build draft a) ha
  refine ends_bind RelationsDrawn _ _ a hbuild (fun r b hr hb => ?_)
  have hdrawn := drawn_of_build draft a b r hr
  refine ends_bind RelationsDrawn _ _ b ?_ (fun _ c _ hc => hc)
  -- The relation is registered under its own number, which was drawn.
  intro id hid
  have hmem : id ∈ b.relations.insert r.id r := hid
  rcases Std.ExtTreeMap.mem_insert.mp hmem with heq | hold
  · have hid' : r.id = id := Std.LawfulEqCmp.eq_of_compare heq
    rw [← hid']
    exact hdrawn
  · exact hb id hold

/-- The relations of a drafted program carry numbers that were drawn. -/
theorem relationsDrawn_of_draft (draft : AppDraft) (name : String) :
    (draft.build.run (App.new name)).2.RelationsDrawn := by
  have hnew : (App.new name).RelationsDrawn := fun id hid => absurd hid Std.ExtTreeMap.not_mem_empty
  -- Actors have no numbers of relations, so only the relations have to be looked at.
  refine keeps_buildApp RelationsDrawn (keeps_registerActor RelationsDrawn ?_ (fun _ _ ha => ha))
    relationsDrawn_of_register draft (App.new name) hnew
  exact fun a s hle ha id hid => Nat.lt_of_lt_of_le (ha id hid) hle

end App

end ActorCheck
