import ActorCheck.Program.App
import ActorCheck.Proofs.Flow.WellFormed
import ActorCheck.Proofs.Outcome
import Mathlib.Data.List.Infix

/-!
# Growing Programs

An analysis adds to the program it explores: it draws numbers and makes
operations, relations and scripts known under them. This module says that it
does nothing else, so what was looked up once is found again later.

`Extends` compares two programs. They have the same actors, and they agree on
every number except those that were drawn in between. Stated this way it holds
of every program whatsoever. Only when it is used does it matter that the
numbers a program already has were drawn from its supply, for only then does
"drawn later" mean "not there before". `RelationsDrawn` is that condition for
relations. Relations draw their numbers when they are made, so it holds of
every program whose relations were made before they were added.

A relation that is added has to carry a number drawn in between. So a
computation that makes a relation and adds it extends the program as a whole,
though the addition alone need not.

## Main definitions

* `Draws`: A computation takes no number back.
* `App.Extends`: One program is another one with additions.
* `App.RelationsDrawn`: The numbers of all relations were drawn.

## Theorems

* `Relation.gives_make_iff`: When a relation can be made.
* `App.extends_refl`, `App.extends_trans`: Extension is a preorder.
* `App.relation_of_extends`: A relation that was found is found again.
* `App.script_of_extends`: A script that was found is found again.
* `App.extends_addRelation`: Adding a relation that drew its number.
* `App.extends_conditionScript`: Asking for a condition script.
-/

namespace ActorCheck

/-- A computation on the supply of numbers takes none back. -/
def Draws {α : Type} (x : Drawing α) : Prop :=
  ∀ s : IdSupply, s.next ≤ (x.run s).2.next

theorem draws_bind {α β : Type} (x : Drawing α) (f : α → Drawing β) (hx : Draws x)
    (hf : ∀ a, Draws (f a)) : Draws (x >>= f) := by
  intro s
  refine ends_bind (fun t => s.next ≤ t.next) x f s (hx s) (fun a t _ ht => ?_)
  exact Nat.le_trans ht (hf a t)

namespace Relation

/-- Making a relation draws one number for it, also if the flow is refused. -/
theorem make_run (name : Option String) (g : Flow) (s : IdSupply) :
    (make name g).run s
      = (match g.dangling? with
        | some l => .error (.unregisteredLocation (name.getD (relationText s.next)) l)
        | none => .ok ⟨g, s.next, name.getD (relationText s.next)⟩, ⟨s.next + 1⟩) := by
  unfold make
  rcases g.dangling? with _ | l
  · rfl
  · rfl

/-- Making a relation succeeds exactly if its flow is well formed. -/
theorem gives_make_iff (name : Option String) (g : Flow) (s s' : IdSupply) (r : Relation) :
    Gives (make name g) s r s'
      ↔ g.WellFormed ∧ r = ⟨g, s.next, name.getD (relationText s.next)⟩ ∧ s' = ⟨s.next + 1⟩ := by
  unfold Gives
  -- A location that is not registered is what makes a flow ill formed, and the first one is
  -- reported.
  rw [make_run, ← g.dangling_eq_none_iff]
  cases g.dangling? with
  | none =>
      constructor
      · intro h
        cases h
        exact ⟨rfl, rfl, rfl⟩
      · rintro ⟨_, rfl, rfl⟩
        rfl
  | some l => exact iff_of_false nofun fun h => nomatch h.1

theorem draws_make (name : Option String) (g : Flow) : Draws (make name g) := by
  intro s
  rw [make_run]
  exact Nat.le_succ s.next

/-- A relation that was made carries the number that was drawn for it. -/
theorem id_of_gives_make (name : Option String) (g : Flow) (s s' : IdSupply) (r : Relation)
    (h : Gives (make name g) s r s') : r.id = s.next ∧ s'.next = s.next + 1 := by
  rcases (gives_make_iff name g s s' r).mp h with ⟨_, rfl, rfl⟩
  exact ⟨rfl, rfl⟩

theorem draws_append (r : Relation) (op : OperationId) (goto : LocationId) :
    Draws (r.append op goto) := by
  unfold append
  split
  · exact fun s => Nat.le_refl s.next
  · exact draws_make none _

theorem draws_appendAll (r : Relation) (ops : List OperationId) : Draws (r.appendAll ops) := by
  induction ops generalizing r with
  | nil => exact fun s => Nat.le_refl s.next
  | cons op ops ih =>
      rw [appendAll]
      refine draws_bind _ _ (fun s => Nat.le_succ s.next) (fun goto => ?_)
      exact draws_bind _ _ (draws_append r op goto) ih

theorem draws_sequence (ops : List OperationId) : Draws (sequence ops) := by
  unfold sequence
  refine draws_bind _ _ (fun s => ?_) (fun r => draws_appendAll r ops)
  exact Nat.le_add_right s.next 2

end Relation

namespace App

/-- One program is another one with additions: the same actors, and the same
    under every number that was not drawn in between. -/
structure Extends (a b : App) : Prop where
  supply : a.supply.next ≤ b.supply.next
  actors : b.actors = a.actors
  relations : ∀ id, id < a.supply.next ∨ b.supply.next ≤ id → b.relations[id]? = a.relations[id]?
  operations : ∀ id, id < a.supply.next ∨ b.supply.next ≤ id →
    b.operations[id]? = a.operations[id]?
  conditionScripts : a.conditionScripts <+: b.conditionScripts

/-- The numbers of all relations were drawn from the supply of the program. -/
def RelationsDrawn (app : App) : Prop :=
  ∀ id : Nat, id ∈ app.relations → id < app.supply.next

theorem extends_refl (a : App) : a.Extends a :=
  ⟨Nat.le_refl _, rfl, fun _ _ => rfl, fun _ _ => rfl, List.prefix_refl _⟩

theorem extends_trans (a b c : App) (hab : a.Extends b) (hbc : b.Extends c) : a.Extends c := by
  have hsupply := hab.supply
  have hsupply' := hbc.supply
  refine ⟨by omega, hbc.actors.trans hab.actors, ?_, ?_,
    hab.conditionScripts.trans hbc.conditionScripts⟩
  · intro id hid
    rw [hbc.relations id (by omega), hab.relations id (by omega)]
  · intro id hid
    rw [hbc.operations id (by omega), hab.operations id (by omega)]

/-- Additions do not touch a relation whose number was drawn before. -/
theorem relation_of_drawn (a b : App) (h : a.Extends b) (id : Nat) (hid : id < a.supply.next) :
    b.relation id = a.relation id := by
  unfold relation
  rw [h.relations id (Or.inl hid)]

/-- A relation that was found is found again after additions. -/
theorem relation_of_extends (a b : App) (h : a.Extends b) (hdrawn : a.RelationsDrawn)
    (id : RelationId) (r : Relation) (hr : a.relation id = .ok r) : b.relation id = .ok r := by
  -- A relation that was found has a number that was drawn, and what is under such a number stays.
  cases hget : a.relations[id]? with
  | none =>
      unfold relation at hr
      rw [hget] at hr
      cases hr
  | some found =>
      have hid : id < a.supply.next :=
        hdrawn id (Std.ExtTreeMap.mem_iff_isSome_getElem?.mpr (by rw [hget]; rfl))
      rw [relation_of_drawn a b h id hid, hr]

theorem relationsDrawn_of_extends (a b : App) (h : a.Extends b) (hdrawn : a.RelationsDrawn) :
    b.RelationsDrawn := by
  intro id hid
  -- A relation under a number that was not drawn would have been there before.
  by_contra hle
  have hsome := Std.ExtTreeMap.mem_iff_isSome_getElem?.mp hid
  rw [h.relations id (Or.inr (by omega))] at hsome
  have hlt := hdrawn id (Std.ExtTreeMap.mem_iff_isSome_getElem?.mpr hsome)
  have hsupply := h.supply
  omega

/-- A script that was found is found again after additions. -/
theorem script_of_extends (a b : App) (h : a.Extends b) (owner : ActorName) (id : ScriptId)
    (s : Script) (hs : a.script owner id = .ok s) : b.script owner id = .ok s := by
  have hactor : b.actor owner = a.actor owner := by
    unfold actor
    rw [h.actors]
  rcases h.conditionScripts with ⟨more, hmore⟩
  unfold script at hs ⊢
  rw [hactor, ← hmore, List.find?_append]
  rcases (except_bind_ok _ _ _).mp hs with ⟨found, hfound, hs⟩
  refine (except_bind_ok _ _ _).mpr ⟨found, hfound, ?_⟩
  -- A script of the actor itself comes before those of conditions.
  rcases hown : found.script? id with _ | own
  · rw [hown] at hs
    rcases hmade : a.conditionScripts.find? (fun c => c.owner == owner && c.script.id == id) with
      _ | made
    · rw [hmade] at hs
      cases hs
    · rw [hmade] at hs
      rw [hmade, Option.some_or]
      exact hs
  · rw [hown] at hs
    exact hs

/-- Drawing numbers only moves the supply. -/
theorem extends_supply (a b : App) (h : a.Extends b) (s : IdSupply) (hs : b.supply.next ≤ s.next) :
    a.Extends { b with supply := s } :=
  ⟨Nat.le_trans h.supply hs, h.actors, fun id hid => h.relations id (hid.imp_right hs.trans),
    fun id hid => h.operations id (hid.imp_right hs.trans), h.conditionScripts⟩

theorem fresh_run (a : App) :
    fresh.run a = (a.supply.next, { a with supply := ⟨a.supply.next + 1⟩ }) :=
  rfl

theorem building_run {α : Type} (x : Drawing α) (a : App) :
    (building x).run a = ((x.run a.supply).1, { a with supply := (x.run a.supply).2 }) :=
  rfl

theorem newOperation_run (s : Statement) (a : App) :
    (newOperation s).run a = (⟨a.supply.next, s⟩, { a with
      supply := ⟨a.supply.next + 1⟩
      operations := a.operations.insert a.supply.next s }) :=
  rfl

theorem extends_fresh (a b : App) (h : a.Extends b) : a.Extends (fresh.run b).2 :=
  extends_supply a b h ⟨b.supply.next + 1⟩ (Nat.le_succ _)

theorem extends_building {α : Type} (x : Drawing α) (hx : Draws x) (a b : App)
    (h : a.Extends b) : a.Extends ((building x).run b).2 :=
  extends_supply a b h (x.run b.supply).2 (hx b.supply)

/-- A new operation gets a number of its own. -/
theorem extends_newOperation (s : Statement) (a b : App) (h : a.Extends b) :
    a.Extends ((newOperation s).run b).2 := by
  have hsupply := h.supply
  rw [newOperation_run]
  refine ⟨Nat.le_succ_of_le hsupply, h.actors, ?_, ?_, h.conditionScripts⟩
  · intro id hid
    exact h.relations id (hid.imp_right Nat.le_of_succ_le)
  · intro id hid
    change (b.operations.insert b.supply.next s)[id]? = _
    -- The number of the new operation lies between the supplies.
    have hne : b.supply.next ≠ id := by
      rcases hid with hid | hid
      · omega
      · change b.supply.next + 1 ≤ id at hid
        omega
    rw [Std.ExtTreeMap.getElem?_insert, if_neg (by simpa using hne)]
    exact h.operations id (hid.imp_right Nat.le_of_succ_le)

/-- Adding a relation whose number was drawn in between. -/
theorem extends_addRelation (r : Relation) (a b : App) (h : a.Extends b)
    (hlo : a.supply.next ≤ r.id) (hhi : r.id < b.supply.next) :
    a.Extends ((addRelation r).run b).2 := by
  refine ⟨h.supply, h.actors, ?_, h.operations, h.conditionScripts⟩
  intro id hid
  change (b.relations.insert r.id r)[id]? = _
  -- The number of the relation was drawn in between, and this one was not.
  have hne : id ≠ r.id := by
    rcases hid with hid | hid
    · exact Nat.ne_of_lt (Nat.lt_of_lt_of_le hid hlo)
    · exact Nat.ne_of_gt (Nat.lt_of_lt_of_le hhi hid)
  rw [Std.ExtTreeMap.getElem?_insert, if_neg (by simpa using hne.symm)]
  exact h.relations id hid

/-- Building in a program is building from its supply. -/
theorem gives_building {α : Type} (x : Drawing α) (a a' : App) (r : α)
    (h : Gives (building x) a r a') : Gives x a.supply r a'.supply := by
  unfold Gives at h
  rw [building_run, Prod.mk.injEq] at h
  rw [← h.2]
  exact Prod.ext h.1 rfl

/-- The relation that a computation has made carries a number between the
    supplies before and after it. -/
theorem id_of_gives_building_make (name : Option String) (g : Flow) (b b' : App) (r : Relation)
    (h : Gives (building (Relation.make name g)) b r b') :
    b.supply.next ≤ r.id ∧ r.id < b'.supply.next := by
  rcases Relation.id_of_gives_make name g _ _ r (gives_building _ b b' r h) with ⟨hid, hnext⟩
  rw [hid, hnext]
  exact ⟨Nat.le_refl _, Nat.lt_succ_self _⟩

theorem extends_makeConditionScript (owner : ActorName) (condition : Expr) (a : App) :
    a.Extends ((makeConditionScript owner condition).run a).2 := by
  unfold makeConditionScript
  refine ends_bind a.Extends _ _ a (extends_newOperation _ a a (extends_refl a)) ?_
  intro holds b _ hb
  refine ends_bind a.Extends _ _ b (extends_newOperation _ a b hb) ?_
  intro fails b₁ _ hb₁
  refine ends_bind a.Extends _ _ b₁ (extends_fresh a b₁ hb₁) ?_
  intro entry b₂ _ hb₂
  refine ends_bind a.Extends _ _ b₂ (extends_fresh a b₂ hb₂) ?_
  intro exit b₃ _ hb₃
  refine ends_bind a.Extends _ _ b₃ (extends_fresh a b₃ hb₃) ?_
  intro reject b₄ _ hb₄
  refine ends_bind a.Extends _ _ b₄ (extends_building _ (Relation.draws_make none _) a b₄ hb₄) ?_
  -- From here on the relation is known to carry a number that is new.
  intro r b₅ hr hb₅
  have hid := id_of_gives_building_make none _ b₄ b₅ r hr
  refine ends_bind a.Extends _ _ b₅
    (extends_addRelation r a b₅ hb₅ (Nat.le_trans hb₄.supply hid.1) hid.2) ?_
  intro _ b₆ _ hb₆
  refine ends_bind a.Extends _ _ b₆ (extends_fresh a b₆ hb₆) ?_
  intro s b₇ _ hb₇
  exact ⟨hb₇.supply, hb₇.actors, hb₇.relations, hb₇.operations,
    hb₇.conditionScripts.trans (List.prefix_append _ _)⟩

/-- Asking for the script of a condition only adds to the program. -/
theorem extends_conditionScript (owner : ActorName) (condition : Expr) (a : App) :
    a.Extends ((conditionScript owner condition).run a).2 := by
  unfold conditionScript
  refine ends_bind a.Extends _ _ a (extends_refl a) ?_
  intro app b happ _
  cases happ
  -- The actor is looked up first, which changes nothing, and then the script is found or made.
  refine ends_bind a.Extends _ _ a ?_ ?_
  · cases a.actor owner with
    | error e => exact extends_refl a
    | ok actor => exact extends_refl a
  · intro _ b hb _
    rw [gives_lookUp] at hb
    rcases hb with ⟨_, rfl⟩
    split
    · exact extends_refl _
    · exact extends_makeConditionScript owner condition _

end App

end ActorCheck
