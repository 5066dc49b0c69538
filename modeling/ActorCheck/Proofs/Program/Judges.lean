import ActorCheck.Proofs.Flow.Composition
import ActorCheck.Proofs.Flow.Silence
import ActorCheck.Proofs.Program.Drafts

/-!
# Scripts of Conditions

What a program knows about the scripts that evaluate conditions. Such a script runs a relation
that decides its condition: every edge requires the condition or its negation, and no edge that
requires the negation leads to an exit. So whoever runs the relation to an exit has found the
condition to hold.

`WellMade` says this of all scripts of conditions, together with what makes it survive additions:
numbers are drawn before they are used, and no two scripts share one. A program as it was written
has no such script yet, so all that is asked of it is that its numbers were drawn.

The relation that moves the clock is the other one that is made while a program is explored.
`Advances` says that it does nothing but assign one value to one variable.

## Main definitions

* `App.OperationsDrawn`: The numbers of all operations were drawn.
* `App.Judges`: A relation decides a condition.
* `App.WellMade`: The scripts of conditions decide them.
* `App.Advances`: A relation assigns a value to a variable and does nothing else.

## Theorems

* `App.wellMade_of_new`: A program without scripts of conditions.
* `App.wellMade_of_draft`: A program as it was written.
* `App.wellMade_of_extends`: Additions that make no script of a condition.
* `App.wellMade_of_conditionScript`: Asking for the script of a condition.
* `App.known_of_gives_conditionScript`: What is answered is a script of the condition.
* `Relation.ops_of_gives_sequence`: The operations of a relation.
-/

namespace ActorCheck

namespace App

/-- The numbers of all operations were drawn from the supply of the program. -/
def OperationsDrawn (app : App) : Prop :=
  ∀ id : Nat, id ∈ app.operations → id < app.supply.next

/-- Additions do not touch an operation whose number was drawn before. -/
theorem operation_of_drawn (a b : App) (h : a.Extends b) (id : Nat) (hid : id < a.supply.next) :
    b.operation id = a.operation id := by
  unfold operation
  rw [h.operations id (Or.inl hid)]

section Operations

variable (a b : App) (h : a.Extends b) (hdrawn : a.OperationsDrawn)

include h hdrawn

/-- An operation that was found is found again after additions. -/
theorem operation_of_extends (id : OperationId) (op : Operation) (hop : a.operation id = .ok op) :
    b.operation id = .ok op := by
  -- An operation that was found has a number that was drawn, and such operations stay.
  cases hget : a.operations[id]? with
  | none =>
      unfold operation at hop
      rw [hget] at hop
      cases hop
  | some found =>
      have hid : id < a.supply.next :=
        hdrawn id (Std.ExtTreeMap.mem_iff_isSome_getElem?.mpr (by rw [hget]; rfl))
      rw [operation_of_drawn a b h id hid, hop]

theorem operationsDrawn_of_extends : b.OperationsDrawn := by
  intro id hid
  -- An operation under a number that was not drawn would have been there before.
  by_contra hle
  have hsome := Std.ExtTreeMap.mem_iff_isSome_getElem?.mp hid
  rw [h.operations id (Or.inr (Nat.le_of_not_lt hle))] at hsome
  have hlt := hdrawn id (Std.ExtTreeMap.mem_iff_isSome_getElem?.mpr hsome)
  exact hle (Nat.lt_of_lt_of_le hlt h.supply)

end Operations

/-- The relation decides the condition. It has one entry, which is no exit. Every edge requires
    the condition or its negation, and no exit is reached by requiring the negation. -/
structure Judges (app : App) (r : Relation) (condition : Expr) : Prop where
  entry : ∃ l, r.soleEntry = .ok l ∧ l ∉ r.exits
  acts : ∀ e ∈ r.edges, e.op ≠ epsilonId
  edges : ∀ e ∈ r.edges, app.operation e.op = .ok ⟨e.op, .assume condition⟩
    ∨ (app.operation e.op = .ok ⟨e.op, .assume (.not condition)⟩ ∧ e.target ∉ r.exits)

/-- The relation assigns a value to a variable and does nothing else. -/
def Advances (app : App) (r : Relation) (v : Variable) (e : Expr) : Prop :=
  ∀ edge ∈ r.edges, app.operation edge.op = .ok ⟨edge.op, .store v e⟩

/-- A script evaluates its condition, by a relation that decides it. -/
structure Evaluates (app : App) (c : ConditionScript) : Prop where
  drawn : c.script.id < app.supply.next
  judge : ∃ r, app.relation c.script.relation = .ok r ∧ r.id = c.script.relation
    ∧ app.Judges r c.condition

/-- Numbers are drawn before they are used, and the scripts of conditions evaluate them. -/
structure WellMade (app : App) : Prop where
  started : epsilonId < app.supply.next
  relations : app.RelationsDrawn
  operations : app.OperationsDrawn
  scripts : ∀ c ∈ app.conditionScripts, app.Evaluates c
  unique : ∀ c ∈ app.conditionScripts, ∀ d ∈ app.conditionScripts,
    c.script.id = d.script.id → c = d

/-- A program without scripts of conditions. -/
theorem wellMade_of_new (app : App) (hstarted : epsilonId < app.supply.next)
    (hrelations : app.RelationsDrawn) (hoperations : app.OperationsDrawn)
    (hnone : app.conditionScripts = []) : app.WellMade := by
  refine ⟨hstarted, hrelations, hoperations, ?_, ?_⟩
  · rw [hnone]
    exact fun c hc => absurd hc List.not_mem_nil
  · rw [hnone]
    exact fun c hc => absurd hc List.not_mem_nil

/-- A program that was built and not asked to evaluate a condition yet. -/
structure Unasked (app : App) : Prop where
  started : epsilonId < app.supply.next
  operations : app.OperationsDrawn
  scripts : app.conditionScripts = []

theorem unasked_of_supply (app : App) (s : IdSupply) (hle : app.supply.next ≤ s.next)
    (h : app.Unasked) : { app with supply := s }.Unasked :=
  ⟨Nat.lt_of_lt_of_le h.started hle, fun id hid => Nat.lt_of_lt_of_le (h.operations id hid) hle,
    h.scripts⟩

theorem unasked_of_newOperation (s : Statement) (app : App) (h : app.Unasked) :
    ((newOperation s).run app).2.Unasked :=
  have hext := extends_newOperation s app app (extends_refl app)
  ⟨Nat.lt_of_lt_of_le h.started hext.supply, operationsDrawn_of_extends _ _ hext h.operations,
    h.scripts⟩

theorem unasked_of_register (draft : RelationDraft) : Keeps Unasked draft.register := by
  unfold RelationDraft.register
  refine keeps_bind Unasked _ _ ?_ (fun r => ?_)
  · exact keeps_build Unasked unasked_of_supply unasked_of_newOperation draft
  · exact keeps_bind Unasked _ _ (fun a ha => ⟨ha.started, ha.operations, ha.scripts⟩)
      (fun _ a ha => ha)

/-- A drafted program was not asked to evaluate a condition yet. -/
theorem unasked_of_draft (draft : AppDraft) (name : String) :
    (draft.build.run (App.new name)).2.Unasked := by
  have hnew : (App.new name).Unasked := by
    refine ⟨Nat.lt_succ_self epsilonId, fun id hid => ?_, rfl⟩
    have hmem : id ∈ Std.ExtTreeMap.ofList [(epsilonId, Statement.epsilon)] := hid
    rw [Std.ExtTreeMap.mem_ofList, List.contains_iff_mem] at hmem
    rw [List.mem_singleton.mp hmem]
    exact Nat.lt_succ_self epsilonId
  -- Neither the relations nor the actors of a draft ask for a condition.
  have hactor := keeps_registerActor Unasked unasked_of_supply
    (fun _ _ h => ⟨h.started, h.operations, h.scripts⟩)
  exact keeps_buildApp Unasked hactor unasked_of_register draft (App.new name) hnew

/-- A drafted program is well made. -/
theorem wellMade_of_draft (draft : AppDraft) (name : String) :
    (draft.build.run (App.new name)).2.WellMade :=
  have hbuilt := unasked_of_draft draft name
  wellMade_of_new _ hbuilt.started (relationsDrawn_of_draft draft name) hbuilt.operations
    hbuilt.scripts

section Growth

variable (a b : App) (h : a.Extends b)

include h

theorem judges_of_extends (hdrawn : a.OperationsDrawn) (r : Relation) (condition : Expr)
    (hr : a.Judges r condition) : b.Judges r condition := by
  have hfound := fun id op => operation_of_extends a b h hdrawn id op
  refine ⟨hr.entry, hr.acts, fun e he => ?_⟩
  exact (hr.edges e he).imp (hfound _ _) (And.imp_left (hfound _ _))

theorem advances_of_extends (hdrawn : a.OperationsDrawn) (r : Relation) (v : Variable) (e : Expr)
    (hr : a.Advances r v e) : b.Advances r v e :=
  fun edge hedge => operation_of_extends a b h hdrawn _ _ (hr edge hedge)

variable (ha : a.WellMade)

include ha

theorem evaluates_of_extends (c : ConditionScript) (hc : a.Evaluates c) : b.Evaluates c := by
  rcases hc with ⟨hdrawn, r, hr, hid, hjudges⟩
  exact ⟨Nat.lt_of_lt_of_le hdrawn h.supply, r, relation_of_extends a b h ha.relations _ r hr, hid,
    judges_of_extends a b h ha.operations r _ hjudges⟩

/-- Additions that make no script of a condition. -/
theorem wellMade_of_extends (hsame : b.conditionScripts = a.conditionScripts) : b.WellMade := by
  refine ⟨Nat.lt_of_lt_of_le ha.started h.supply, relationsDrawn_of_extends a b h ha.relations,
    operationsDrawn_of_extends a b h ha.operations, ?_, ?_⟩
  · rw [hsame]
    exact fun c hc => evaluates_of_extends a b h ha c (ha.scripts c hc)
  · rw [hsame]
    exact ha.unique

/-- A new script of a condition, under a number that was drawn for it. -/
theorem wellMade_of_addScript (c : ConditionScript)
    (hnew : b.conditionScripts = a.conditionScripts ++ [c]) (hid : a.supply.next ≤ c.script.id)
    (hc : b.Evaluates c) : b.WellMade := by
  -- The numbers of all other scripts are older.
  have hother : ∀ d ∈ a.conditionScripts, d.script.id ≠ c.script.id := fun d hd =>
    Nat.ne_of_lt (Nat.lt_of_lt_of_le (ha.scripts d hd).drawn hid)
  refine ⟨Nat.lt_of_lt_of_le ha.started h.supply, relationsDrawn_of_extends a b h ha.relations,
    operationsDrawn_of_extends a b h ha.operations, ?_, ?_⟩
  · intro d hd
    rw [hnew] at hd
    rcases List.mem_append.mp hd with hd | hd
    · exact evaluates_of_extends a b h ha d (ha.scripts d hd)
    · rw [List.mem_singleton.mp hd]
      exact hc
  · intro d hd d' hd' heq
    rw [hnew] at hd hd'
    -- Two old scripts differ as before, and the new one differs from every old one.
    rcases List.mem_append.mp hd with hd | hd <;> rcases List.mem_append.mp hd' with hd' | hd'
    · exact ha.unique d hd d' hd' heq
    · rw [List.mem_singleton.mp hd'] at heq
      exact absurd heq (hother d hd)
    · rw [List.mem_singleton.mp hd] at heq
      exact absurd heq.symm (hother d' hd')
    · rw [List.mem_singleton.mp hd, List.mem_singleton.mp hd']

end Growth

section Making

/-- The relation that decides a condition, when the supply stood at a number. -/
def judge (n : Nat) : Relation :=
  ⟨conditionFlow (n + 2) (n + 3) (n + 4) n (n + 1), n + 5, relationText (n + 5)⟩

theorem mem_edges_judge (n : Nat) (e : Edge) :
    e ∈ (judge n).edges ↔ e = ⟨n + 2, n + 3, n⟩ ∨ e = ⟨n + 2, n + 4, n + 1⟩ := by
  change e ∈ (((∅ : EdgeSet).insert ⟨n + 2, n + 3, n⟩).insert ⟨n + 2, n + 4, n + 1⟩) ↔ _
  rw [Std.ExtTreeSet.mem_insert, Std.ExtTreeSet.mem_insert, Std.LawfulEqCmp.compare_eq_iff_eq,
    Std.LawfulEqCmp.compare_eq_iff_eq, or_iff_left Std.ExtTreeSet.not_mem_empty, or_comm]
  exact or_congr eq_comm eq_comm

theorem mem_exits_judge (n : Nat) (l : LocationId) : l ∈ (judge n).exits ↔ l = n + 3 :=
  Flow.mem_singleton_iff (n + 3) l

theorem soleEntry_judge (n : Nat) : (judge n).soleEntry = .ok (n + 2) := by
  have hentries : (judge n).entries.toList = [n + 2] := Flow.toList_singleton (n + 2)
  unfold Relation.soleEntry
  rw [hentries]

/-- The operations of a condition script are known, so its relation decides the condition. -/
theorem judges_judge (app : App) (n : Nat) (condition : Expr) (hn : epsilonId < n)
    (hholds : app.operation n = .ok ⟨n, .assume condition⟩)
    (hfails : app.operation (n + 1) = .ok ⟨n + 1, .assume (.not condition)⟩) :
    app.Judges (judge n) condition := by
  -- The only exit is the place behind the edge that requires the condition.
  have hnoExit : ∀ m, m ≠ n + 3 → m ∉ (judge n).exits := fun m hne hm =>
    hne ((mem_exits_judge n m).mp hm)
  refine ⟨⟨n + 2, soleEntry_judge n, hnoExit (n + 2) (by omega)⟩, fun e he => ?_, fun e he => ?_⟩
  · rcases (mem_edges_judge n e).mp he with rfl | rfl
    · exact Nat.ne_of_gt hn
    · exact Nat.ne_of_gt (Nat.lt_succ_of_lt hn)
  · rcases (mem_edges_judge n e).mp he with rfl | rfl
    · exact Or.inl hholds
    · exact Or.inr ⟨hfails, hnoExit (n + 4) (by omega)⟩

/-- The program after the parts of a condition script were made. -/
def withJudge (app : App) (condition : Expr) : App :=
  let n := app.supply.next
  { app with
    supply := ⟨n + 7⟩
    relations := app.relations.insert (n + 5) (judge n)
    operations := (app.operations.insert n (.assume condition)).insert (n + 1)
      (.assume (.not condition)) }

theorem operation_insert_self (app : App) (id : OperationId) (s : Statement)
    (operations : OperationTable) (h : app.operations = operations.insert id s) :
    app.operation id = .ok ⟨id, s⟩ := by
  unfold operation
  rw [h, Std.ExtTreeMap.getElem?_insert_self]

theorem holds_withJudge (app : App) (condition : Expr) :
    (app.withJudge condition).operation app.supply.next
      = .ok ⟨app.supply.next, .assume condition⟩ := by
  -- The operation that requires the negation was inserted later, under another number.
  unfold operation withJudge
  rw [Std.ExtTreeMap.getElem?_insert, if_neg (by simp), Std.ExtTreeMap.getElem?_insert_self]

theorem fails_withJudge (app : App) (condition : Expr) :
    (app.withJudge condition).operation (app.supply.next + 1)
      = .ok ⟨app.supply.next + 1, .assume (.not condition)⟩ :=
  operation_insert_self _ _ _ _ rfl

theorem relation_withJudge (app : App) (condition : Expr) :
    (app.withJudge condition).relation (app.supply.next + 5) = .ok (judge app.supply.next) := by
  unfold relation withJudge
  rw [Std.ExtTreeMap.getElem?_insert_self]

theorem judges_withJudge (app : App) (condition : Expr) (h : app.WellMade) :
    (app.withJudge condition).Judges (judge app.supply.next) condition :=
  judges_judge _ _ condition h.started (app.holds_withJudge condition)
    (app.fails_withJudge condition)

/-- Every place that the relation mentions belongs to it, so it is not refused. -/
theorem wellFormed_judge (n : Nat) : (judge n).WellFormed := by
  have hlocations (l : LocationId) :
      l ∈ (judge n).locations ↔ l = n + 4 ∨ l = n + 3 ∨ l = n + 2 := by
    change l ∈ (((∅ : LocationSet).insert (n + 2)).insert (n + 3)).insert (n + 4) ↔ _
    rw [mem_insert_iff, mem_insert_iff, Flow.mem_singleton_iff]
  refine (Flow.wellFormed_iff _).mpr ⟨fun e he => ?_, fun l hl => ?_, fun l hl => ?_⟩
  · rw [hlocations, hlocations]
    rcases (mem_edges_judge n e).mp he with rfl | rfl
    · exact ⟨Or.inr (Or.inr rfl), Or.inr (Or.inl rfl)⟩
    · exact ⟨Or.inr (Or.inr rfl), Or.inl rfl⟩
  · exact (hlocations l).mpr (Or.inr (Or.inr ((Flow.mem_singleton_iff (n + 2) l).mp hl)))
  · exact (hlocations l).mpr (Or.inr (Or.inl ((mem_exits_judge n l).mp hl)))

/-- Making the script of a condition draws seven numbers, and does not fail. -/
theorem makeConditionScript_run (owner : ActorName) (condition : Expr) (a : App) :
    (makeConditionScript owner condition).run a = (.ok ⟨a.supply.next + 6, .conditionCheck,
        a.supply.next + 5⟩, { a.withJudge condition with
          conditionScripts := a.conditionScripts
            ++ [⟨owner, condition,
              ⟨a.supply.next + 6, .conditionCheck, a.supply.next + 5⟩⟩] }) := by
  have hdangling : (judge a.supply.next).dangling? = none :=
    (Flow.dangling_eq_none_iff _).mpr (wellFormed_judge a.supply.next)
  unfold judge at hdangling
  unfold makeConditionScript
  rw [run_lift_bind, newOperation_run, run_lift_bind, newOperation_run, run_lift_bind, fresh_run,
    run_lift_bind, fresh_run, run_lift_bind, fresh_run, run_bind, building_run, Relation.make_run]
  dsimp only at hdangling ⊢
  rw [hdangling]
  rfl

theorem wellMade_of_makeConditionScript (owner : ActorName) (condition : Expr) (a : App)
    (ha : a.WellMade) : ((makeConditionScript owner condition).run a).2.WellMade := by
  have hext := extends_makeConditionScript owner condition a
  rw [makeConditionScript_run] at hext ⊢
  refine wellMade_of_addScript a _ hext ha _ rfl (Nat.le_add_right _ 6) ?_
  -- The list of scripts has no part in what the relation decides.
  have hjudges := judges_withJudge a condition ha
  exact ⟨Nat.lt_succ_self _, judge a.supply.next, a.relation_withJudge condition, rfl,
    hjudges.entry, hjudges.acts, hjudges.edges⟩

/-- Asking for the script of a condition leaves the program as it is, or makes the script. -/
theorem ends_conditionScript (P : App → Prop) (owner : ActorName) (condition : Expr) (a : App)
    (ha : P a) (hmade : P ((makeConditionScript owner condition).run a).2) :
    P ((conditionScript owner condition).run a).2 := by
  unfold conditionScript
  refine ends_bind P _ _ a ha (fun app b happ _ => ?_)
  cases happ
  -- The actor is only looked up. What counts is whether there is a script already.
  refine ends_lookUp_bind P _ _ a ha (fun _ _ => ?_)
  split
  · exact ha
  · exact hmade

theorem wellMade_of_conditionScript (owner : ActorName) (condition : Expr) (a : App)
    (ha : a.WellMade) : ((conditionScript owner condition).run a).2.WellMade :=
  ends_conditionScript WellMade owner condition a ha
    (wellMade_of_makeConditionScript owner condition a ha)

/-- What is answered is a script of the condition. -/
theorem known_of_gives_conditionScript (owner : ActorName) (condition : Expr) (a b : App)
    (script : Script) (h : Gives (conditionScript owner condition) a script b) :
    ∃ c ∈ b.conditionScripts, c.script = script ∧ c.condition = condition := by
  unfold conditionScript at h
  rcases (gives_bind _ _ _ _ _).mp h with ⟨app, a₁, happ, h⟩
  cases happ
  rcases (gives_lookUp_bind _ _ _ _ _).mp h with ⟨_, _, h⟩
  split at h
  -- A script that was found is one of the same condition, since the search asks for both.
  next c hfind =>
    rcases (gives_pure _ _ _ _).mp h with ⟨rfl, rfl⟩
    have hsame := List.find?_some hfind
    rw [Bool.and_eq_true, beq_iff_eq, beq_iff_eq] at hsame
    exact ⟨c, List.mem_of_find?_eq_some hfind, rfl, hsame.2⟩
  next =>
    unfold Gives at h
    rw [makeConditionScript_run] at h
    cases h
    exact ⟨_, List.mem_append_right _ (List.mem_singleton_self _), rfl, rfl⟩

end Making

end App

namespace Relation

theorem flow_of_gives_make (name : Option String) (g : Flow) (s s' : IdSupply) (r : Relation)
    (h : Gives (make name g) s r s') : r.toFlow = g := by
  rw [((gives_make_iff name g s s' r).mp h).2.1]

theorem ops_of_gives_appendAll (ops : List OperationId) (r r' : Relation) (s s' : IdSupply)
    (h : Gives (r.appendAll ops) s r' s') : ∀ e ∈ r'.edges, e ∈ r.edges ∨ e.op ∈ ops := by
  induction ops generalizing r s with
  | nil =>
      rcases (gives_pure _ _ _ _).mp h with ⟨rfl, rfl⟩
      exact fun e he => Or.inl he
  | cons op ops ih =>
      rw [appendAll] at h
      rcases (gives_bind _ _ _ _ _).mp h with ⟨goto, s₁, _, h⟩
      rcases (gives_bind _ _ _ _ _).mp h with ⟨next, s₂, happend, h⟩
      intro e he
      -- An edge of the result was added last, or it was there after the first step.
      rcases ih next s₂ h e he with hnext | hlater
      · unfold append at happend
        split at happend
        · exact absurd happend (not_gives_throw _ _ _ _)
        · rw [flow_of_gives_make none _ s₁ s₂ next happend] at hnext
          refine ((Flow.mem_edges_append_iff _ op goto e).mp hnext).imp_right fun hadded => ?_
          rw [hadded.2.2]
          exact List.mem_cons_self
      · exact Or.inr (List.mem_cons_of_mem op hlater)

/-- A straight line carries the operations it was given. -/
theorem ops_of_gives_sequence (ops : List OperationId) (r : Relation) (s s' : IdSupply)
    (h : Gives (sequence ops) s r s') : ∀ e ∈ r.edges, e.op ∈ ops := by
  unfold sequence at h
  rcases (gives_bind _ _ _ _ _).mp h with ⟨start, s₁, hstart, h⟩
  cases hstart
  intro e he
  exact (ops_of_gives_appendAll ops _ r _ s' h e he).resolve_left Std.ExtTreeSet.not_mem_empty

end Relation

end ActorCheck
