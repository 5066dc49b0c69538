import ActorCheck.Proofs.Data.Along
import ActorCheck.Proofs.Program.Judges

/-!
# Relations That Settle Something

A run of the relation of a condition reaches an exit only if the condition holds. That alone
leaves open what it means if a run does not reach an exit: it might have stopped before anything
was decided, or have required the condition and ended where there is no exit. `Settles` excludes
both, so that a run which ends anywhere but at an exit has found that the condition does not hold.

The relation that moves the clock settles something in another way. Its entry is no exit and all
its edges do something, so a run that reaches an exit has moved the clock.

## Main definitions

* `Relation.Active`: No run reaches an exit without doing something.
* `App.Settles`: A run that reaches no exit has required the negation of a condition.
* `App.Exhaustive`: The relations of all scripts of conditions settle them.

## Theorems

* `App.exhaustive_of_draft`: A program as it was written.
* `App.exhaustive_of_conditionScript`: Asking for the script of a condition.
* `Relation.active_of_line`: One operation on a line of its own is active.
-/

namespace ActorCheck

/-- The entry is no exit, and every edge does something. -/
structure Relation.Active (r : Relation) : Prop where
  entry : ∀ l, r.soleEntry = .ok l → l ∉ r.exits
  acts : ∀ e ∈ r.edges, e.op ≠ epsilonId

namespace App

/-- The relation settles the condition. No run finishes at the entry, and every edge requires the
    condition and leads to an exit, or requires the negation. -/
structure Settles (app : App) (r : Relation) (condition : Expr) : Prop where
  entry : ∀ l, r.soleEntry = .ok l → r.finishesAt l = false
  edges : ∀ e ∈ r.edges,
    (app.operation e.op = .ok ⟨e.op, .assume condition⟩ ∧ e.target ∈ r.exits)
      ∨ app.operation e.op = .ok ⟨e.op, .assume (.not condition)⟩

/-- The relations of all scripts of conditions settle them. -/
def Exhaustive (app : App) : Prop :=
  ∀ c ∈ app.conditionScripts, ∃ r, app.relation c.script.relation = .ok r
    ∧ app.Settles r c.condition

/-- A drafted program has no script of a condition yet. -/
theorem exhaustive_of_draft (draft : AppDraft) (name : String) :
    (draft.build.run (App.new name)).2.Exhaustive := by
  unfold Exhaustive
  rw [(unasked_of_draft draft name).scripts]
  exact fun c hc => absurd hc List.not_mem_nil

section Growth

variable (a b : App) (h : a.Extends b) (ha : a.WellMade)

include h ha

theorem settles_of_extends (r : Relation) (condition : Expr) (hr : a.Settles r condition) :
    b.Settles r condition := by
  -- The edges are the same, and their operations are found again.
  have hfound := fun id op => operation_of_extends a b h ha.operations id op
  refine ⟨hr.entry, fun e he => ?_⟩
  exact (hr.edges e he).imp (And.imp_left (hfound _ _)) (hfound _ _)

theorem script_settles_of_extends (c : ConditionScript)
    (hc : ∃ r, a.relation c.script.relation = .ok r ∧ a.Settles r c.condition) :
    ∃ r, b.relation c.script.relation = .ok r ∧ b.Settles r c.condition := by
  rcases hc with ⟨r, hr, hsettles⟩
  exact ⟨r, relation_of_extends a b h ha.relations _ r hr, settles_of_extends a b h ha r _ hsettles⟩

/-- Additions that make no script of a condition. -/
theorem exhaustive_of_extends (hsame : b.conditionScripts = a.conditionScripts)
    (hall : a.Exhaustive) : b.Exhaustive := by
  unfold Exhaustive
  rw [hsame]
  exact fun c hc => script_settles_of_extends a b h ha c (hall c hc)

end Growth

section Making

/-- No run of the relation of a condition finishes at the entry. -/
theorem finishesAt_judge (n : Nat) : (judge n).finishesAt (n + 2) = false := by
  -- An edge leaves the entry, which is not the exit.
  have hleaves : (n, n + 3) ∈ (judge n).edgesFrom (n + 2) :=
    (Flow.mem_edgesFrom _ _ _ _).mpr ((mem_edges_judge n _).mpr (Or.inl rfl))
  unfold Flow.finishesAt
  rw [Bool.or_eq_false_iff]
  refine ⟨?_, ?_⟩
  · rw [← Bool.not_eq_true]
    intro hexit
    have hsame := (mem_exits_judge n (n + 2)).mp (Std.ExtTreeSet.contains_iff_mem.mp hexit)
    exact absurd (Nat.add_left_cancel hsame) (by decide)
  · rw [List.isEmpty_eq_false_iff]
    exact List.ne_nil_of_mem hleaves

theorem settles_judge (app : App) (n : Nat) (condition : Expr)
    (hholds : app.operation n = .ok ⟨n, .assume condition⟩)
    (hfails : app.operation (n + 1) = .ok ⟨n + 1, .assume (.not condition)⟩) :
    app.Settles (judge n) condition := by
  refine ⟨fun l hl => ?_, fun e he => ?_⟩
  · rw [soleEntry_judge] at hl
    cases hl
    exact finishesAt_judge n
  · rcases (mem_edges_judge n e).mp he with rfl | rfl
    · exact Or.inl ⟨hholds, Std.ExtTreeSet.mem_insert_self⟩
    · exact Or.inr hfails

theorem settles_withJudge (app : App) (condition : Expr) :
    (app.withJudge condition).Settles (judge app.supply.next) condition :=
  settles_judge _ _ condition (app.holds_withJudge condition) (app.fails_withJudge condition)

theorem exhaustive_of_makeConditionScript (owner : ActorName) (condition : Expr) (a : App)
    (ha : a.WellMade) (hall : a.Exhaustive) :
    ((makeConditionScript owner condition).run a).2.Exhaustive := by
  have hext := extends_makeConditionScript owner condition a
  rw [makeConditionScript_run] at hext ⊢
  intro c hc
  rcases List.mem_append.mp hc with hc | hc
  · exact script_settles_of_extends a _ hext ha c (hall c hc)
  · rw [List.mem_singleton.mp hc]
    -- The list of scripts has no part in what the relation settles.
    have hsettles := settles_withJudge a condition
    exact ⟨judge a.supply.next, a.relation_withJudge condition, hsettles.entry, hsettles.edges⟩

/-- Asking for the script of a condition. -/
theorem exhaustive_of_conditionScript (owner : ActorName) (condition : Expr) (a : App)
    (ha : a.WellMade) (hall : a.Exhaustive) :
    ((conditionScript owner condition).run a).2.Exhaustive :=
  ends_conditionScript Exhaustive owner condition a hall
    (exhaustive_of_makeConditionScript owner condition a ha hall)

end Making

end App

section Accelerating

theorem Flow.mem_exits_append (g : Flow) (op : OperationId) (goto l : LocationId)
    (h : l ∈ (g.append op goto).exits) : l = goto := by
  unfold append at h
  dsimp only at h
  split at h
  · exact absurd h Std.ExtTreeSet.not_mem_empty
  · exact (mem_singleton_iff goto l).mp h

namespace Relation

theorem mem_entries_of_soleEntry (r : Relation) (l : LocationId) (h : r.soleEntry = .ok l) :
    l ∈ r.entries := by
  unfold soleEntry at h
  split at h
  next entry hentry =>
    cases h
    refine Std.ExtTreeSet.mem_toList.mp ?_
    rw [hentry]
    exact List.mem_singleton_self _
  next => cases h

/-- The entry of a line with one operation is no exit. -/
theorem apart_of_gives_sequence (op : OperationId) (r : Relation) (s s' : IdSupply)
    (h : Gives (sequence [op]) s r s') (l : LocationId) (hentry : l ∈ r.entries) :
    l ∉ r.exits := by
  unfold sequence at h
  rcases (gives_bind _ _ _ _ _).mp h with ⟨start, s₁, hstart, h⟩
  cases hstart
  rw [appendAll] at h
  rcases (gives_bind _ _ _ _ _).mp h with ⟨goto, s₂, _, h⟩
  rcases (gives_bind _ _ _ _ _).mp h with ⟨next, s₃, happend, h⟩
  rcases (gives_pure _ _ _ _).mp h with ⟨rfl, rfl⟩
  unfold append at happend
  split at happend
  next => exact absurd happend (not_gives_throw _ _ _ _)
  next hnew =>
    rw [flow_of_gives_make none _ _ _ next happend] at hentry ⊢
    intro hexit
    -- The line begins at its only location, and the exit was not there before.
    rw [Flow.mem_exits_append _ op goto l hexit] at hentry
    exact hnew hentry

/-- What is left of a line with one operation is active. -/
theorem active_of_line (op : OperationId) (hop : op ≠ epsilonId) (line plain : Relation)
    (name : Option String) (text : String) (s s' t t' : IdSupply)
    (hline : Gives (sequence [op]) s line s')
    (hplain : Gives (make name line.toFlow.removeEpsilons) t plain t') :
    (plain.rename text).Active := by
  have hflow := flow_of_gives_make name _ t t' plain hplain
  -- Removing epsilon edges adds no exits to a line that has none, and leaves no epsilon edge
  -- behind.
  refine ⟨fun l hl hexit => ?_, fun e he => ?_⟩
  · have hentry : l ∈ plain.entries := mem_entries_of_soleEntry (plain.rename text) l hl
    have hexit' : l ∈ plain.exits := hexit
    rw [hflow] at hentry hexit'
    refine apart_of_gives_sequence op line s s' hline l hentry ?_
    refine line.toFlow.exits_of_removeEpsilons (fun e he => ?_) l hexit'
    rw [List.mem_singleton.mp (ops_of_gives_sequence [op] line s s' hline e he)]
    exact hop
  · have hmem : e ∈ plain.edges := he
    rw [hflow] at hmem
    exact line.toFlow.plain_removeEpsilons.acts e hmem

end Relation

end Accelerating

end ActorCheck
