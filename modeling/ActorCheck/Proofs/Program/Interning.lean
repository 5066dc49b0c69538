import ActorCheck.Proofs.Data.Verdicts
import ActorCheck.Proofs.Program.Registry

/-!
# Interned Scripts of Conditions

A program that is asked again and again for the script of a condition makes it once and hands out
the same script each time. The list of these scripts is searched in two ways, by actor and condition
when the script is asked for, and by actor and number when it is to run. Both searches find what was
meant, because every script draws a number of its own when it is made.

`Interning` says so of a program, and that every script on the list still has what was made for it:
two operations, a relation and its number, all from one stretch of numbers that were drawn together.
This holds of whatever can be made of an empty program by the means that there are, in any order.
The numbers of scripts, relations and actors that are added may have been drawn at any time before.
All that is asked of them is that they are not the numbers of a script of a condition.

A call is then either answered from the list, and leaves the program as it is, or it adds a script
that was not there. Later calls keep what the list has at the front. So of a sequence of calls each
answer is on the list at the end, and all that has to be seen is seen there.

## Main definitions

* `App.Made`: What can be made of an empty program.
* `App.Intact`: The script of a condition still has what was made for it.
* `App.Interning`: Scripts of conditions are intact and told apart by their numbers.
* `App.interned`: The script on record for an actor and a condition.
* `App.MadeUnasked`: What was made before the first such script.

## Theorems

* `App.interning_of_made`: Every program that can be made.
* `App.made_of_draft`: A program as it was written can be made.
* `App.gives_interned`, `App.exists_answer`: A call is answered from the record, or makes a record.
* `App.cases_of_gives_conditionScript`: What the answer says about the record.
* `App.exists_answers`: A sequence of calls.
* `App.conditionScripts_interned`: Scripts of conditions are interned and decide their conditions.
-/

namespace ActorCheck

namespace App

/-- What can be made of an empty program by drawing numbers, by adding operations, relations and
    actors, and by asking for scripts of conditions. Who adds an actor has drawn the numbers of its
    scripts before, and neither those nor the number of a relation that is added were drawn for the
    script of a condition. -/
inductive Made : App → Prop where
  | new (name : String) : Made (App.new name)
  | draw {app : App} (s : IdSupply) (h : Made app) (hle : app.supply.next ≤ s.next) :
      Made { app with supply := s }
  | operation {app : App} (statement : Statement) (h : Made app) :
      Made ((newOperation statement).run app).2
  | relation {app : App} (r : Relation) (h : Made app)
      (hother : ∀ c ∈ app.conditionScripts, c.script.relation ≠ r.id) :
      Made ((addRelation r).run app).2
  | actor {app : App} (a : Actor) (h : Made app)
      (hdrawn : ∀ s ∈ a.scripts, s.id < app.supply.next)
      (hother : ∀ s ∈ a.scripts, ∀ c ∈ app.conditionScripts, c.script.id ≠ s.id) :
      Made ((addActor a).run app).2
  | condition {app : App} (owner : ActorName) (condition : Expr) (h : Made app) :
      Made ((conditionScript owner condition).run app).2

/-- The script of a condition was made when the supply stood at a number, and the operations and the
    relation that were made for it are still there. -/
structure Intact (app : App) (n : Nat) (c : ConditionScript) : Prop where
  started : epsilonId < n
  drawn : n + 7 ≤ app.supply.next
  script : c.script = ⟨n + 6, .conditionCheck, n + 5⟩
  relation : app.relation (n + 5) = .ok (judge n)
  holds : app.operation n = .ok ⟨n, .assume c.condition⟩
  fails : app.operation (n + 1) = .ok ⟨n + 1, .assume (.not c.condition)⟩

/-- The scripts of conditions are intact. Their numbers tell them apart from each other and from the
    scripts that actors declare. -/
structure Interning (app : App) : Prop where
  started : epsilonId < app.supply.next
  intact : ∀ c ∈ app.conditionScripts, ∃ n, app.Intact n c
  unique : ∀ c ∈ app.conditionScripts, ∀ d ∈ app.conditionScripts,
    c.script.id = d.script.id → c = d
  drawn : ∀ a ∈ app.actors, ∀ s ∈ a.scripts, s.id < app.supply.next
  apart : ∀ a ∈ app.actors, ∀ s ∈ a.scripts, ∀ c ∈ app.conditionScripts, c.script.id ≠ s.id

/-- The script that is on record for an actor and a condition. -/
def interned (app : App) (owner : ActorName) (condition : Expr) : Option Script :=
  (app.conditionScripts.find? fun c => c.owner == owner && c.condition == condition).map
    ConditionScript.script

section Growth

theorem id_of_intact (app : App) (n : Nat) (c : ConditionScript) (h : app.Intact n c) :
    c.script.id < app.supply.next := by
  rw [h.script]
  exact h.drawn

variable (a b : App) (h : a.Extends b)

include h

theorem intact_of_extends (n : Nat) (c : ConditionScript) (hc : a.Intact n c) : b.Intact n c := by
  -- All numbers in question were drawn before, and what has an old number is not changed by
  -- additions.
  have hdrawn := hc.drawn
  refine ⟨hc.started, Nat.le_trans hdrawn h.supply, hc.script, ?_, ?_, ?_⟩
  · rw [relation_of_drawn a b h (n + 5) (by omega), hc.relation]
  · rw [operation_of_drawn a b h n (by omega), hc.holds]
  · rw [operation_of_drawn a b h (n + 1) (by omega), hc.fails]

variable (ha : a.Interning)

include ha

/-- Additions that make no script of a condition. -/
theorem interning_of_extends (hsame : b.conditionScripts = a.conditionScripts) : b.Interning := by
  refine ⟨Nat.lt_of_lt_of_le ha.started h.supply, ?_, ?_, ?_, ?_⟩
  · rw [hsame]
    exact fun c hc => (ha.intact c hc).imp fun n => intact_of_extends a b h n c
  · rw [hsame]
    exact ha.unique
  · rw [h.actors]
    exact fun owner howner s hs => Nat.lt_of_lt_of_le (ha.drawn owner howner s hs) h.supply
  · rw [h.actors, hsame]
    exact ha.apart

/-- A new script of a condition, under a number that was drawn for it. -/
theorem interning_of_addScript (c : ConditionScript)
    (hnew : b.conditionScripts = a.conditionScripts ++ [c]) (hc : b.Intact a.supply.next c) :
    b.Interning := by
  -- All other scripts have older numbers.
  have hnumber (id : Nat) (hid : id < a.supply.next) : id ≠ c.script.id := by
    rw [hc.script]
    exact Nat.ne_of_lt (Nat.lt_add_right 6 hid)
  have hold (d : ConditionScript) (hd : d ∈ a.conditionScripts) : d.script.id ≠ c.script.id := by
    rcases ha.intact d hd with ⟨m, hm⟩
    exact hnumber _ (a.id_of_intact m d hm)
  refine ⟨Nat.lt_of_lt_of_le ha.started h.supply, fun d hd => ?_, fun d hd d' hd' heq => ?_, ?_, ?_⟩
  · rw [hnew] at hd
    rcases List.mem_append.mp hd with hd | hd
    · exact (ha.intact d hd).imp fun m => intact_of_extends a b h m d
    · rw [List.mem_singleton.mp hd]
      exact ⟨_, hc⟩
  · rw [hnew] at hd hd'
    -- Two old ones are told apart as before, an old one and the new one by their numbers.
    rcases List.mem_append.mp hd with hd | hd <;> rcases List.mem_append.mp hd' with hd' | hd'
    · exact ha.unique d hd d' hd' heq
    · rw [List.mem_singleton.mp hd'] at heq
      exact absurd heq (hold d hd)
    · rw [List.mem_singleton.mp hd] at heq
      exact absurd heq.symm (hold d' hd')
    · rw [List.mem_singleton.mp hd, List.mem_singleton.mp hd']
  · rw [h.actors]
    exact fun owner howner s hs => Nat.lt_of_lt_of_le (ha.drawn owner howner s hs) h.supply
  · rw [h.actors, hnew]
    intro owner howner s hs d hd
    rcases List.mem_append.mp hd with hd | hd
    · exact ha.apart owner howner s hs d hd
    · rw [List.mem_singleton.mp hd]
      exact (hnumber _ (ha.drawn owner howner s hs)).symm

end Growth

section Making

variable (app : App) (h : app.Interning)

include h

theorem interning_of_addRelation (r : Relation)
    (hother : ∀ c ∈ app.conditionScripts, c.script.relation ≠ r.id) :
    ((addRelation r).run app).2.Interning := by
  refine ⟨h.started, fun c hc => ?_, h.unique, h.drawn, h.apart⟩
  rcases h.intact c hc with ⟨n, hn⟩
  refine ⟨n, hn.started, hn.drawn, hn.script, ?_, hn.holds, hn.fails⟩
  -- The relation that is added is not the one of the script, so that is still the one that is
  -- found.
  have hne : r.id ≠ n + 5 := by
    have hrelation := hother c hc
    rw [hn.script] at hrelation
    exact hrelation.symm
  refine (relation_ok _ _ _).mpr ?_
  change (app.relations.insert r.id r)[n + 5]? = some (judge n)
  rw [Std.ExtTreeMap.getElem?_insert, if_neg (by simpa using hne)]
  exact (relation_ok _ _ _).mp hn.relation

omit h in
theorem conditionScripts_addActor (a : Actor) :
    ((addActor a).run app).2.conditionScripts = app.conditionScripts := by
  unfold addActor
  rw [run_get_bind]
  split
  · rfl
  · rfl

theorem interning_of_addActor (a : Actor) (hdrawn : ∀ s ∈ a.scripts, s.id < app.supply.next)
    (hother : ∀ s ∈ a.scripts, ∀ c ∈ app.conditionScripts, c.script.id ≠ s.id) :
    ((addActor a).run app).2.Interning := by
  unfold addActor
  refine ends_bind Interning _ _ app h (fun known b hknown _ => ?_)
  cases hknown
  -- An actor whose name is taken is not added.
  split
  · exact h
  · refine ⟨h.started, fun c hc => (h.intact c hc).imp fun n hn => ?_, h.unique, fun b hb => ?_,
      fun b hb => ?_⟩
    · exact ⟨hn.started, hn.drawn, hn.script, hn.relation, hn.holds, hn.fails⟩
    · rcases List.mem_append.mp hb with hb | hb
      · exact h.drawn b hb
      · rw [List.mem_singleton.mp hb]
        exact hdrawn
    · rcases List.mem_append.mp hb with hb | hb
      · exact h.apart b hb
      · rw [List.mem_singleton.mp hb]
        exact hother

theorem interning_of_makeConditionScript (owner : ActorName) (condition : Expr) :
    ((makeConditionScript owner condition).run app).2.Interning := by
  have hext := extends_makeConditionScript owner condition app
  rw [makeConditionScript_run] at hext ⊢
  refine interning_of_addScript app _ hext h _ rfl ?_
  exact ⟨h.started, Nat.le_refl _, rfl, app.relation_withJudge condition,
    app.holds_withJudge condition, app.fails_withJudge condition⟩

theorem interning_of_conditionScript (owner : ActorName) (condition : Expr) :
    ((conditionScript owner condition).run app).2.Interning :=
  ends_conditionScript Interning owner condition app h
    (interning_of_makeConditionScript app h owner condition)

end Making

/-- Every program that can be made interns scripts of conditions. -/
theorem interning_of_made (app : App) (h : app.Made) : app.Interning := by
  -- By induction on how the program was made. Only the last way adds to the scripts of conditions.
  induction h with
  | new name =>
      exact ⟨Nat.lt_succ_self _, fun c hc => absurd hc List.not_mem_nil,
        fun c hc => absurd hc List.not_mem_nil, fun a ha => absurd ha List.not_mem_nil,
        fun a ha => absurd ha List.not_mem_nil⟩
  | draw s _ hle ih =>
      exact interning_of_extends _ _ (extends_supply _ _ (extends_refl _) s hle) ih rfl
  | operation statement _ ih =>
      exact interning_of_extends _ _ (extends_newOperation statement _ _ (extends_refl _)) ih rfl
  | relation r _ hother ih => exact interning_of_addRelation _ ih r hother
  | actor a _ hdrawn hother ih => exact interning_of_addActor _ ih a hdrawn hother
  | condition owner condition _ ih => exact interning_of_conditionScript _ ih owner condition

section Drafts

/-- The program was made without asking for the script of a condition. -/
def MadeUnasked (app : App) : Prop := app.Made ∧ app.conditionScripts = []

theorem madeUnasked_of_supply (app : App) (s : IdSupply) (hle : app.supply.next ≤ s.next)
    (h : app.MadeUnasked) : { app with supply := s }.MadeUnasked :=
  ⟨.draw s h.1 hle, h.2⟩

theorem madeUnasked_of_register (draft : RelationDraft) : Keeps MadeUnasked draft.register := by
  intro a ha
  unfold RelationDraft.register
  -- Nobody has asked for a condition so far, so the relation that is added cannot be one of a
  -- condition.
  have hbuild := keeps_build MadeUnasked madeUnasked_of_supply
    (fun s b hb => ⟨.operation s hb.1, hb.2⟩) draft a ha
  refine ends_bind MadeUnasked _ _ a hbuild (fun r b _ hb => ?_)
  refine ends_bind MadeUnasked _ _ b ⟨.relation r hb.1 fun c hc => ?_, hb.2⟩ (fun _ c _ hc => hc)
  rw [hb.2] at hc
  cases hc

theorem madeUnasked_of_registerActor (relations : List RelationId) (draft : ActorDraft) :
    Keeps MadeUnasked (draft.register relations) := by
  intro a ha
  unfold ActorDraft.register
  have hbuild := keeps_buildActor MadeUnasked madeUnasked_of_supply relations draft a ha
  refine ends_bind MadeUnasked _ _ a hbuild (fun actor b hactor hb => ⟨?_, ?_⟩)
  · refine .actor actor hb.1 (fun s hs => ?_) (fun s _ c hc => ?_)
    · exact (scripts_of_gives_buildActor relations draft actor a b hactor).2 s.id
        (List.mem_map_of_mem hs)
    · rw [hb.2] at hc
      cases hc
  · exact (conditionScripts_addActor b actor).trans hb.2

/-- A program as it was written can be made. -/
theorem made_of_draft (draft : AppDraft) (name : String) :
    (draft.build.run (App.new name)).2.Made :=
  (keeps_buildApp MadeUnasked madeUnasked_of_registerActor madeUnasked_of_register draft
    (App.new name) ⟨.new name, rfl⟩).1

end Drafts

section Calls

variable (owner : ActorName) (condition : Expr) (script : Script)

theorem mem_of_interned (app : App) (h : app.interned owner condition = some script) :
    ⟨owner, condition, script⟩ ∈ app.conditionScripts := by
  rcases Option.map_eq_some_iff.mp h with ⟨⟨owner', condition', script'⟩, hfind, rfl⟩
  have hsame := List.find?_some hfind
  -- What is found has the actor and the condition that were looked for.
  rw [Bool.and_eq_true, beq_iff_eq, beq_iff_eq] at hsame
  rcases hsame with ⟨rfl, rfl⟩
  exact List.mem_of_find?_eq_some hfind

/-- What is on record stays on record. -/
theorem interned_of_extends (a b : App) (h : a.Extends b)
    (hscript : a.interned owner condition = some script) :
    b.interned owner condition = some script := by
  rcases h.conditionScripts with ⟨more, hmore⟩
  rcases Option.map_eq_some_iff.mp hscript with ⟨c, hfind, rfl⟩
  unfold interned
  -- New scripts are appended, so the first one that is found stays the first.
  rw [← hmore, List.find?_append, hfind]
  rfl

/-- A call for what is on record draws no number and leaves the program as it is. -/
theorem gives_interned (app : App) (hknown : ∃ a, app.actor owner = .ok a)
    (h : app.interned owner condition = some script) :
    Gives (conditionScript owner condition) app script app := by
  rcases hknown with ⟨a, ha⟩
  rcases Option.map_eq_some_iff.mp h with ⟨c, hfind, rfl⟩
  unfold conditionScript
  refine (gives_bind _ _ _ _ _).mpr ⟨app, app, rfl, (gives_lookUp_bind _ _ _ _ _).mpr ⟨a, ha, ?_⟩⟩
  rw [hfind]
  rfl

/-- What is made is one script with its relation. -/
theorem added_of_gives_makeConditionScript (app after : App)
    (h : Gives (makeConditionScript owner condition) app script after) :
    after.conditionScripts = app.conditionScripts ++ [⟨owner, condition, script⟩]
      ∧ ∀ (id : RelationId) (r : Relation), after.relations[id]? = some r →
        script.relation = id ∨ app.relations[id]? = some r := by
  unfold Gives at h
  rw [makeConditionScript_run] at h
  cases h
  refine ⟨rfl, fun id r hr => ?_⟩
  have hr' : (app.relations.insert (app.supply.next + 5) (judge app.supply.next))[id]? = some r :=
    hr
  rw [Std.ExtTreeMap.getElem?_insert] at hr'
  split at hr'
  next heq => exact Or.inl (Std.LawfulEqCmp.eq_of_compare heq)
  next => exact Or.inr hr'

/-- What was not on record is on record after it was made. -/
theorem interned_of_gives_makeConditionScript (app after : App)
    (hrecord : app.interned owner condition = none)
    (h : Gives (makeConditionScript owner condition) app script after) :
    after.interned owner condition = some script := by
  have hadded := (added_of_gives_makeConditionScript owner condition script app after h).1
  unfold interned
  rw [hadded, List.find?_append, Option.map_eq_none_iff.mp hrecord, Option.none_or,
    List.find?_cons_of_pos (by simp)]
  rfl

/-- A call is answered with what is on record from then on. -/
theorem exists_answer (app : App) (hknown : ∃ a, app.actor owner = .ok a) :
    ∃ answer after, Gives (conditionScript owner condition) app answer after
      ∧ after.interned owner condition = some answer := by
  -- Either it is on record, or it is made and then on record.
  cases hrecord : app.interned owner condition with
  | some answer =>
      exact ⟨answer, app, gives_interned owner condition answer app hknown hrecord, hrecord⟩
  | none =>
      rcases hknown with ⟨a, ha⟩
      have hfind := Option.map_eq_none_iff.mp hrecord
      have hmake (answer : Script) (after : App)
          (h : Gives (makeConditionScript owner condition) app answer after) :
          Gives (conditionScript owner condition) app answer after := by
        unfold conditionScript
        refine (gives_bind _ _ _ _ _).mpr
          ⟨app, app, rfl, (gives_lookUp_bind _ _ _ _ _).mpr ⟨a, ha, ?_⟩⟩
        rw [hfind]
        exact h
      have hrun := makeConditionScript_run owner condition app
      exact ⟨_, _, hmake _ _ hrun,
        interned_of_gives_makeConditionScript owner condition _ app _ hrecord hrun⟩

/-- A call that is answered has found a record, or it makes one. -/
theorem cases_of_gives_conditionScript (app after : App)
    (h : Gives (conditionScript owner condition) app script after) :
    (app.interned owner condition = some script ∧ after = app)
      ∨ (app.interned owner condition = none
        ∧ Gives (makeConditionScript owner condition) app script after) := by
  unfold conditionScript at h
  rcases (gives_bind _ _ _ _ _).mp h with ⟨_, _, hget, h⟩
  cases hget
  rcases (gives_lookUp_bind _ _ _ _ _).mp h with ⟨_, _, h⟩
  unfold interned
  -- The call looks for the same record, with the whole of it instead of the script alone.
  split at h
  next known hfind =>
    rcases (gives_pure _ _ _ _).mp h with ⟨rfl, rfl⟩
    exact Or.inl ⟨congrArg (Option.map ConditionScript.script) hfind, rfl⟩
  next hfind => exact Or.inr ⟨congrArg (Option.map ConditionScript.script) hfind, h⟩

/-- What a call is answered with is on record afterwards. -/
theorem interned_of_gives_conditionScript (app after : App)
    (h : Gives (conditionScript owner condition) app script after) :
    after.interned owner condition = some script := by
  rcases cases_of_gives_conditionScript owner condition script app after h with
    ⟨hrecord, rfl⟩ | ⟨hrecord, hmade⟩
  · exact hrecord
  · exact interned_of_gives_makeConditionScript owner condition script app after hrecord hmade

end Calls

section Answers

variable (owner : ActorName) (condition : Expr) (script : Script) (app : App) (h : app.Interning)
  (hscript : app.interned owner condition = some script)

include h hscript

/-- A script on record is found when it is to run. -/
theorem script_of_interned (hknown : ∃ a, app.actor owner = .ok a) :
    app.script owner script.id = .ok script := by
  rcases hknown with ⟨a, ha⟩
  have hc := mem_of_interned owner condition script app hscript
  -- No script of the actor has the number, and no other script of a condition.
  have hown : a.script? script.id = none := by
    have hmem : a ∈ app.actors := by
      unfold actor at ha
      split at ha
      next found hfind =>
        cases ha
        exact List.mem_of_find?_eq_some hfind
      next => cases ha
    refine List.find?_eq_none.mpr fun s hs => ?_
    rw [beq_iff_eq]
    exact (h.apart a hmem s hs _ hc).symm
  have hmade : app.conditionScripts.find? (fun c => c.owner == owner && c.script.id == script.id)
      = some ⟨owner, condition, script⟩ := by
    -- Any other script with the number would have to be the same one.
    cases hfind : app.conditionScripts.find? fun c =>
      c.owner == owner && c.script.id == script.id with
    | none => exact absurd (List.find?_eq_none.mp hfind _ hc) (by simp)
    | some d =>
        have hsame := List.find?_some hfind
        rw [Bool.and_eq_true, beq_iff_eq, beq_iff_eq] at hsame
        rw [h.unique d (List.mem_of_find?_eq_some hfind) _ hc hsame.2]
  unfold App.script
  refine (except_bind_ok _ _ _).mpr ⟨a, ha, ?_⟩
  dsimp only
  rw [hown, hmade]
  rfl

/-- A script on record decides its condition. -/
theorem decides_of_interned : app.Decides script condition := by
  rcases h.intact _ (mem_of_interned owner condition script app hscript) with ⟨n, hn⟩
  exact app.decides_judge n hn.started script condition (congrArg Script.relation hn.script)
    hn.relation hn.holds hn.fails

/-- Only one actor and one condition have the script on record. -/
theorem eq_of_interned (owner' : ActorName) (condition' : Expr)
    (hscript' : app.interned owner' condition' = some script) :
    owner = owner' ∧ condition = condition' := by
  have hc := mem_of_interned owner condition script app hscript
  have hc' := mem_of_interned owner' condition' script app hscript'
  cases h.unique _ hc _ hc' rfl
  exact ⟨rfl, rfl⟩

end Answers

/-- A sequence of calls is answered with what is on record at the end. By induction on the calls:
    what is on record after the first one is still there after the others. -/
theorem exists_answers (requests : List (ActorName × Expr)) (app : App) (h : app.Interning)
    (hknown : ∀ q ∈ requests, ∃ a, app.actor q.1 = .ok a) :
    ∃ answers after, Gives (requests.mapM fun q => conditionScript q.1 q.2) app answers after
      ∧ app.Extends after ∧ after.Interning
      ∧ List.Forall₂ (fun q answer => after.interned q.1 q.2 = some answer) requests answers := by
  induction requests generalizing app with
  | nil => exact ⟨[], app, rfl, extends_refl app, h, .nil⟩
  | cons q requests ih =>
      rw [List.forall_mem_cons] at hknown
      rcases exists_answer q.1 q.2 app hknown.1 with ⟨answer, next, hfirst, hrecord⟩
      have hrun : ((conditionScript q.1 q.2).run app).2 = next := congrArg Prod.snd hfirst
      have hext : app.Extends next := hrun ▸ extends_conditionScript q.1 q.2 app
      have hnext : next.Interning := hrun ▸ interning_of_conditionScript app h q.1 q.2
      -- Calls do not add actors, so all of them are still known for the next call.
      have hactor (name : ActorName) : next.actor name = app.actor name := by
        unfold actor
        rw [hext.actors]
      rcases ih next hnext fun q' hq' => hactor q'.1 ▸ hknown.2 q' hq' with
        ⟨answers, after, hothers, hlater, hafter, hrecords⟩
      refine ⟨answer :: answers, after, ?_, extends_trans _ _ _ hext hlater, hafter,
        .cons (interned_of_extends q.1 q.2 answer next after hlater hrecord) hrecords⟩
      rw [List.mapM_cons, gives_bind]
      exact ⟨answer, next, hfirst, (gives_bind _ _ _ _ _).mpr
        ⟨answers, after, hothers, (gives_pure _ _ _ _).mpr ⟨rfl, rfl⟩⟩⟩

/-- Scripts of conditions are interned. In any program that can be made, each of a sequence of calls
    for known actors is answered. Two answers are the same exactly if actor and condition are.
    Asking once more for any of them yields the same answer and leaves the program as it is. Each
    answer is found under its number by the actor it was made for, and it decides its condition. -/
theorem conditionScripts_interned (app : App) (hmade : app.Made)
    (requests : List (ActorName × Expr)) (hknown : ∀ q ∈ requests, ∃ a, app.actor q.1 = .ok a) :
    ∃ answers after, Gives (requests.mapM fun q => conditionScript q.1 q.2) app answers after
      ∧ answers.length = requests.length
      ∧ ∀ (i : Nat) (owner : ActorName) (condition : Expr) (answer : Script),
        requests[i]? = some (owner, condition) → answers[i]? = some answer →
        (∀ (j : Nat) (owner' : ActorName) (condition' : Expr) (answer' : Script),
          requests[j]? = some (owner', condition') → answers[j]? = some answer' →
          (answer = answer' ↔ owner = owner' ∧ condition = condition'))
        ∧ Gives (conditionScript owner condition) after answer after
        ∧ after.script owner answer.id = .ok answer
        ∧ after.Decides answer condition := by
  rcases exists_answers requests app (interning_of_made app hmade) hknown with
    ⟨answers, after, hrun, hext, hafter, hrecords⟩
  -- All that follows is read off the records at the end. Equal scripts have one record, and equal
  -- questions find one script.
  have hrecord := related_of_forall₂ _ _ _ hrecords
  refine ⟨answers, after, hrun, hrecords.length_eq.symm,
    fun i owner condition answer hq hanswer => ?_⟩
  have hscript := hrecord i _ _ hq hanswer
  have hactor : ∃ a, after.actor owner = .ok a := by
    unfold actor
    rw [hext.actors]
    exact hknown _ (List.mem_of_getElem? hq)
  refine ⟨fun j owner' condition' answer' hq' hanswer' => ⟨?_, ?_⟩, ?_, ?_, ?_⟩
  · rintro rfl
    exact eq_of_interned owner condition answer after hafter hscript owner' condition'
      (hrecord j _ _ hq' hanswer')
  · rintro ⟨rfl, rfl⟩
    exact Option.some.inj (hscript.symm.trans (hrecord j _ _ hq' hanswer'))
  · exact gives_interned owner condition answer after hactor hscript
  · exact script_of_interned owner condition answer after hafter hscript hactor
  · exact decides_of_interned owner condition answer after hafter hscript

/-- A program with one actor, which declares nothing. -/
def zoo : App := ((addActor (Actor.new "bear" .program)).run (App.new "zoo")).2

/-- The bear is awake and it is not yet winter. -/
def wakeful : Expr :=
  .and (.var (.within "awake" .boolean ["bear"]))
    (.cmp .lt (.var (.global "day" .number)) (.num 300))

theorem made_zoo : zoo.Made :=
  .actor _ (.new "zoo") (fun _ hs => absurd hs List.not_mem_nil)
    (fun _ hs => absurd hs List.not_mem_nil)

/-- The bear asks for two conditions and then for the first one again. -/
theorem conditionScripts_interned_zoo : zoo.Made
    ∧ ∃ awake asleep after, Gives
        ([("bear", wakeful), ("bear", .not wakeful), ("bear", wakeful)].mapM
          fun q => conditionScript q.1 q.2) zoo [awake, asleep, awake] after
      ∧ awake ≠ asleep ∧ after.script "bear" asleep.id = .ok asleep
      ∧ after.Decides asleep (.not wakeful) := by
  have hknown : ∀ q ∈ [("bear", wakeful), ("bear", Expr.not wakeful), ("bear", wakeful)],
      ∃ a, zoo.actor q.1 = .ok a := by
    intro q hq
    have hbear : q.1 = "bear" := by
      rcases List.mem_cons.mp hq with rfl | hq
      · rfl
      · rcases List.mem_cons.mp hq with rfl | hq
        · rfl
        · rw [List.mem_singleton.mp hq]
    rw [hbear]
    exact ⟨Actor.new "bear" .program, rfl⟩
  rcases conditionScripts_interned zoo made_zoo _ hknown with ⟨answers, after, hrun, hlength, hall⟩
  -- There are three answers. The first and the third one are the same, and the second one differs
  -- from them.
  match answers, hlength with
  | [first, second, third], _ =>
    rcases hall 0 "bear" wakeful first rfl rfl with ⟨hfirst, _⟩
    rcases hall 1 "bear" (.not wakeful) second rfl rfl with ⟨_, _, hscript, hdecides⟩
    have hthird : first = third := (hfirst 2 "bear" wakeful third rfl rfl).mpr ⟨rfl, rfl⟩
    have hsecond : first ≠ second := fun heq =>
      absurd ((hfirst 1 "bear" (.not wakeful) second rfl rfl).mp heq).2 (by decide)
    rw [← hthird] at hrun
    exact ⟨made_zoo, first, second, after, hrun, hsecond, hscript, hdecides⟩

end App

end ActorCheck
