import ActorCheck.Proofs.Control.Growth
import ActorCheck.Proofs.Program.Interning

/-!
# Books about Timed Waits

A timed wait leaves three things behind: the script that looks whether the wait is over, what is
known about hurrying it along, and in time the relation that does so. All of it is found again by
the scope of the wait, which is an actor with the name of one of its relations. The condition of the
script mentions the clock and the variable of the scope and nothing else, so a later wait in the
scope asks for the same condition, and what it would have to leave behind is there.

`Books` says so for the scopes that were waited in so far. It is about the program that was begun
with and about what was added, so nothing is asked of that program. Every script that was added is
for one of the scopes, and no two are for the same. What is known about hurrying along belongs to
the scripts on record for the scopes, and the relations that were made belong to what is known.

Nothing else that the scheduler does touches the books, apart from the relations it makes from what
is known (`modest_books`). A wait in a new scope adds to them, and a wait in a known scope draws
numbers and does nothing else.

## Main definitions

* `waitedFor`: The condition that a wait in a scope is over.
* `App.alarmScript`: The script on record for the waits in a scope.
* `Scheduler.Drew`: Nothing has changed but the supply of numbers.
* `Scheduler.Books`: What was added for the waits in some scopes.

## Theorems

* `Scheduler.length_of_books`, `Scheduler.size_of_books`: No more entries than scopes.
* `Scheduler.modest_books`: What keeps the books.
* `Scheduler.run_beginWait`: What the beginning of a timed wait leaves behind.
* `Scheduler.books_of_beginWait`: A wait adds its scope.
* `Scheduler.drew_of_beginWait`: A wait in a scope that is on the books adds nothing.
-/

namespace ActorCheck

/-- The condition that a wait in a scope is over. The scope is that of an actor and of the name of a
    relation. -/
def waitedFor (p : ActorName × String) : Expr := waitIsOver (wakeUpVariable [p.1, p.2])

/-- The script on record for the waits in a scope. -/
def App.alarmScript (app : App) (p : ActorName × String) : Option Script :=
  app.interned p.1 (waitedFor p)

/-- The script of a condition looks whether the waits in a scope are over. -/
def ConditionScript.IsFor (c : ConditionScript) (p : ActorName × String) : Prop :=
  (c.owner, c.condition) = (p.1, waitedFor p)

namespace Scheduler

/-- Nothing has changed but the supply of numbers. -/
def Drew (k k' : Scheduler) : Prop :=
  ∃ supply, k' = { k with app := { k.app with supply := supply } }

/-- What was added to a program for the waits in some scopes. -/
structure Books (app : App) (waits : List (ActorName × String)) (k : Scheduler)
    (made : List ConditionScript) : Prop where
  scripts : k.app.conditionScripts = app.conditionScripts ++ made
  distinct : (made.map fun c => (c.owner, c.condition)).Nodup
  asked : ∀ c ∈ made, ∃ p ∈ waits, c.IsFor p
  known : ∀ p ∈ waits, ∃ script, k.app.alarmScript p = some script ∧ script.id ∈ k.accelerations
  learned : ∀ id ∈ k.accelerations, ∃ p ∈ waits, ∃ script, k.app.alarmScript p = some script
    ∧ script.id = id
  hurried : ∀ id ∈ k.accelerators, id ∈ k.accelerations
  registered : ∀ (id : RelationId) (r : Relation), k.app.relations[id]? = some r →
    app.relations[id]? = some r ∨ (∃ c ∈ made, c.script.relation = id)
      ∨ ∃ script : ScriptId, k.accelerators[script]? = some r ∧ r.id = id

section Counting

variable (app : App) (waits : List (ActorName × String)) (k : Scheduler)
  (made : List ConditionScript) (h : k.Books app waits made)

include h

/-- No more scripts were made than there are scopes. -/
theorem length_of_books : made.length ≤ waits.dedup.length := by
  -- Every script was made for some scope, and different scripts are for different requests.
  have hsub : (made.map fun c => (c.owner, c.condition))
      ⊆ waits.dedup.map fun p => (p.1, waitedFor p) := by
    intro request hrequest
    rcases List.mem_map.mp hrequest with ⟨c, hc, rfl⟩
    rcases h.asked c hc with ⟨p, hp, hfor⟩
    exact List.mem_map.mpr ⟨p, List.mem_dedup.mpr hp, hfor.symm⟩
  have hle := (h.distinct.subperm hsub).length_le
  rwa [List.length_map, List.length_map] at hle

/-- No more is known about hurrying along than there are scopes, and no more relations were made
    from it. -/
theorem size_of_books :
    k.accelerations.size ≤ waits.dedup.length ∧ k.accelerators.size ≤ waits.dedup.length := by
  -- What is known is filed under scripts that are on record for some of the scopes.
  have hkeys : k.accelerations.keys
      ⊆ waits.dedup.filterMap fun p => (k.app.alarmScript p).map Script.id := by
    intro id hid
    rcases h.learned id (Std.ExtTreeMap.mem_keys.mp hid) with ⟨p, hp, script, hscript, rfl⟩
    refine List.mem_filterMap.mpr ⟨p, List.mem_dedup.mpr hp, ?_⟩
    rw [hscript, Option.map_some]
  have hle := (Std.ExtTreeMap.nodup_keys.subperm hkeys).length_le
  have hless := (Std.ExtTreeMap.nodup_keys.subperm fun id hid => Std.ExtTreeMap.mem_keys.mpr
    (h.hurried id (Std.ExtTreeMap.mem_keys.mp hid))).length_le
  have hfilter := List.length_filterMap_le (fun p => (k.app.alarmScript p).map Script.id)
    waits.dedup
  rw [Std.ExtTreeMap.length_keys] at hle
  rw [Std.ExtTreeMap.length_keys, Std.ExtTreeMap.length_keys] at hless
  exact ⟨hle.trans hfilter, hless.trans (hle.trans hfilter)⟩

end Counting

section Tables

theorem sameTables_of_drew (k k' : Scheduler) (h : k.Drew k') : k.SameTables k' := by
  rcases h with ⟨supply, rfl⟩
  exact ⟨rfl, rfl, rfl, rfl⟩

variable (app : App) (waits : List (ActorName × String)) (k k' : Scheduler)
  (made : List ConditionScript)

theorem books_of_sameTables (hsame : k.SameTables k') (h : k.Books app waits made) :
    k'.Books app waits made := by
  -- What is on record for a scope is read off the scripts of conditions.
  have halarm (p : ActorName × String) : k'.app.alarmScript p = k.app.alarmScript p := by
    unfold App.alarmScript App.interned
    rw [hsame.scripts]
  refine ⟨hsame.scripts.trans h.scripts, h.distinct, h.asked, fun p hp => ?_, fun id hid => ?_,
    ?_, ?_⟩
  · rw [halarm, hsame.accelerations]
    exact h.known p hp
  · rw [hsame.accelerations] at hid
    simp only [halarm]
    exact h.learned id hid
  · rw [hsame.accelerations, hsame.accelerators]
    exact h.hurried
  · rw [hsame.relations, hsame.accelerators]
    exact h.registered

/-- The relation that moves the clock for a script is new on the books, and what is known about the
    script was there. -/
theorem books_of_hurried (script : ScriptId) (r : Relation) (hscript : script ∈ k.accelerations)
    (hfree : k.accelerators[script]? = none) (h : k.Books app waits made) :
    { k with
      app := ((App.addRelation r).run k.app).2
      accelerators := k.accelerators.insert script r }.Books app waits made := by
  refine ⟨h.scripts, h.distinct, h.asked, h.known, h.learned, fun id hid => ?_, fun id r' hr' => ?_⟩
  -- The new relation stands under its script. The others stand where they stood, as the place was
  -- free.
  · rcases Std.ExtTreeMap.mem_insert.mp hid with heq | hid
    · exact Std.LawfulEqCmp.eq_of_compare heq ▸ hscript
    · exact h.hurried id hid
  · have hr'' : (k.app.relations.insert r.id r)[id]? = some r' := hr'
    rw [Std.ExtTreeMap.getElem?_insert] at hr''
    split at hr''
    next heq =>
      cases hr''
      exact Or.inr (Or.inr ⟨script, Std.ExtTreeMap.getElem?_insert_self,
        Std.LawfulEqCmp.eq_of_compare heq⟩)
    next =>
      rcases h.registered id r' hr'' with hold | hmade | ⟨other, hother, hid⟩
      · exact Or.inl hold
      · exact Or.inr (Or.inl hmade)
      · have hne : ¬ compare script other = .eq := by
          intro heq
          rw [← Std.LawfulEqCmp.eq_of_compare heq, hfree] at hother
          cases hother
        refine Or.inr (Or.inr ⟨other, ?_, hid⟩)
        change (k.accelerators.insert script r)[other]? = some r'
        rw [Std.ExtTreeMap.getElem?_insert, if_neg hne]
        exact hother

/-- All that the scheduler does keeps the books, apart from the beginning of timed waits. -/
theorem modest_books :
    Modest fun k k' => ∀ made, k.Books app waits made → k'.Books app waits made where
  refl _ _ h := h
  trans _ _ _ h h' made hk := h' made (h made hk)
  drawn k made := books_of_sameTables app waits k _ made (sameTables_of_drew _ _ ⟨_, rfl⟩)
  made k script a ha hfree made h := by
    -- If the relation cannot be made only numbers were drawn.
    rcases cases_of_makeAccelerator script a k with
      ⟨e, k₀, h₀, hrun⟩ | ⟨k₀, r, h₀, _, _, hrun⟩
    · rw [hrun]
      exact books_of_sameTables app waits k k₀ made h₀.toSameTables h
    · rw [hrun]
      refine books_of_hurried app waits k₀ made script r ?_ ?_
        (books_of_sameTables app waits k k₀ made h₀.toSameTables h)
      · rw [h₀.accelerations]
        exact Std.ExtTreeMap.mem_iff_isSome_getElem?.mpr (ha ▸ rfl)
      · rw [h₀.accelerators]
        exact hfree

end Tables

section Drawing

theorem drew_refl (k : Scheduler) : k.Drew k := ⟨k.app.supply, rfl⟩

theorem drew_trans (a b c : Scheduler) (h : a.Drew b) (h' : b.Drew c) : a.Drew c := by
  rcases h with ⟨_, rfl⟩
  rcases h' with ⟨supply, rfl⟩
  exact ⟨supply, rfl⟩

theorem drew_freshOperations (statements : List Statement) (k : Scheduler) :
    ∃ ops k', Gives (statements.mapM fun s => (liftM (freshOperation s) : Scheduling Operation))
      k ops k' ∧ k.Drew k' := by
  -- Each statement draws one number, whatever it is.
  induction statements generalizing k with
  | nil => exact ⟨[], k, rfl, drew_refl k⟩
  | cons s statements ih =>
      obtain ⟨op, k₁, hone, hdrew⟩ : ∃ op k₁,
          Gives (liftM (freshOperation s) : Scheduling Operation) k op k₁ ∧ k.Drew k₁ :=
        ⟨_, _, rfl, _, rfl⟩
      rcases ih k₁ with ⟨ops, k', hrest, hdrew'⟩
      refine ⟨op :: ops, k', ?_, drew_trans k k₁ k' hdrew hdrew'⟩
      rw [List.mapM_cons, gives_bind]
      exact ⟨op, k₁, hone, (gives_bind _ _ _ _ _).mpr
        ⟨ops, k', hrest, (gives_pure _ _ _ _).mpr ⟨rfl, rfl⟩⟩⟩

theorem drew_conditionThread (actor : ActorName) (script : Script) :
    Keeps Drew (conditionThread actor script) := by
  intro k
  unfold conditionThread
  rw [run_lift_bind]
  refine ends_lookUp_bind k.Drew _ _ k (drew_refl k) (fun r _ => ?_)
  exact ends_lookUp_bind k.Drew _ _ k (drew_refl k) (fun entry _ => ⟨_, rfl⟩)

end Drawing

section Noting

variable (app : App) (waits : List (ActorName × String)) (k : Scheduler)
  (made : List ConditionScript) (p : ActorName × String) (script : Script) (after : App)
  (hgives : Gives (App.conditionScript p.1 (waitedFor p)) k.app script after)
  (h : k.Books app waits made)

include h

/-- The script of a condition that is not on record was not made before. -/
theorem distinct_of_unrecorded (hnone : k.app.alarmScript p = none) (c : ConditionScript)
    (hc : c.IsFor p) : ((made ++ [c]).map fun c => (c.owner, c.condition)).Nodup := by
  -- A script for the same actor and condition would have been found.
  have hfresh := List.find?_eq_none.mp (Option.map_eq_none_iff.mp hnone)
  rw [List.map_append]
  refine List.nodup_append.mpr ⟨h.distinct, List.nodup_singleton _, fun x hx y hy heq => ?_⟩
  rcases List.mem_map.mp hx with ⟨d, hd, rfl⟩
  rw [List.map_singleton, List.mem_singleton, hc] at hy
  rcases Prod.mk.inj (heq.trans hy) with ⟨howner, hcondition⟩
  refine hfresh d ?_ ?_
  · rw [h.scripts]
    exact List.mem_append_right _ hd
  · rw [howner, hcondition, beq_self_eq_true, beq_self_eq_true]
    rfl

include hgives

omit h in
/-- The script that was asked for is on record for its scope, and what was on record stays. -/
theorem alarms_of_asked : after.alarmScript p = some script
    ∧ ∀ q found, k.app.alarmScript q = some found → after.alarmScript q = some found := by
  have hext : k.app.Extends after := by
    have hext := App.extends_conditionScript p.1 (waitedFor p) k.app
    rwa [show (App.conditionScript p.1 (waitedFor p)).run k.app = (.ok script, after) from hgives]
      at hext
  exact ⟨App.interned_of_gives_conditionScript _ _ script k.app after hgives,
    fun q found hq => App.interned_of_extends _ _ found k.app after hext hq⟩

/-- After the note about a scope, something is known about every scope. -/
theorem known_of_noted (a : Acceleration) : ∀ q ∈ waits ++ [p], ∃ found,
    after.alarmScript q = some found ∧ found.id ∈ k.accelerations.insertIfNew script.id a := by
  rcases alarms_of_asked k p script after hgives with ⟨hrecord, hkept⟩
  refine List.forall_mem_append.mpr ⟨fun q hq => ?_, List.forall_mem_singleton.mpr ?_⟩
  · rcases h.known q hq with ⟨found, hfound, hid⟩
    exact ⟨found, hkept q found hfound, Std.ExtTreeMap.mem_insertIfNew.mpr (Or.inr hid)⟩
  · exact ⟨script, hrecord, Std.ExtTreeMap.mem_insertIfNew.mpr (Or.inl Std.ReflCmp.compare_self)⟩

/-- What is known after the note about a scope is about some scope. -/
theorem learned_of_noted (a : Acceleration) : ∀ id ∈ k.accelerations.insertIfNew script.id a,
    ∃ q ∈ waits ++ [p], ∃ found, after.alarmScript q = some found ∧ found.id = id := by
  rcases alarms_of_asked k p script after hgives with ⟨hrecord, hkept⟩
  intro id hid
  rcases Std.ExtTreeMap.mem_insertIfNew.mp hid with heq | hid
  · exact ⟨p, List.mem_append_right _ (List.mem_singleton_self p), script, hrecord,
      Std.LawfulEqCmp.eq_of_compare heq⟩
  · rcases h.learned id hid with ⟨q, hq, found, hfound, hsame⟩
    exact ⟨q, List.mem_append_left _ hq, found, hkept q found hfound, hsame⟩

/-- After the script of a scope was asked for, and what is known about it was noted, the scope is on
    the books. -/
theorem books_of_noted (a : Acceleration) : ∃ made', Books app (waits ++ [p])
    { k with app := after, accelerations := k.accelerations.insertIfNew script.id a } made' := by
  have hknown := known_of_noted app waits k made p script after hgives h a
  have hlearned := learned_of_noted app waits k made p script after hgives h a
  have hhurried : ∀ id ∈ k.accelerators, id ∈ k.accelerations.insertIfNew script.id a :=
    fun id hid => Std.ExtTreeMap.mem_insertIfNew.mpr (Or.inr (h.hurried id hid))
  have hasked : ∀ c ∈ made, ∃ q ∈ waits ++ [p], c.IsFor q := fun c hc =>
    (h.asked c hc).imp fun q hq => ⟨List.mem_append_left _ hq.1, hq.2⟩
  -- The script was on record already, and then the books gain a scope only, or it was made now.
  rcases App.cases_of_gives_conditionScript p.1 (waitedFor p) script k.app after hgives with
    ⟨_, rfl⟩ | ⟨hnone, hmade⟩
  · exact ⟨made, h.scripts, h.distinct, hasked, hknown, hlearned, hhurried, h.registered⟩
  · rcases App.added_of_gives_makeConditionScript _ _ script k.app after hmade with
      ⟨hscripts, hrelations⟩
    let c : ConditionScript := ⟨p.1, waitedFor p, script⟩
    have hc : c ∈ made ++ [c] := List.mem_append_right _ (List.mem_singleton_self c)
    refine ⟨made ++ [c], ?_, distinct_of_unrecorded app waits k made p h hnone c rfl, ?_, hknown,
      hlearned, hhurried, fun id r hr => ?_⟩
    · rw [← List.append_assoc, ← h.scripts]
      exact hscripts
    · refine List.forall_mem_append.mpr ⟨hasked, List.forall_mem_singleton.mpr ⟨p, ?_, rfl⟩⟩
      exact List.mem_append_right _ (List.mem_singleton_self p)
    -- The relation of the new script may stand where another one stood.
    · rcases hrelations id r hr with hid | hbefore
      · exact Or.inr (Or.inl ⟨c, hc, hid⟩)
      · rcases h.registered id r hbefore with hold | ⟨d, hd, hid⟩ | hhurry
        · exact Or.inl hold
        · exact Or.inr (Or.inl ⟨d, List.mem_append_left _ hd, hid⟩)
        · exact Or.inr (Or.inr hhurry)

/-- If the scope is on the books, nothing is added. -/
theorem same_of_noted (a : Acceleration) (hp : p ∈ waits) :
    { k with app := after, accelerations := k.accelerations.insertIfNew script.id a } = k := by
  rcases h.known p hp with ⟨found, hfound, hid⟩
  rcases App.cases_of_gives_conditionScript p.1 (waitedFor p) script k.app after hgives with
    ⟨hrecord, rfl⟩ | ⟨hnone, _⟩
  · cases hfound.symm.trans hrecord
    -- A note about a script that something is known about is not taken.
    have hsame : k.accelerations.insertIfNew script.id a = k.accelerations :=
      Std.ExtTreeMap.ext_getElem? fun id => by
        rw [Std.ExtTreeMap.getElem?_insertIfNew, if_neg fun hnew => hnew.2 hid]
    rw [hsame]
  · cases hfound.symm.trans hnone

end Noting

section Beginning

variable {σ : Type} (s : ControlState σ) (index : Nat) (t : Thread) (seconds : Expr)
  (k : Scheduler) (p : ActorName × String) (howner : t.actor = p.1)
  (hactor : ∃ a, k.app.actor p.1 = .ok a) (hscope : k.app.localScope t.place = .ok [p.1, p.2])

include howner hactor hscope

/-- Apart from numbers that are drawn before and after, the beginning of a timed wait asks for the
    script of its condition and notes how it can be hurried along. -/
theorem run_beginWait : ∃ k₁ script after a, k.Drew k₁
    ∧ Gives (App.conditionScript p.1 (waitedFor p)) k₁.app script after
    ∧ Drew { k₁ with
        app := after
        accelerations := k₁.accelerations.insertIfNew script.id a }
      ((beginWait s index t [seconds]).run k).2 := by
  rcases drew_freshOperations (settingAlarm (wakeUpVariable [p.1, p.2]) seconds) k with
    ⟨ops, k₁, hops, hdrew⟩
  have hactor₁ : ∃ a, k₁.app.actor p.1 = .ok a := by
    rcases hdrew with ⟨_, rfl⟩
    exact hactor
  rcases App.exists_answer p.1 (waitedFor p) k₁.app hactor₁ with ⟨script, after, hasked, _⟩
  refine ⟨k₁, script, after, ⟨p.1, waitedFor p, Builtin.clock, .var (wakeUpVariable [p.1, p.2])⟩,
    hdrew, hasked, ?_⟩
  have hscript := gives_modelling_of _ k₁ script after hasked
  unfold waitedFor at hscript
  unfold beginWait
  dsimp only
  rw [run_program_bind, run_lookUp_bind _ _ k _ hscope, run_bind_of_gives _ _ _ _ _ hops, howner,
    run_bind_of_gives _ _ _ _ _ hscript, run_lift_bind]
  exact ends_bind (Drew _) _ _ _ (drew_conditionThread p.1 script _) (fun _ _ _ h => h)

variable (app : App) (waits : List (ActorName × String)) (made : List ConditionScript)
  (h : k.Books app waits made)

include h

/-- The beginning of a timed wait puts its scope on the books. -/
theorem books_of_beginWait : ∃ made',
    ((beginWait s index t [seconds]).run k).2.Books app (waits ++ [p]) made' := by
  rcases run_beginWait s index t seconds k p howner hactor hscope with
    ⟨k₁, script, after, a, hdrew, hgives, hlast⟩
  have h₁ := books_of_sameTables app waits k k₁ made (sameTables_of_drew k k₁ hdrew) h
  rcases books_of_noted app waits k₁ made p script after hgives h₁ a with ⟨made', h₂⟩
  exact ⟨made', books_of_sameTables app _ _ _ made' (sameTables_of_drew _ _ hlast) h₂⟩

/-- The beginning of a timed wait in a scope that is on the books adds nothing. -/
theorem drew_of_beginWait (hp : p ∈ waits) :
    k.Drew ((beginWait s index t [seconds]).run k).2 := by
  rcases run_beginWait s index t seconds k p howner hactor hscope with
    ⟨k₁, script, after, a, hdrew, hgives, hlast⟩
  have h₁ := books_of_sameTables app waits k k₁ made (sameTables_of_drew k k₁ hdrew) h
  rw [same_of_noted app waits k₁ made p script after hgives h₁ a hp] at hlast
  exact drew_trans k k₁ _ hdrew hlast

end Beginning

end Scheduler

end ActorCheck
