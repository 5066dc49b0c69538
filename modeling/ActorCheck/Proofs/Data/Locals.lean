import ActorCheck.Control.Leaving
import ActorCheck.Proofs.Data.Stores
import ActorCheck.Proofs.Program.Registry
import Mathlib.Data.Fintype.EquivFin

/-!
# Locals

A variable that its actor does not own is local to the script or method that names it. It lives in a
cell of the store whose name consists of the actor, the relation and the variable, joined by a
separator. So whether two scripts share a cell is a question of reading such a name back: nothing
keeps the separator out of names, and nothing keeps two relations of an actor from having the same
one.

Where the separator cannot occur in the names of actors and relations, nor overlap their ends, a
name can be read back, from the front, whatever the variable is called. Then two scripts or methods
share cells exactly if they are of one actor and their relations have one name, and this is also
exactly when one of them can change what the other one reads. Relations that were not given a name
are named by their numbers, and for those the two are one question.

## Main definitions

* `Plain`: The separator of cell names has no place in a name.
* `Actor.Local`: A variable lives with the script or method that names it.
* `App.Isolated`: What a statement at one place does to its locals changes no local at another.

## Theorems

* `plain_append_inj`: A plain name is read back from the front.
* `cellName_eq_iff`: Cells of locals have one name exactly if everything agrees.
* `App.isolated_iff_of_plain`: Places are isolated exactly if their scopes differ.
* `App.isolated_iff_of_unnamed`: Without names of their own, different relations are isolated.
* `App.locals_apart_iff`: Which locals share a cell, and what follows for those who read them.
-/

namespace ActorCheck

/-- The separator of cell names occurs neither in a name nor where the name ends and another
    separator begins. -/
def Plain (name : String) : Prop := ¬ [':', ':'] <:+: name.toList ++ [':']

instance (name : String) : Decidable (Plain name) := inferInstanceAs (Decidable (¬ _))

/-- A name without the character that separators consist of is plain. -/
theorem plain_of_not_mem (name : String) (h : ':' ∉ name.toList) : Plain name := by
  intro hinfix
  -- A separator has the character twice, and the name with the one behind it has it once.
  have hcount := hinfix.sublist.count_le ':'
  rw [List.count_append, List.count_eq_zero.mpr h] at hcount
  exact absurd hcount (by decide)

/-- In front of a separator that begins a text, nothing plain can end with another one. -/
theorem eq_nil_of_separator (front rest u v : List Char)
    (hplain : ¬ [':', ':'] <:+: front ++ rest ++ [':'])
    (h : ':' :: ':' :: u = rest ++ ':' :: ':' :: v) : rest = [] := by
  match rest with
  | [] => rfl
  -- One character more would be the first half of a separator, and two would be a whole one.
  | [c] =>
      rw [List.singleton_append] at h
      refine absurd ⟨front, [], ?_⟩ hplain
      rw [← (List.cons.inj h).1]
      simp
  | c :: d :: rest =>
      rw [List.cons_append, List.cons_append] at h
      refine absurd ⟨front, rest ++ [':'], ?_⟩ hplain
      rw [← (List.cons.inj h).1, ← (List.cons.inj (List.cons.inj h).2).1]
      simp

/-- A plain name is read back from the front. -/
theorem plain_append_inj (x y u v : String) (hx : Plain x) (hy : Plain y)
    (h : x ++ "::" ++ u = y ++ "::" ++ v) : x = y ∧ u = v := by
  have hchars : x.toList ++ ':' :: ':' :: u.toList = y.toList ++ ':' :: ':' :: v.toList := by
    have := congrArg String.toList h
    simpa using this
  have hname : x.toList = y.toList := by
    -- One of the names is the beginning of the other, and what is left over is empty either way.
    rcases List.append_eq_append_iff.mp hchars with ⟨rest, hrest, htail⟩ | ⟨rest, hrest, htail⟩
    · have hnil := eq_nil_of_separator x.toList rest u.toList v.toList (hrest ▸ hy) htail
      rw [hrest, hnil, List.append_nil]
    · have hnil := eq_nil_of_separator y.toList rest v.toList u.toList (hrest ▸ hx) htail
      rw [hrest, hnil, List.append_nil]
  have htext := List.append_cancel_left (hname ▸ hchars)
  exact ⟨String.toList_inj.mp hname,
    String.toList_inj.mp (List.cons.inj (List.cons.inj htext).2).2⟩

/-- Cells of locals have one name exactly if everything agrees. -/
theorem cellName_eq_iff (actor relation actor' relation' : String) (v w : String)
    (type type' : DataType)
    (hplain : ∀ name ∈ [actor, relation, actor', relation'], Plain name) :
    (Variable.within v type [actor, relation]).cellName
        = (Variable.within w type' [actor', relation']).cellName
      ↔ actor = actor' ∧ relation = relation' ∧ v = w := by
  constructor
  · intro h
    have hcell : actor ++ "::" ++ (relation ++ "::" ++ v)
        = actor' ++ "::" ++ (relation' ++ "::" ++ w) := by
      simpa only [String.append_assoc] using (show actor ++ "::" ++ relation ++ "::" ++ v
        = actor' ++ "::" ++ relation' ++ "::" ++ w from h)
    -- The names are split off one after the other, the actor first.
    have hactor := plain_append_inj _ _ _ _ (hplain actor (by simp)) (hplain actor' (by simp)) hcell
    have hrelation := plain_append_inj _ _ _ _ (hplain relation (by simp))
      (hplain relation' (by simp)) hactor.2
    exact ⟨hactor.1, hrelation⟩
  · rintro ⟨rfl, rfl, rfl⟩
    rfl

section Unnamed

theorem toList_relationText (n : RelationId) :
    (relationText n).toList = 'R' :: Nat.toDigits 10 n := by
  simp only [relationText, String.toList_append, Nat.toString_eq_ofList_toDigits,
    String.toList_ofList]
  rfl

/-- The text of a relation is plain. -/
theorem plain_relationText (n : RelationId) : Plain (relationText n) := by
  refine plain_of_not_mem _ fun hmem => ?_
  rw [toList_relationText, List.mem_cons] at hmem
  rcases hmem with hhead | hdigit
  · exact absurd hhead (by decide)
  · exact absurd (Nat.isDigit_of_mem_toDigits (by decide) (by decide) hdigit) (by decide)

theorem relationText_inj (m n : RelationId) : relationText m = relationText n ↔ m = n := by
  refine ⟨fun h => ?_, congrArg relationText⟩
  have hdigits := congrArg String.toList h
  rw [toList_relationText, toList_relationText] at hdigits
  -- Reading the digits back gives the number.
  have := congrArg (Nat.ofDigitChars 10 · 0) (List.cons.inj hdigits).2
  simpa only [Nat.ofDigitChars_ten_toDigits] using this

end Unnamed

/-- A variable lives with the script or method that names it. -/
def Actor.Local (a : Actor) (v : Variable) : Prop := v.isUnqualified = true ∧ a.owns v.ident = false

/-- An actor owns finitely many variables, so some name is left for locals. -/
theorem Actor.exists_local (a : Actor) (type : DataType) :
    ∃ x : String, a.Local ⟨x, type, .unqualified⟩ := by
  rcases Infinite.exists_notMem_finset a.ownVariables.toList.toFinset with ⟨x, hx⟩
  rw [List.mem_toFinset, Std.ExtTreeSet.mem_toList] at hx
  exact ⟨x, rfl, Bool.eq_false_iff.mpr fun hown => hx (Std.ExtTreeSet.contains_iff_mem.mp hown)⟩

theorem Scoping.place_of_local (scoping : Scoping) (scope : List String) (v : Variable)
    (h : scoping.actor.Local v) : scoping.place scope v = .within v.ident v.type scope := by
  unfold place
  rw [if_pos h.1, if_neg (Bool.eq_false_iff.mp h.2)]

theorem Scoping.statement_store_num (scoping : Scoping) (v : Variable) (n : Int64) :
    scoping.statement (.store v (.num n)) = .ok (.store (scoping.target v) (.num n)) := by
  simp only [statement, expr, Expr.replace, replacement]
  rfl

/-- What a statement in its place writes are the targets of what the statement writes. -/
theorem Scoping.written_of_statement (scoping : Scoping) (statement placed : Statement)
    (h : scoping.statement statement = .ok placed) :
    placed.written = statement.written.map scoping.target := by
  cases statement with
  | store v e =>
      rcases (except_bind_ok _ _ _).mp h with ⟨e', _, h⟩
      rw [← (except_pure_ok _ _).mp h]
      rfl
  | call method args result =>
      rcases (except_bind_ok _ _ _).mp h with ⟨args', _, h⟩
      rw [← (except_pure_ok _ _).mp h]
      cases result with
      | none => rfl
      | some v => rfl
  | assume e | waitUntil e | waitSecs e | evaluate e | broadcast m | broadcastAndWait m =>
      rcases (except_bind_ok _ _ _).mp h with ⟨_, _, h⟩
      rw [← (except_pure_ok _ _).mp h]
      rfl
  | _ =>
      cases h
      rfl

namespace App

variable (app : App)

/-- Whatever a statement at one place does to its locals, what is read of the locals at another
    place stays the same. -/
def Isolated (p q : Place) : Prop :=
  ∀ (a b : Actor) (scope scope' : List String),
    app.actor p.actor = .ok a → app.localScope p = .ok scope →
    app.actor q.actor = .ok b → app.localScope q = .ok scope' →
    ∀ (known : Variable → Option ActorName) (statement placed : Statement),
      ({ Scoping.new a scope with resolve := known } : Scoping).statement statement = .ok placed →
      (∀ v ∈ statement.written, a.Local v) →
      ∀ (s t : Store) (found : List Store), Explicit.successors s placed = .ok found → t ∈ found →
        ∀ w, b.Local w →
          t.read ((Scoping.new b scope').read w) = s.read ((Scoping.new b scope').read w)

theorem localScope_of_relation (p : Place) (r : Relation) (h : app.relation p.relation = .ok r) :
    app.localScope p = .ok [p.actor, r.name] := by
  unfold localScope relationOf
  rw [h]
  rfl

section Scopes

variable (p q : Place) (a b : Actor)
variable (ha : app.actor p.actor = .ok a) (hb : app.actor q.actor = .ok b)

include ha hb in
/-- Places where two locals share a cell are not isolated: what the one stores the other reads. -/
theorem not_isolated_of_cellName (scope scope' : List String) (x y : String)
    (hscope : app.localScope p = .ok scope) (hscope' : app.localScope q = .ok scope')
    (hx : a.Local ⟨x, .number, .unqualified⟩) (hy : b.Local ⟨y, .number, .unqualified⟩)
    (hcell : (Variable.within x .number scope).cellName
      = (Variable.within y .number scope').cellName) : ¬ app.Isolated p q := by
  intro hisolated
  -- The first place stores one in its local, into a store that is empty.
  have hread := hisolated a b scope scope' ha hscope hb hscope' (fun _ => none) _ _
    (Scoping.statement_store_num _ _ 1) (fun v hv => List.mem_singleton.mp hv ▸ hx) ∅ _ _ rfl
    (List.mem_singleton_self _) _ hy
  rw [Scoping.target, Scoping.read, Scoping.place_of_local _ _ _ hx,
    Scoping.place_of_local _ _ _ hy] at hread
  -- The second reads one instead of the default.
  change Store.read (Store.write ∅ (.within x .number scope) (.int 1)) (.within y .number scope')
    = .ok (.int 0) at hread
  rw [Store.read, Store.getElem?_write, if_pos hcell] at hread
  exact nomatch hread

variable (r r' : Relation)
variable (hr : app.relation p.relation = .ok r) (hr' : app.relation q.relation = .ok r')

include ha hb hr hr' in
/-- Places are isolated exactly if their scopes differ. -/
theorem isolated_iff_of_plain
    (hplain : ∀ name ∈ [p.actor, r.name, q.actor, r'.name], Plain name) :
    app.Isolated p q ↔ p.actor ≠ q.actor ∨ r.name ≠ r'.name := by
  have hscope := app.localScope_of_relation p r hr
  have hscope' := app.localScope_of_relation q r' hr'
  rw [← not_and_or]
  constructor
  · rintro hisolated ⟨hactor, hname⟩
    -- Both have one actor and one scope, and some name is left for locals of it.
    have hsame : a = b := Except.ok.inj (ha.symm.trans ((congrArg app.actor hactor).trans hb))
    rcases a.exists_local .number with ⟨x, hx⟩
    refine app.not_isolated_of_cellName p q a b ha hb _ _ x x hscope hscope' hx (hsame ▸ hx) ?_
      hisolated
    rw [hactor, hname]
  · intro hscopes a' b' scope scope' ha' hs hb' hs' known statement placed hplaced hlocal s t found
      hfound ht w hw
    cases ha.symm.trans ha'
    cases hb.symm.trans hb'
    cases hscope.symm.trans hs
    cases hscope'.symm.trans hs'
    -- Only the cells of what is written change, and none of them is the cell that is read: equal
    -- cells have equal scopes.
    refine Store.read_congr t s _ (Explicit.frame s t placed found hfound ht _ fun v hv => ?_)
    rw [Scoping.written_of_statement _ _ _ hplaced] at hv
    rcases List.mem_map.mp hv with ⟨u, hu, rfl⟩
    intro hcell
    rw [Scoping.target, Scoping.read, Scoping.place_of_local _ _ u (hlocal u hu),
      Scoping.place_of_local _ _ w hw] at hcell
    have hboth := (cellName_eq_iff _ _ _ _ _ _ _ _ hplain).mp hcell
    exact hscopes ⟨hboth.1, hboth.2.1⟩

include ha hb hr hr' in
/-- Without names of their own, different relations are isolated from each other. -/
theorem isolated_iff_of_unnamed (hfiled : app.Filed) (hactor : Plain p.actor)
    (hactor' : Plain q.actor) (hname : r.name = relationText r.id)
    (hname' : r'.name = relationText r'.id) :
    app.Isolated p q ↔ p.actor ≠ q.actor ∨ p.relation ≠ q.relation := by
  rw [(hfiled _ r hr).1] at hname
  rw [(hfiled _ r' hr').1] at hname'
  have hplain : ∀ name ∈ [p.actor, r.name, q.actor, r'.name], Plain name := by
    simp [hname, hname', hactor, hactor', plain_relationText]
  rw [app.isolated_iff_of_plain p q a b ha hb r r' hr hr' hplain, hname, hname', ne_eq, ne_eq,
    relationText_inj]

include ha hb hr hr' in
/-- Where names are plain, locals of two scripts or methods share a cell exactly if actors, names of
    relations and names of variables agree, and the scripts or methods are isolated from each other
    exactly if their actors or the names of their relations differ. -/
theorem locals_apart_iff (hplain : ∀ name ∈ [p.actor, r.name, q.actor, r'.name], Plain name) :
    app.localScope p = .ok [p.actor, r.name] ∧ app.localScope q = .ok [q.actor, r'.name]
      ∧ (∀ v w, a.Local v → b.Local w →
        (((Scoping.new a [p.actor, r.name]).target v).cellName
            = ((Scoping.new b [q.actor, r'.name]).read w).cellName
          ↔ p.actor = q.actor ∧ r.name = r'.name ∧ v.ident = w.ident))
      ∧ (app.Isolated p q ↔ p.actor ≠ q.actor ∨ r.name ≠ r'.name) := by
  refine ⟨app.localScope_of_relation p r hr, app.localScope_of_relation q r' hr', ?_,
    app.isolated_iff_of_plain p q a b ha hb r r' hr hr' hplain⟩
  intro v w hv hw
  rw [Scoping.target, Scoping.read, Scoping.place_of_local _ _ v hv,
    Scoping.place_of_local _ _ w hw]
  exact cellName_eq_iff _ _ _ _ _ _ _ _ hplain

end Scopes

section Household

/-- A variable that nobody owns. -/
def tally : Variable := ⟨"n", .number, .unqualified⟩

/-- A program with two relations of given names, each of which sets a tally. -/
def household (name name' : String) (actors : List ActorDraft) : App :=
  (AppDraft.build
    { name := "household"
      relations := [.named name (.sequence [.store tally (.num 1)]),
        .named name' (.sequence [.store tally (.num 1)])]
      actors := actors }).run (App.new "household") |>.2

/-- An actor with a script for each of some relations. -/
def member (name : ActorName) (relations : List Nat) : ActorDraft :=
  ⟨name, .program, none, [], [], [], relations.map fun n => (.bootstrap, n)⟩

/-- Two actors of one script each, both called main. -/
def pets : App := household "main" "main" [member "cat" [0], member "dog" [1]]

/-- One actor with two scripts, both called main. -/
def namesakes : App := household "main" "main" [member "cat" [0, 1]]

/-- Two actors that put the separator in different places. -/
def parted : App := household "b::c" "c" [member "a" [0], member "a::b" [1]]

theorem relation_of_name (id : RelationId) (name : String)
    (h : (app.relation id).toOption.map Relation.name = some name) :
    ∃ r, app.relation id = .ok r ∧ r.name = name := by
  rcases Option.map_eq_some_iff.mp h with ⟨r, hr, hname⟩
  exact ⟨r, (mem_toOption _ _).mp hr, hname⟩

/-- An actor of the household with the number of its script. -/
def owner (name : ActorName) (script : ScriptId) (relation : RelationId) : Actor :=
  (Actor.new name .program).addScript ⟨script, .bootstrap, relation⟩

/-- The cat and the dog leave each other alone, although they call their scripts the same. -/
theorem locals_apart_iff_pets : (∀ name ∈ ["cat", "main", "dog", "main"], Plain name)
    ∧ pets.Isolated ⟨"cat", 5, 2⟩ ⟨"dog", 10, 7⟩ := by
  have hplain : ∀ name ∈ ["cat", "main", "dog", "main"], Plain name := by decide
  have hcat : pets.actor "cat" = .ok (owner "cat" 11 5) := by decide +kernel
  have hdog : pets.actor "dog" = .ok (owner "dog" 12 10) := by decide +kernel
  rcases pets.relation_of_name 5 "main" (by decide +kernel) with ⟨r, hr, hname⟩
  rcases pets.relation_of_name 10 "main" (by decide +kernel) with ⟨r', hr', hname'⟩
  have happly := pets.locals_apart_iff ⟨"cat", 5, 2⟩ ⟨"dog", 10, 7⟩ _ _ hcat hdog r r' hr hr'
    (by rw [hname, hname']; exact hplain)
  exact ⟨hplain, happly.2.2.2.mpr (.inl (by decide))⟩

/-- Relations of one actor and one name share their locals, and so do relations of different actors
    where a separator in one name stands for that between two others. -/
theorem shared_locals : ¬ namesakes.Isolated ⟨"cat", 5, 2⟩ ⟨"cat", 10, 7⟩
    ∧ ¬ parted.Isolated ⟨"a", 5, 2⟩ ⟨"a::b", 10, 7⟩ := by
  constructor
  · have hcat : namesakes.actor "cat"
        = .ok ((owner "cat" 11 5).addScript ⟨12, .bootstrap, 10⟩) := by
      decide +kernel
    exact namesakes.not_isolated_of_cellName ⟨"cat", 5, 2⟩ ⟨"cat", 10, 7⟩ _ _ hcat hcat
      ["cat", "main"] ["cat", "main"] "n" "n" (by decide +kernel) (by decide +kernel)
      ⟨rfl, rfl⟩ ⟨rfl, rfl⟩ rfl
  · have hfirst : parted.actor "a" = .ok (owner "a" 11 5) := by decide +kernel
    have hsecond : parted.actor "a::b" = .ok (owner "a::b" 12 10) := by decide +kernel
    exact parted.not_isolated_of_cellName ⟨"a", 5, 2⟩ ⟨"a::b", 10, 7⟩ _ _ hfirst hsecond
      ["a", "b::c"] ["a::b", "c"] "n" "n" (by decide +kernel) (by decide +kernel)
      ⟨rfl, rfl⟩ ⟨rfl, rfl⟩ (by decide +kernel)

end Household

end App

end ActorCheck
