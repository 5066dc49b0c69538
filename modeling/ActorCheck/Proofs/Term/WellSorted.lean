import ActorCheck.Proofs.Term.Meaning
import ActorCheck.Term.Sort

/-!
# Well-Sorted Terms

The rules by which a term has a sort once its variables have one, and what a walk over terms does
to the table of sorts. A term that has a sort also has a meaning of this sort.

A walk never takes a sort back and only ever records variables of the terms it visits. What it
records is forced: whenever the terms have their sorts under some assignment and the table so far
agrees with that assignment, the table afterwards still does. So a sort that was found is the sort
of the variable under every assignment that works, and the walks may be wrong only about what they
did not find.

## Main definitions

* `Term.HasSort`: A term has a sort, with the sorts of a table for its variables.
* `Sorts.Within`: What one table tells the other tells too.

## Theorems

* `Term.eval_of_hasSort`: A term that has a sort stands for something of this sort.
* `Term.sort?_of_hasSort`: The sort that the shape of a term tells is its sort.
* `Sorts.holds_of_visit`, `Sorts.holds_of_visitAll`: What is kept while variables are recorded is
  kept by a walk.
* `Sorts.within_visit`, `Sorts.within_visitAll`: A walk takes nothing back.
* `Sorts.getElem?_visitAll_of_not_mem`: It only records variables of the terms.
* `Sorts.visit_within`, `Sorts.visitAll_within`: What it records is forced.
-/

namespace ActorCheck

/-- The term has a sort if its variables have the sorts of the table. -/
inductive Term.HasSort (sorts : Sorts) : Term → TermSort → Prop where
  | var (x : String) (s : TermSort) (h : sorts[x]? = some s) : HasSort sorts (.var x) s
  | int (n : Int64) : HasSort sorts (.int n) .int
  | bool (b : Bool) : HasSort sorts (.bool b) .bool
  | arith (op : ArithOp) (a b : Term) (ha : HasSort sorts a .int) (hb : HasSort sorts b .int) :
      HasSort sorts (.arith op a b) .int
  | eq (a b : Term) (s : TermSort) (ha : HasSort sorts a s) (hb : HasSort sorts b s) :
      HasSort sorts (.cmp .eq a b) .bool
  | order (op : Comparison) (a b : Term) (hop : op ≠ .eq) (ha : HasSort sorts a .int)
      (hb : HasSort sorts b .int) : HasSort sorts (.cmp op a b) .bool
  | conj (ts : List Term) (h : ∀ t ∈ ts, HasSort sorts t .bool) : HasSort sorts (.conj ts) .bool
  | disj (ts : List Term) (h : ∀ t ∈ ts, HasSort sorts t .bool) : HasSort sorts (.disj ts) .bool
  | not (a : Term) (h : HasSort sorts a .bool) : HasSort sorts (.not a) .bool
  | implies (a b : Term) (ha : HasSort sorts a .bool) (hb : HasSort sorts b .bool) :
      HasSort sorts (.implies a b) .bool
  | ite (c a b : Term) (s : TermSort) (hc : HasSort sorts c .bool) (ha : HasSort sorts a s)
      (hb : HasSort sorts b s) : HasSort sorts (.ite c a b) s

/-- The sort of an integer or a truth value. -/
def Meaning.sort : Meaning → TermSort
  | .int _ => .int
  | .bool _ => .bool

theorem Meaning.exists_int (m : Meaning) (h : m.sort = .int) : ∃ n, m = .int n := by
  cases m with
  | int n => exact ⟨n, rfl⟩
  | bool b => cases h

theorem Meaning.exists_bool (m : Meaning) (h : m.sort = .bool) : ∃ b, m = .bool b := by
  cases m with
  | int n => cases h
  | bool b => exact ⟨b, rfl⟩

section Meanings

variable {sorts : Sorts} (ν : Valuation)

theorem Term.evalAll_of_bools (ts : List Term)
    (h : ∀ t ∈ ts, ∃ m, t.eval ν = some m ∧ m.sort = .bool) : ∃ bs, evalAll ν ts = some bs := by
  induction ts with
  | nil => exact ⟨[], rfl⟩
  | cons t ts ih =>
      rw [List.forall_mem_cons] at h
      rcases h.1 with ⟨m, hm, hsort⟩
      rcases m.exists_bool hsort with ⟨b, rfl⟩
      rcases ih h.2 with ⟨bs, hbs⟩
      refine ⟨b :: bs, ?_⟩
      rw [evalAll_cons, hm, hbs]
      rfl

/-- A term that has a sort stands for something of this sort, whatever its variables stand for, as
    long as those are of their sorts. -/
theorem Term.eval_of_hasSort
    (hν : ∀ (x : String) (s : TermSort), sorts[x]? = some s → (ν x).sort = s)
    (t : Term) (s : TermSort) (h : t.HasSort sorts s) :
    ∃ m, t.eval ν = some m ∧ m.sort = s := by
  induction h with
  | var x s hx => exact ⟨ν x, rfl, hν x s hx⟩
  | int n => exact ⟨_, rfl, rfl⟩
  | bool b => exact ⟨_, rfl, rfl⟩
  | arith op a b _ _ iha ihb =>
      rcases iha with ⟨m, hm, hsort⟩
      rcases ihb with ⟨n, hn, hsort'⟩
      rcases m.exists_int hsort with ⟨m, rfl⟩
      rcases n.exists_int hsort' with ⟨n, rfl⟩
      refine ⟨.int (op.apply m n), ?_, rfl⟩
      rw [eval, hm, hn]
      rfl
  | eq a b s _ _ iha ihb =>
      rcases iha with ⟨m, hm, hsort⟩
      rcases ihb with ⟨n, hn, hsort'⟩
      rw [eval_cmp, hm, hn]
      -- An equation does not tell which sort its sides have, only that it is the same one.
      cases s with
      | int =>
          rcases m.exists_int hsort with ⟨m, rfl⟩
          rcases n.exists_int hsort' with ⟨n, rfl⟩
          exact ⟨_, rfl, rfl⟩
      | bool =>
          rcases m.exists_bool hsort with ⟨m, rfl⟩
          rcases n.exists_bool hsort' with ⟨n, rfl⟩
          exact ⟨_, rfl, rfl⟩
  | order op a b _ _ _ iha ihb =>
      rcases iha with ⟨m, hm, hsort⟩
      rcases ihb with ⟨n, hn, hsort'⟩
      rcases m.exists_int hsort with ⟨m, rfl⟩
      rcases n.exists_int hsort' with ⟨n, rfl⟩
      rw [eval_cmp, hm, hn]
      exact ⟨_, rfl, rfl⟩
  | conj ts _ ih =>
      rcases evalAll_of_bools ν ts ih with ⟨bs, hbs⟩
      rw [eval_conj, hbs]
      exact ⟨_, rfl, rfl⟩
  | disj ts _ ih =>
      rcases evalAll_of_bools ν ts ih with ⟨bs, hbs⟩
      rw [eval_disj, hbs]
      exact ⟨_, rfl, rfl⟩
  | not a _ iha =>
      rcases iha with ⟨m, hm, hsort⟩
      rcases m.exists_bool hsort with ⟨m, rfl⟩
      rw [eval_not, hm]
      exact ⟨_, rfl, rfl⟩
  | implies a b _ _ iha ihb =>
      rcases iha with ⟨m, hm, hsort⟩
      rcases ihb with ⟨n, hn, hsort'⟩
      rcases m.exists_bool hsort with ⟨m, rfl⟩
      rcases n.exists_bool hsort' with ⟨n, rfl⟩
      rw [eval, hm, hn]
      exact ⟨_, rfl, rfl⟩
  | ite c a b s _ _ _ ihc iha ihb =>
      rcases ihc with ⟨k, hk, hcond⟩
      rcases iha with ⟨m, hm, hsort⟩
      rcases ihb with ⟨n, hn, hsort'⟩
      rcases k.exists_bool hcond with ⟨k, rfl⟩
      rw [eval, hk, hm, hn]
      -- Neither does a choice, whose value is that of one of its branches.
      cases s with
      | int =>
          rcases m.exists_int hsort with ⟨m, rfl⟩
          rcases n.exists_int hsort' with ⟨n, rfl⟩
          exact ⟨_, rfl, rfl⟩
      | bool =>
          rcases m.exists_bool hsort with ⟨m, rfl⟩
          rcases n.exists_bool hsort' with ⟨n, rfl⟩
          exact ⟨_, rfl, rfl⟩

end Meanings

namespace Sorts

/-- What one table tells the other tells too. -/
def Within (known sorts : Sorts) : Prop :=
  ∀ (x : String) (s : TermSort), known[x]? = some s → sorts[x]? = some s

theorem within_refl (known : Sorts) : known.Within known := fun _ _ h => h

theorem within_trans (known later sorts : Sorts) (h : known.Within later)
    (h' : later.Within sorts) : known.Within sorts :=
  fun x s hx => h' x s (h x s hx)

theorem getElem?_insertIfNew_name (known : Sorts) (x y : String) (s : TermSort) :
    (known.insertIfNew x s)[y]? = if y = x then some (known[x]?.getD s) else known[y]? := by
  rw [Std.ExtTreeMap.getElem?_insertIfNew]
  simp only [Std.LawfulEqCmp.compare_eq_iff_eq]
  by_cases hxy : y = x
  · subst hxy
    rw [if_pos rfl]
    by_cases hmem : y ∈ known
    · rw [if_neg fun hboth => hboth.2 hmem, Std.ExtTreeMap.getElem?_eq_some_getElem hmem]
      rfl
    · rw [if_pos ⟨rfl, hmem⟩, Std.ExtTreeMap.getElem?_eq_none hmem]
      rfl
  · rw [if_neg hxy, if_neg fun hboth => hxy hboth.1.symm]

/-- The walk over a comparison by order. -/
theorem visit_order (op : Comparison) (a b : Term) (expected : Option TermSort) (known : Sorts)
    (hop : op ≠ .eq) : visit (.cmp op a b) expected known
      = visit b (some .int) (visit a (some .int) known) := by
  cases op with
  | eq => exact absurd rfl hop
  | _ => rfl

section Growth

variable (P : Sorts → Prop)

mutual

/-- What holds of a table and still holds when a variable of the term is recorded holds after a walk
    over the term. -/
theorem holds_of_visit (t : Term)
    (hrecord : ∀ x ∈ t.vars, ∀ e known, P known → P (known.insertIfNew x e))
    (expected : Option TermSort) (known : Sorts) (h : P known) : P (visit t expected known) := by
  cases t with
  | var x =>
      cases expected with
      | none => exact h
      | some e => exact hrecord x ((Term.mem_vars_var x x).mpr rfl) e known h
  | int n => exact h
  | bool b => exact h
  | arith op a b =>
      have ha := holds_of_visit a fun x hx =>
        hrecord x ((Term.mem_vars_arith x op a b).mpr (.inl hx))
      have hb := holds_of_visit b fun x hx =>
        hrecord x ((Term.mem_vars_arith x op a b).mpr (.inr hx))
      exact hb _ _ (ha _ _ h)
  | cmp op a b =>
      have ha := holds_of_visit a fun x hx => hrecord x ((Term.mem_vars_cmp x op a b).mpr (.inl hx))
      have hb := holds_of_visit b fun x hx => hrecord x ((Term.mem_vars_cmp x op a b).mpr (.inr hx))
      -- An equation looks at its sides first and then walks over both. All other comparisons expect
      -- integers.
      by_cases hop : op = .eq
      · subst hop
        exact hb _ _ (ha _ _ h)
      · rw [visit_order op a b expected known hop]
        exact hb _ _ (ha _ _ h)
  | conj ts => exact holds_of_visitAll ts hrecord known h
  | disj ts => exact holds_of_visitAll ts hrecord known h
  | not a => exact holds_of_visit a hrecord _ _ h
  | implies a b =>
      have ha := holds_of_visit a fun x hx =>
        hrecord x ((Term.mem_vars_implies x a b).mpr (.inl hx))
      have hb := holds_of_visit b fun x hx =>
        hrecord x ((Term.mem_vars_implies x a b).mpr (.inr hx))
      exact hb _ _ (ha _ _ h)
  | ite c a b =>
      have hc := holds_of_visit c fun x hx => hrecord x ((Term.mem_vars_ite x c a b).mpr (.inl hx))
      have ha := holds_of_visit a fun x hx =>
        hrecord x ((Term.mem_vars_ite x c a b).mpr (.inr (.inl hx)))
      have hb := holds_of_visit b fun x hx =>
        hrecord x ((Term.mem_vars_ite x c a b).mpr (.inr (.inr hx)))
      exact hb _ _ (ha _ _ (hc _ _ h))

/-- The same for a walk over formulas. -/
theorem holds_of_visitAll (ts : List Term)
    (hrecord : ∀ x ∈ Term.varsAll ts, ∀ e known, P known → P (known.insertIfNew x e))
    (known : Sorts) (h : P known) : P (visitAll ts known) := by
  cases ts with
  | nil => exact h
  | cons t ts =>
      have ht := holds_of_visit t fun x hx =>
        hrecord x (Std.ExtTreeSet.mem_union_iff.mpr (.inl hx))
      refine holds_of_visitAll ts (fun x hx => ?_) _ (ht _ _ h)
      exact hrecord x (Std.ExtTreeSet.mem_union_iff.mpr (.inr hx))

end

theorem within_insertIfNew (known : Sorts) (x : String) (e : TermSort) :
    known.Within (known.insertIfNew x e) := by
  intro y s hy
  rw [getElem?_insertIfNew_name]
  by_cases hxy : y = x
  · subst hxy
    rw [if_pos rfl, hy]
    rfl
  · rwa [if_neg hxy]

/-- A walk over a term takes nothing back. -/
theorem within_visit (t : Term) (expected : Option TermSort) (known : Sorts) :
    known.Within (visit t expected known) :=
  holds_of_visit known.Within t
    (fun x _ e later h => within_trans _ _ _ h (within_insertIfNew later x e)) expected known
    (within_refl known)

/-- A walk over formulas takes nothing back. -/
theorem within_visitAll (ts : List Term) (known : Sorts) : known.Within (visitAll ts known) :=
  holds_of_visitAll known.Within ts
    (fun x _ e later h => within_trans _ _ _ h (within_insertIfNew later x e)) known
    (within_refl known)

/-- A walk over formulas only records their variables. -/
theorem getElem?_visitAll_of_not_mem (ts : List Term) (known : Sorts) (x : String)
    (hx : x ∉ Term.varsAll ts) : (visitAll ts known)[x]? = known[x]? := by
  refine holds_of_visitAll (fun later => later[x]? = known[x]?) ts (fun y hy e later h => ?_) known
    rfl
  -- The variable that is recorded is one of the formulas, and this one is not.
  have hne : x ≠ y := fun heq => hx (heq ▸ hy)
  rw [getElem?_insertIfNew_name, if_neg hne, h]

end Growth

end Sorts

/-- The sort that the shape of a term and a table tell is the sort of the term, wherever the table
    agrees with the sorts of the variables. -/
theorem Term.sort?_of_hasSort (known sorts : Sorts) (hwithin : known.Within sorts) (t : Term)
    (s found : TermSort) (h : t.HasSort sorts s) (hfound : t.sort? known = some found) :
    found = s := by
  -- Only the shapes that tell no sort by themselves are dealt with: a variable, by the table, and a
  -- choice, by its branches.
  induction h with
  | var x s hx => exact Option.some.inj ((hwithin x found hfound).symm.trans hx)
  | ite c a b s _ _ _ _ iha ihb =>
      rcases Option.or_eq_some_iff.mp hfound with ha | ⟨_, hb⟩
      · exact iha ha
      · exact ihb hb
  | _ => exact (Option.some.inj hfound).symm

namespace Sorts

section Forced

variable {sorts : Sorts}

theorem eq_of_mem_some (s : TermSort) : ∀ e ∈ some s, e = s :=
  fun _ he => (Option.some.inj he).symm

mutual

/-- What a walk over a term records is forced. -/
theorem visit_within (t : Term) (s : TermSort) (expected : Option TermSort) (known : Sorts)
    (hwithin : known.Within sorts) (h : t.HasSort sorts s) (he : ∀ e ∈ expected, e = s) :
    (visit t expected known).Within sorts := by
  cases h with
  | var x s hx =>
      cases expected with
      | none => exact hwithin
      | some e =>
          intro y r hy
          change (known.insertIfNew x e)[y]? = some r at hy
          rw [getElem?_insertIfNew_name] at hy
          -- Only one entry can be new. It is the expected sort, which is the right one, unless an
          -- older one stands in its place.
          by_cases hxy : y = x
          · subst hxy
            rw [if_pos rfl] at hy
            cases hknown : known[y]? with
            | none =>
                rw [hknown] at hy
                rw [hx, ← he e rfl]
                exact hy
            | some r' =>
                rw [hknown] at hy
                exact (hwithin y r' hknown).trans hy
          · rw [if_neg hxy] at hy
            exact hwithin y r hy
  | int n => exact hwithin
  | bool b => exact hwithin
  | arith op a b ha hb =>
      exact visit_within b .int _ _ (visit_within a .int _ _ hwithin ha (eq_of_mem_some .int)) hb
        (eq_of_mem_some .int)
  | eq a b r ha hb =>
      -- What the sides are expected to be comes from the shape of one of them, and that tells the
      -- truth because the table does.
      have hside : ∀ e ∈ (a.sort? known).or (b.sort? known), e = r := by
        intro e he
        rcases Option.or_eq_some_iff.mp he with hfound | ⟨_, hfound⟩
        · exact Term.sort?_of_hasSort known sorts hwithin a r e ha hfound
        · exact Term.sort?_of_hasSort known sorts hwithin b r e hb hfound
      exact visit_within b r _ _ (visit_within a r _ _ hwithin ha hside) hb hside
  | order op a b hop ha hb =>
      rw [visit_order op a b expected known hop]
      exact visit_within b .int _ _ (visit_within a .int _ _ hwithin ha (eq_of_mem_some .int)) hb
        (eq_of_mem_some .int)
  | conj ts h => exact visitAll_within ts known hwithin h
  | disj ts h => exact visitAll_within ts known hwithin h
  | not a h => exact visit_within a .bool _ _ hwithin h (eq_of_mem_some .bool)
  | implies a b ha hb =>
      exact visit_within b .bool _ _ (visit_within a .bool _ _ hwithin ha (eq_of_mem_some .bool)) hb
        (eq_of_mem_some .bool)
  | ite c a b s hc ha hb =>
      have hfirst : (visit c (some .bool) known).Within sorts :=
        visit_within c .bool _ _ hwithin hc (eq_of_mem_some .bool)
      -- The branches are asked with what the walk over the condition has added, so the table from
      -- after it has to be right already.
      have hbranch : ∀ e ∈ expected.or ((a.sort? (visit c (some .bool) known)).or
          (b.sort? (visit c (some .bool) known))), e = s := by
        intro e hsome
        rcases Option.or_eq_some_iff.mp hsome with hexp | ⟨_, hsome⟩
        · exact he e hexp
        · rcases Option.or_eq_some_iff.mp hsome with hfound | ⟨_, hfound⟩
          · exact Term.sort?_of_hasSort _ sorts hfirst a s e ha hfound
          · exact Term.sort?_of_hasSort _ sorts hfirst b s e hb hfound
      exact visit_within b s _ _ (visit_within a s _ _ hfirst ha hbranch) hb hbranch

/-- What a walk over formulas records is forced. -/
theorem visitAll_within (ts : List Term) (known : Sorts) (hwithin : known.Within sorts)
    (h : ∀ t ∈ ts, t.HasSort sorts .bool) : (visitAll ts known).Within sorts := by
  cases ts with
  | nil => exact hwithin
  | cons t ts =>
      rw [List.forall_mem_cons] at h
      exact visitAll_within ts _ (visit_within t .bool _ _ hwithin h.1 (eq_of_mem_some .bool)) h.2

end

end Forced

end Sorts

end ActorCheck
