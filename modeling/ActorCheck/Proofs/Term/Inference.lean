import ActorCheck.Proofs.Term.WellSorted
import Mathlib.Data.Finset.Card

/-!
# Sorts That Were Found

Whether the sorts found for a list of formulas are sorts the formulas can have. A walk that meets
an equality before either side is known learns nothing from it and leaves both sides open, and what
is open in the end becomes an integer. That is right exactly if no later walk would find a truth
value there: a table in which a further walk makes no variable a truth value is settled, and a
settled table, with integers for what is open, gives every formula its sort.

The proof follows one walk from a settled table and compares everything with the table the walk ends
with. On the way the table may still grow, but only by integers, so with integers for what is open
every term has the same sort in all the tables in between. This is what makes the two sides of an
equality agree when neither was known.

Two walks do not always settle the table. Sorts travel against the order of the formulas by one
equality a walk, and the first walk may have to find the sort they begin with. So one equality
before the formula that tells the sort of its side is settled and a chain of two is not.

## Main definitions

* `Sorts.Settled`: A later table makes no further variable a truth value.
* `Sorts.Fits`: A walk from a settled table gives the term a sort that fits.
* `Sorts.walks`: The table after a number of walks.
* `shortChain`, `longChain`: Formulas that two walks settle, and formulas that they do not.

## Theorems

* `Sorts.getD_sort?_of_settled`: In a settled table a term gets no new sort.
* `Sorts.hasSort_of_settled`: A settled table gives a term its sort.
* `Sorts.getElem?_complete`: What is open becomes an integer.
* `Sorts.complete_walks_iff`: A number of walks fits the formulas exactly if it settles the table.
* `Sorts.exists_walks_settled`: As many walks as there are variables always settle the table.
* `sortsOf_wellSorted_iff`: The sorts found fit the formulas exactly if two walks settle them.
* `sortsOf_forced`: The sorts found are forced, in whatever order the formulas come.
-/

namespace ActorCheck

namespace Sorts

/-- A later table makes no further variable a truth value. -/
def Settled (known last : Sorts) : Prop :=
  ∀ x : String, last[x]? = some .bool → known[x]? = some .bool

/-- What is settled stays settled. -/
theorem settled_of_within (known later last : Sorts) (hwithin : known.Within later)
    (hsettled : known.Settled last) : later.Settled last :=
  fun x hx => hwithin x _ (hsettled x hx)

/-- With integers for what is open, a settled table tells of a variable what the later one does. -/
theorem getD_of_settled (known last : Sorts) (hwithin : known.Within last)
    (hsettled : known.Settled last) (x : String) :
    last[x]?.getD .int = known[x]?.getD .int := by
  cases hknown : known[x]? with
  | some s => rw [hwithin x s hknown]
  | none =>
      -- What is open here is no truth value later, since the table is settled.
      match hlast : last[x]? with
      | none => rfl
      | some .int => rfl
      | some .bool => exact nomatch hknown.symm.trans (hsettled x hlast)

/-- A term that has no sort in a table has none in an earlier one. -/
theorem sort?_eq_none_of_within (known last : Sorts) (hwithin : known.Within last) (t : Term)
    (h : t.sort? last = none) : t.sort? known = none := by
  induction t using Term.sort?.induct with
  | case1 x =>
      cases hknown : known[x]? with
      | none => exact hknown
      | some s => exact nomatch (hwithin x s hknown).symm.trans h
  | case10 c a b iha ihb =>
      have hboth := Option.or_eq_none_iff.mp h
      exact Option.or_eq_none_iff.mpr ⟨iha hboth.1, ihb hboth.2⟩
  | _ => cases h

/-- A settled table already tells which terms are truth values. -/
theorem sort?_eq_bool_of_settled (known last : Sorts) (hwithin : known.Within last)
    (hsettled : known.Settled last) (t : Term) (h : t.sort? last = some .bool) :
    t.sort? known = some .bool := by
  induction t using Term.sort?.induct with
  | case1 x => exact hsettled x h
  | case10 c a b iha ihb =>
      rcases Option.or_eq_some_iff.mp h with ha | ⟨hnone, hb⟩
      · exact Option.or_eq_some_iff.mpr (.inl (iha ha))
      · have ha := sort?_eq_none_of_within known last hwithin a hnone
        exact Option.or_eq_some_iff.mpr (.inr ⟨ha, ihb hb⟩)
  | _ => first | rfl | cases h

section Settling

variable {sorts last : Sorts}

/-- With integers for what is open, a settled table tells of a term what the later one does. -/
theorem getD_sort?_of_settled (hlast : last.Within sorts) (known : Sorts)
    (hwithin : known.Within last) (hsettled : known.Settled last) (t : Term) (s : TermSort)
    (h : t.HasSort sorts s) :
    (t.sort? last).getD .int = (t.sort? known).getD .int := by
  match hfound : t.sort? last with
  | none => rw [sort?_eq_none_of_within known last hwithin t hfound]
  | some .bool => rw [sort?_eq_bool_of_settled known last hwithin hsettled t hfound]
  | some .int =>
      -- What was an integer in the end was one before or had no sort: the term is well sorted, and
      -- what a table tells of it is the sort it has.
      have hint : .int = s := Term.sort?_of_hasSort last sorts hlast t s .int h hfound
      match hold : t.sort? known with
      | none => rfl
      | some early =>
          have hearly : early = s :=
            Term.sort?_of_hasSort known sorts (within_trans _ _ _ hwithin hlast) t s early h hold
          exact hint.trans hearly.symm

/-- A sort that was expected, or the sort of the term, is the sort of the term. -/
theorem getD_or_of_expected (expected : Option TermSort) (s : TermSort)
    (he : ∀ e ∈ expected, e = s) : (expected.or (some s)).getD .int = s := by
  cases expected with
  | none => rfl
  | some e => exact he e rfl

/-- What holds between two visits: nothing has been taken back, so the table in between is settled
    and still within the last one. -/
theorem between_visits (a b : Term) (known : Sorts) (expected later : Option TermSort)
    (hsettled : known.Settled last)
    (hwithin : (visit b later (visit a expected known)).Within last) :
    (visit a expected known).Within last ∧ (visit a expected known).Settled last :=
  ⟨within_trans _ _ _ (within_visit b _ _) hwithin,
    settled_of_within _ _ _ (within_visit a _ _) hsettled⟩

/-- What a position tells, or else the last table, is what the position tells alone, if the position
    tells whatever the table before told. -/
theorem getD_or_sort? (hlast : last.Within sorts) (known : Sorts) (hwithin : known.Within last)
    (hsettled : known.Settled last) (t : Term) (s : TermSort) (h : t.HasSort sorts s)
    (side : Option TermSort) (hside : side = none → t.sort? known = none) :
    (side.or (t.sort? last)).getD .int = side.getD .int := by
  cases side with
  | none =>
      rw [Option.none_or, getD_sort?_of_settled hlast known hwithin hsettled t s h, hside rfl]
  | some e => rfl

/-- What a walk does for a term that can be given a sort: from a settled table it gives the term the
    sort that is expected of it, or else the one that the last table tells, with integers for what
    is open. -/
def Fits (sorts last found : Sorts) (t : Term) : Prop :=
  ∀ (s : TermSort) (expected : Option TermSort) (known : Sorts), t.HasSort sorts s →
    (∀ e ∈ expected, e = s) → known.Settled last → (visit t expected known).Within last →
    (∀ x ∈ t.vars, found[x]? = some (last[x]?.getD .int)) →
    t.HasSort found ((expected.or (t.sort? last)).getD .int)

variable {found : Sorts}

/-- A variable gets the sort that is expected of it. -/
theorem fits_var (hlast : last.Within sorts) (x : String) : Fits sorts last found (.var x) := by
  intro s expected known h he hsettled hwithin hfound
  have hx : sorts[x]? = some s := by cases h with | var _ _ hx => exact hx
  have hx' : found[x]? = some (last[x]?.getD .int) := hfound x ((Term.mem_vars_var x x).mpr rfl)
  refine .var x _ (hx'.trans (congrArg some ?_))
  cases expected with
  | none => rfl
  | some e =>
      -- The walk recorded what was expected, unless the variable had its sort already.
      have hrecord : last[x]? = some (known[x]?.getD e) := by
        refine hwithin x _ ?_
        change (known.insertIfNew x e)[x]? = _
        rw [getElem?_insertIfNew_name, if_pos rfl]
      have hsort : known[x]?.getD e = s := Option.some.inj ((hlast x _ hrecord).symm.trans hx)
      rw [hrecord, hsort, he e rfl]
      rfl

/-- Two parts that are visited one after the other, with one sort expected of both. If nothing is
    expected, then because the table tells nothing of either. -/
theorem fits_pair (hlast : last.Within sorts) (a b : Term) (hfita : Fits sorts last found a)
    (hfitb : Fits sorts last found b) (r : TermSort) (side : Option TermSort) (known : Sorts)
    (ha : a.HasSort sorts r) (hb : b.HasSort sorts r) (hside : ∀ e ∈ side, e = r)
    (hopen : side = none → a.sort? known = none ∧ b.sort? known = none)
    (hsettled : known.Settled last) (hwithin : (visit b side (visit a side known)).Within last)
    (hfound : ∀ x, x ∈ a.vars ∨ x ∈ b.vars → found[x]? = some (last[x]?.getD .int)) :
    a.HasSort found (side.getD .int) ∧ b.HasSort found (side.getD .int) := by
  obtain ⟨hmid, hthen⟩ := between_visits a b known side side hsettled hwithin
  have hknown : known.Within last := within_trans _ _ _ (within_visit a _ _) hmid
  have ha' := hfita r side known ha hside hsettled hmid fun x hx => hfound x (.inl hx)
  have hb' := hfitb r side _ hb hside hthen hwithin fun x hx => hfound x (.inr hx)
  -- Where nothing is expected both sides stay open, so both are integers in the end.
  rw [getD_or_sort? hlast known hknown hsettled a r ha side fun hnone => (hopen hnone).1] at ha'
  rw [getD_or_sort? hlast known hknown hsettled b r hb side fun hnone => (hopen hnone).2] at hb'
  exact ⟨ha', hb'⟩

/-- Two operands that the construct itself tells the sort of. -/
theorem fits_operands (hlast : last.Within sorts) (a b : Term) (hfita : Fits sorts last found a)
    (hfitb : Fits sorts last found b) (r : TermSort) (known : Sorts) (ha : a.HasSort sorts r)
    (hb : b.HasSort sorts r) (hsettled : known.Settled last)
    (hwithin : (visit b (some r) (visit a (some r) known)).Within last)
    (hfound : ∀ x, x ∈ a.vars ∨ x ∈ b.vars → found[x]? = some (last[x]?.getD .int)) :
    a.HasSort found r ∧ b.HasSort found r :=
  fits_pair hlast a b hfita hfitb r (some r) known ha hb (eq_of_mem_some r)
    (fun hnone => nomatch hnone) hsettled hwithin hfound

/-- The sides of an equality get one sort, whichever that is. -/
theorem fits_sides (hlast : last.Within sorts) (a b : Term) (hfita : Fits sorts last found a)
    (hfitb : Fits sorts last found b) (r : TermSort) (expected : Option TermSort) (known : Sorts)
    (ha : a.HasSort sorts r) (hb : b.HasSort sorts r) (hsettled : known.Settled last)
    (hwithin : (visit (.cmp .eq a b) expected known).Within last)
    (hfound : ∀ x, x ∈ a.vars ∨ x ∈ b.vars → found[x]? = some (last[x]?.getD .int)) :
    ∃ common, a.HasSort found common ∧ b.HasSort found common := by
  have hknown : known.Within last :=
    within_trans _ _ _ (within_visit (.cmp .eq a b) _ _) hwithin
  -- One sort is taken for both sides, as the table tells it before either is visited.
  have hside : ∀ e ∈ (a.sort? known).or (b.sort? known), e = r := by
    intro e he
    rcases Option.or_eq_some_iff.mp he with htold | ⟨_, htold⟩
    · exact Term.sort?_of_hasSort known sorts (within_trans _ _ _ hknown hlast) a r e ha htold
    · exact Term.sort?_of_hasSort known sorts (within_trans _ _ _ hknown hlast) b r e hb htold
  exact ⟨_, fits_pair hlast a b hfita hfitb r _ known ha hb hside Option.or_eq_none_iff.mp
    hsettled hwithin hfound⟩

/-- A conditional gets the sort that its branches are told. -/
theorem fits_ite (hlast : last.Within sorts) (c a b : Term) (hfitc : Fits sorts last found c)
    (hfita : Fits sorts last found a) (hfitb : Fits sorts last found b) :
    Fits sorts last found (.ite c a b) := by
  intro s expected known h he hsettled hwithin hfound
  obtain ⟨hc, ha, hb⟩ : c.HasSort sorts .bool ∧ a.HasSort sorts s ∧ b.HasSort sorts s := by
    cases h with
    | ite _ _ _ _ hc ha hb => exact ⟨hc, ha, hb⟩
  rw [visit] at hwithin
  -- The branches are told by the table after the condition.
  generalize hfirst : visit c (some .bool) known = first at hwithin
  have hthen : first.Settled last :=
    settled_of_within _ _ _ (hfirst ▸ within_visit c _ _) hsettled
  have hcond : first.Within last :=
    within_trans _ _ _ (within_visit a _ _) (within_trans _ _ _ (within_visit b _ _) hwithin)
  have hbranch : ∀ e ∈ expected.or ((Term.ite c a b).sort? first), e = s := by
    intro e hor
    rcases Option.or_eq_some_iff.mp hor with hexp | ⟨_, hsort⟩
    · exact he e hexp
    · exact Term.sort?_of_hasSort first sorts (within_trans _ _ _ hcond hlast) (.ite c a b) s e h
        hsort
  have hc' := hfitc .bool (some .bool) known hc (eq_of_mem_some .bool) hsettled (hfirst ▸ hcond)
    fun x hx => hfound x ((Term.mem_vars_ite x c a b).mpr (.inl hx))
  obtain ⟨ha', hb'⟩ := fits_pair hlast a b hfita hfitb s _ first ha hb hbranch
    (fun hor => Option.or_eq_none_iff.mp (Option.or_eq_none_iff.mp hor).2) hthen hwithin
    fun x hx => hfound x ((Term.mem_vars_ite x c a b).mpr (.inr hx))
  -- The conditional is told the sort of its branches, by what is expected or by the table.
  have hwhole : (expected.or ((Term.ite c a b).sort? last)).getD .int
      = (expected.or ((Term.ite c a b).sort? first)).getD .int := by
    cases expected with
    | none => exact getD_sort?_of_settled hlast first hcond hthen (.ite c a b) s h
    | some e => rfl
  exact hwhole ▸ .ite c a b _ hc' ha' hb'

mutual

/-- A walk from a settled table gives a term the sort that is expected of it, or else the one that
    the last table tells with integers for what is open. -/
theorem hasSort_of_settled (hlast : last.Within sorts) (t : Term) : Fits sorts last found t := by
  intro s expected known h he hsettled hwithin hfound
  -- By recursion on the term. Every construct but a variable and a conditional tells its own sort,
  -- which is then the expected one, and what is left is that its parts get theirs.
  cases h with
  | var x s hx => exact fits_var hlast x s expected known (.var x s hx) he hsettled hwithin hfound
  | int n => exact (getD_or_of_expected expected .int he).symm ▸ .int n
  | bool b => exact (getD_or_of_expected expected .bool he).symm ▸ .bool b
  | arith op a b ha hb =>
      obtain ⟨ha', hb'⟩ := fits_operands hlast a b (hasSort_of_settled hlast a)
        (hasSort_of_settled hlast b) .int known ha hb hsettled hwithin
        fun x hx => hfound x ((Term.mem_vars_arith x op a b).mpr hx)
      exact (getD_or_of_expected expected .int he).symm ▸ .arith op a b ha' hb'
  | eq a b r ha hb =>
      obtain ⟨_, ha', hb'⟩ := fits_sides hlast a b (hasSort_of_settled hlast a)
        (hasSort_of_settled hlast b) r expected known ha hb hsettled hwithin
        fun x hx => hfound x ((Term.mem_vars_cmp x .eq a b).mpr hx)
      exact (getD_or_of_expected expected .bool he).symm ▸ .eq a b _ ha' hb'
  | order op a b hop ha hb =>
      rw [visit_order op a b expected known hop] at hwithin
      obtain ⟨ha', hb'⟩ := fits_operands hlast a b (hasSort_of_settled hlast a)
        (hasSort_of_settled hlast b) .int known ha hb hsettled hwithin
        fun x hx => hfound x ((Term.mem_vars_cmp x op a b).mpr hx)
      exact (getD_or_of_expected expected .bool he).symm ▸ .order op a b hop ha' hb'
  | conj ts h =>
      have hall := hasSort_of_settledAll hlast ts known h hsettled hwithin hfound
      exact (getD_or_of_expected expected .bool he).symm ▸ .conj ts hall
  | disj ts h =>
      have hall := hasSort_of_settledAll hlast ts known h hsettled hwithin hfound
      exact (getD_or_of_expected expected .bool he).symm ▸ .disj ts hall
  | not a h =>
      have ha := hasSort_of_settled hlast a .bool (some .bool) known h (eq_of_mem_some .bool)
        hsettled hwithin hfound
      exact (getD_or_of_expected expected .bool he).symm ▸ .not a ha
  | implies a b ha hb =>
      obtain ⟨ha', hb'⟩ := fits_operands hlast a b (hasSort_of_settled hlast a)
        (hasSort_of_settled hlast b) .bool known ha hb hsettled hwithin
        fun x hx => hfound x ((Term.mem_vars_implies x a b).mpr hx)
      exact (getD_or_of_expected expected .bool he).symm ▸ .implies a b ha' hb'
  | ite c a b s hc ha hb =>
      exact fits_ite hlast c a b (hasSort_of_settled hlast c) (hasSort_of_settled hlast a)
        (hasSort_of_settled hlast b) s expected known (.ite c a b s hc ha hb) he hsettled hwithin
        hfound

/-- A settled table, with integers for what is open, makes the formulas truth values. -/
theorem hasSort_of_settledAll (hlast : last.Within sorts) (ts : List Term) (known : Sorts)
    (h : ∀ t ∈ ts, t.HasSort sorts .bool) (hsettled : known.Settled last)
    (hwithin : (visitAll ts known).Within last)
    (hfound : ∀ x ∈ Term.varsAll ts, found[x]? = some (last[x]?.getD .int)) :
    ∀ t ∈ ts, t.HasSort found .bool := by
  cases ts with
  | nil => exact fun t ht => nomatch ht
  | cons t ts =>
      rw [List.forall_mem_cons] at h ⊢
      constructor
      · refine hasSort_of_settled hlast t .bool (some .bool) known h.1
          (eq_of_mem_some .bool) hsettled
          (within_trans _ _ _ (within_visitAll ts _) hwithin) fun x hx => hfound x ?_
        exact Std.ExtTreeSet.mem_union_iff.mpr (.inl hx)
      · refine hasSort_of_settledAll hlast ts _ h.2
          (settled_of_within _ _ _ (within_visit t (some .bool) known) hsettled) hwithin
          fun x hx => hfound x ?_
        exact Std.ExtTreeSet.mem_union_iff.mpr (.inr hx)

end

end Settling

/-! ### What is open in the end -/

theorem getElem?_foldl_insertIfNew (xs : List String) (known : Sorts) (y : String) :
    (xs.foldl (fun known x => known.insertIfNew x .int) known)[y]?
      = if y ∈ xs then some (known[y]?.getD .int) else known[y]? := by
  induction xs generalizing known with
  | nil => rfl
  | cons x xs ih =>
      rw [List.foldl_cons, ih, getElem?_insertIfNew_name]
      -- The first variable has its sort then, and later ones do not change it.
      by_cases hxy : y = x
      · subst hxy
        simp
      · simp [hxy]

/-- A variable of the terms that has no sort becomes an integer, and nothing else changes. -/
theorem getElem?_complete (terms : List Term) (known : Sorts) (x : String) :
    (complete terms known)[x]?
      = if x ∈ Term.varsAll terms then some (known[x]?.getD .int) else known[x]? := by
  rw [complete, Std.ExtTreeSet.foldl_eq_foldl_toList, getElem?_foldl_insertIfNew]
  simp only [Std.ExtTreeSet.mem_toList]

/-- A variable that is a truth value in the end was found to be one. -/
theorem getElem?_eq_bool_of_complete (terms : List Term) (known : Sorts) (x : String)
    (h : (complete terms known)[x]? = some .bool) : known[x]? = some .bool := by
  rw [getElem?_complete] at h
  split at h
  · match hfound : known[x]? with
    | some s => rwa [hfound] at h
    | none => exact nomatch hfound ▸ h
  · exact h

/-- The table after a number of walks over the formulas. -/
def walks (blocks : List Term) : Nat → Sorts
  | 0 => ∅
  | n + 1 => visitAll blocks (walks blocks n)

/-- However many walks there are, what they find is forced. -/
theorem walks_within (blocks : List Term) (sorts : Sorts)
    (h : ∀ b ∈ blocks, b.HasSort sorts .bool) (n : Nat) : (walks blocks n).Within sorts := by
  induction n with
  | zero => exact fun x s hx => nomatch hx
  | succ n ih => exact visitAll_within blocks _ ih h

/-- Walks only find sorts of variables of the formulas. -/
theorem getElem?_walks_of_not_mem (blocks : List Term) (x : String)
    (hx : x ∉ Term.varsAll blocks) (n : Nat) : (walks blocks n)[x]? = none := by
  induction n with
  | zero => rfl
  | succ n ih => rw [walks, getElem?_visitAll_of_not_mem blocks _ x hx, ih]

/-- The table of a number of walks, with integers for what is open, fits the formulas exactly if one
    more walk makes no further variable a truth value. -/
theorem complete_walks_iff (blocks : List Term) (sorts : Sorts)
    (h : ∀ b ∈ blocks, b.HasSort sorts .bool) (n : Nat) :
    (∀ b ∈ blocks, b.HasSort (complete blocks (walks blocks n)) .bool)
      ↔ (walks blocks n).Settled (walks blocks (n + 1)) := by
  constructor
  · intro hfits x hx
    have hmem : x ∈ Term.varsAll blocks := by
      by_contra hmem
      rw [getElem?_walks_of_not_mem blocks x hmem] at hx
      exact nomatch hx
    -- The sorts found are an assignment that works, so the next walk cannot contradict them.
    have hforced := walks_within blocks _ hfits (n + 1) x .bool hx
    rw [getElem?_complete, if_pos hmem] at hforced
    match hfound : (walks blocks n)[x]? with
    | some s => rwa [hfound] at hforced
    | none => exact nomatch hfound ▸ hforced
  · intro hsettled
    refine hasSort_of_settledAll (walks_within blocks sorts h (n + 1)) blocks (walks blocks n) h
      hsettled (within_refl _) fun x hx => ?_
    rw [getElem?_complete, if_pos hx]
    exact congrArg some (getD_of_settled _ _ (within_visitAll blocks _) hsettled x).symm

/-- As many walks as there are variables always settle the table: every walk before that makes a
    further one a truth value. -/
theorem exists_walks_settled (blocks : List Term) :
    ∃ n ≤ (Term.varsAll blocks).toList.length,
      (walks blocks n).Settled (walks blocks (n + 1)) := by
  by_contra hnone
  simp only [not_exists, not_and, Settled, not_forall] at hnone
  let found (n : Nat) : Finset String :=
    (Term.varsAll blocks).toList.toFinset.filter fun x => (walks blocks n)[x]? = some .bool
  -- Were no walk settled, each would find another truth value among the variables, and there are
  -- only so many.
  have hgrows : ∀ n ≤ (Term.varsAll blocks).toList.length,
      (found n).card < (found (n + 1)).card := by
    intro n hn
    obtain ⟨x, hx, hopen⟩ := hnone n hn
    have hmem : x ∈ Term.varsAll blocks := by
      by_contra hmem
      exact nomatch (getElem?_walks_of_not_mem blocks x hmem (n + 1)).symm.trans hx
    refine Finset.card_lt_card (Finset.ssubset_iff_of_subset ?_ |>.mpr ⟨x, ?_, ?_⟩)
    · exact Finset.monotone_filter_right _ fun y _ hy => within_visitAll blocks _ y _ hy
    · simp [found, hx, hmem]
    · simp [found, hopen]
  have hcount : ∀ n ≤ (Term.varsAll blocks).toList.length + 1, n ≤ (found n).card := by
    intro n
    induction n with
    | zero => exact fun _ => Nat.zero_le _
    | succ n ih =>
        intro hn
        have := hgrows n (by omega)
        have := ih (by omega)
        omega
  have hall := hcount _ (Nat.le_refl _)
  have hfew : (found ((Term.varsAll blocks).toList.length + 1)).card
      ≤ (Term.varsAll blocks).toList.length :=
    (Finset.card_filter_le _ _).trans (List.toFinset_card_le _)
  omega

end Sorts

/-- If formulas can be given sorts at all, the sorts found are sorts of exactly their variables, a
    variable found to be a truth value is one under every assignment that works, and the formulas
    have the sorts found exactly if a third walk would make no further variable a truth value. -/
theorem sortsOf_wellSorted_iff (blocks : List Term) (sorts : Sorts)
    (h : ∀ b ∈ blocks, b.HasSort sorts .bool) :
    (∀ x, x ∈ sortsOf blocks ↔ x ∈ Term.varsAll blocks)
      ∧ (∀ x : String, (sortsOf blocks)[x]? = some .bool → sorts[x]? = some .bool)
      ∧ ((∀ b ∈ blocks, b.HasSort (sortsOf blocks) .bool)
        ↔ (Sorts.walks blocks 2).Settled (Sorts.walks blocks 3)) := by
  have hcomplete (x : String) := Sorts.getElem?_complete blocks (Sorts.walks blocks 2) x
  refine ⟨fun x => ?_, fun x hx => ?_, Sorts.complete_walks_iff blocks sorts h 2⟩
  · change x ∈ Sorts.complete blocks (Sorts.walks blocks 2) ↔ _
    rw [Std.ExtTreeMap.mem_iff_isSome_getElem?, hcomplete]
    by_cases hmem : x ∈ Term.varsAll blocks
    · simp [hmem]
    · simp [hmem, Sorts.getElem?_walks_of_not_mem blocks x hmem 2]
  · refine Sorts.walks_within blocks sorts h 2 x .bool ?_
    exact Sorts.getElem?_eq_bool_of_complete blocks (Sorts.walks blocks 2) x hx

/-- Two truth values that are equal, and then a use of one of them. -/
def shortChain : List Term :=
  [.cmp .eq (.var "p") (.var "q"), .conj [.var "q", .cmp .lt (.var "n") (.int 3)]]

/-- Three truth values that are equal in a row, and then a use of the last of them. -/
def longChain : List Term :=
  [.cmp .eq (.var "p") (.var "q"), .cmp .eq (.var "q") (.var "r"), .var "r"]

/-- Sorts under which the formulas of both chains are truth values. -/
def chainSorts : Sorts :=
  (((Std.ExtTreeMap.empty.insert "p" .bool).insert "q" .bool).insert "r" .bool).insert "n" .int

theorem hasSort_shortChain : ∀ b ∈ shortChain, b.HasSort chainSorts .bool := by
  have hp : (Term.var "p").HasSort chainSorts .bool := .var "p" .bool (by decide)
  have hq : (Term.var "q").HasSort chainSorts .bool := .var "q" .bool (by decide)
  have hn : (Term.var "n").HasSort chainSorts .int := .var "n" .int (by decide)
  have hless : (Term.cmp .lt (.var "n") (.int 3)).HasSort chainSorts .bool :=
    .order .lt _ _ (by decide) hn (.int 3)
  simp only [shortChain, List.forall_mem_cons]
  exact ⟨.eq _ _ .bool hp hq, .conj _ (by simp [hq, hless]), fun b hb => nomatch hb⟩

theorem hasSort_longChain : ∀ b ∈ longChain, b.HasSort chainSorts .bool := by
  have hp : (Term.var "p").HasSort chainSorts .bool := .var "p" .bool (by decide)
  have hq : (Term.var "q").HasSort chainSorts .bool := .var "q" .bool (by decide)
  have hr : (Term.var "r").HasSort chainSorts .bool := .var "r" .bool (by decide)
  simp only [longChain, List.forall_mem_cons]
  exact ⟨.eq _ _ .bool hp hq, .eq _ _ .bool hq hr, hr, fun b hb => nomatch hb⟩

/-- The short chain is settled by two walks, and so it has the sorts found. -/
theorem sortsOf_wellSorted_iff_shortChain : (∀ b ∈ shortChain, b.HasSort chainSorts .bool)
    ∧ ∀ b ∈ shortChain, b.HasSort (sortsOf shortChain) .bool := by
  refine ⟨hasSort_shortChain, ?_⟩
  have hsettled : Sorts.walks shortChain 3 = Sorts.walks shortChain 2 := by decide
  refine (sortsOf_wellSorted_iff shortChain chainSorts hasSort_shortChain).2.2.mpr ?_
  rw [hsettled]
  exact fun x hx => hx

/-- The first variable of the long chain is still open after two walks, and becomes an integer that
    is equal to a truth value. -/
theorem longChain_ill_sorted : (∃ sorts, ∀ b ∈ longChain, b.HasSort sorts .bool)
    ∧ ¬ ∀ b ∈ longChain, b.HasSort (sortsOf longChain) .bool := by
  refine ⟨⟨chainSorts, hasSort_longChain⟩, fun hall => ?_⟩
  have hequal := hall (.cmp .eq (.var "p") (.var "q")) (.head _)
  have hp : (sortsOf longChain)["p"]? = some .int := by decide
  have hq : (sortsOf longChain)["q"]? = some .bool := by decide
  cases hequal with
  | eq _ _ s hpart hpart' =>
      cases hpart with
      | var _ _ hs =>
          cases hpart' with
          | var _ _ hs' => exact nomatch (hp.symm.trans hs).trans (hq.symm.trans hs').symm
  | order _ _ _ hop => exact hop rfl

/-- The sorts that are found are forced, in whatever order the formulas come. If the formulas can be
    given sorts, a variable found to be a truth value is one under every assignment that works, and
    one found to be an integer by the walks is an integer under it. What the walks leave open
    becomes an integer afterwards, and that need not be forced. -/
theorem sortsOf_forced (blocks order : List Term) (horder : order.Perm blocks) (sorts : Sorts)
    (h : ∀ b ∈ blocks, b.HasSort sorts .bool) :
    sortsOf order = Sorts.complete order (Sorts.walks order 2)
      ∧ (∀ x : String, (Sorts.walks order 2)[x]? = some .int → sorts[x]? = some .int)
      ∧ ∀ x : String, (sortsOf order)[x]? = some .bool → sorts[x]? = some .bool := by
  have hforced : (Sorts.walks order 2).Within sorts :=
    Sorts.walks_within order sorts (fun b hb => h b (horder.mem_iff.mp hb)) 2
  refine ⟨rfl, fun x hx => hforced x .int hx, fun x hx => hforced x .bool ?_⟩
  exact Sorts.getElem?_eq_bool_of_complete order (Sorts.walks order 2) x hx

/-- The formulas of the short chain the other way round. The use comes before the equality, and the
    sorts found are those that the formulas have. -/
theorem sortsOf_forced_shortChain :
    shortChain.reverse.Perm shortChain ∧ (∀ b ∈ shortChain, b.HasSort chainSorts .bool)
      ∧ (Sorts.walks shortChain.reverse 2)["n"]? = some .int
      ∧ (sortsOf shortChain.reverse)["p"]? = some .bool
      ∧ chainSorts["n"]? = some .int ∧ chainSorts["p"]? = some .bool := by
  have hn : (Sorts.walks shortChain.reverse 2)["n"]? = some .int := by decide
  have hp : (sortsOf shortChain.reverse)["p"]? = some .bool := by decide
  have hforced := sortsOf_forced shortChain shortChain.reverse (List.reverse_perm _) chainSorts
    hasSort_shortChain
  exact ⟨List.reverse_perm _, hasSort_shortChain, hn, hp, hforced.2.1 "n" hn, hforced.2.2 "p" hp⟩

end ActorCheck
