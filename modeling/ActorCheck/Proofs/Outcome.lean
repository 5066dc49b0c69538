import Mathlib.Data.List.Forall2

/-!
# Outcomes of Computations

Computations of this library come in two forms. A look-up yields a value or an
error. A step does so too, and leaves a state behind in either case: numbers
are drawn from a supply, a program grows, a scheduler learns, and none of it is
taken back after an error.

What is proved about a computation that succeeded begins in the same way each
time: it is taken apart into the parts it consists of, each of which succeeded.
`Gives` states the success of a step. It names the states before and after,
because later parts of a step see what earlier ones left behind.

What is proved about the state that is left behind has to cover failures as
well. `ends_bind` is the rule for that: the first part has to establish it, and
the second part only has to if the first one succeeded.

## Main definitions

* `Gives`: A step yields a value and leaves a state behind.

## Theorems

* `except_bind_ok`: A sequence of look-ups succeeds if both parts do.
* `except_single_ok`, `except_pair_ok`: What is made of parts succeeds if they do.
* `except_mapM_ok`, `except_mapM_error`: A map of look-ups succeeds member by member, and fails at
  a member.
* `except_mapM_mapM_ok`, `except_mapM_map_ok`: Two maps in a row are one map of both steps.
* `mem_of_forall₂_left`, `mem_of_forall₂_right`: Partners in related lists.
* `forall₂_comp`: Two relations in a row, member by member.
* `forall₂_exists_map`: Related to what is made of some choice, member by member.
* `forall₂_set`: Replacing one member of a list.
* `gives_bind`, `gives_lookUp_bind`: A sequence of steps succeeds if both parts do.
* `ends_bind`, `ends_lookUp_bind`: What a sequence of steps leaves behind.
* `ends_mapM`: What a map of steps leaves behind.
* `gives_mapM_mem`: Every result of a map of steps comes from some member.
* `gives_mapM_of`, `gives_mapM_related`: A map of steps succeeds if every member does, and member by
  member.
* `gives_mapM_split`: That member starts where the members before it have stopped, and so on.
-/

namespace ActorCheck

section Look

variable {ε α β : Type}

theorem except_bind_ok (x : Except ε α) (f : α → Except ε β) (b : β) :
    (x >>= f) = .ok b ↔ ∃ a, x = .ok a ∧ f a = .ok b := by
  cases x with
  | error e =>
      constructor
      · intro h
        cases h
      · rintro ⟨a, ha, _⟩
        cases ha
  | ok a =>
      constructor
      · intro h
        exact ⟨a, rfl, h⟩
      · rintro ⟨a', ha, hf⟩
        cases ha
        exact hf

theorem except_pure_ok (a b : α) : (pure a : Except ε α) = .ok b ↔ a = b := by
  constructor
  · intro h
    cases h
    rfl
  · intro h
    rw [h]
    rfl

/-- A construct with one part. -/
theorem except_single_ok {γ : Type} (x : Except ε α) (k : α → γ) (c : γ) :
    (do return k (← x)) = Except.ok c ↔ ∃ a, x = .ok a ∧ k a = c := by
  rw [except_bind_ok]
  exact exists_congr fun a => and_congr_right fun _ => except_pure_ok _ _

/-- The two parts of a construct come one after the other. -/
theorem except_pair_ok {γ : Type} (x : Except ε α) (y : Except ε β) (k : α → β → γ) (c : γ) :
    (do return k (← x) (← y)) = Except.ok c ↔ ∃ a b, x = .ok a ∧ y = .ok b ∧ k a b = c := by
  rw [except_bind_ok]
  constructor
  · rintro ⟨a, ha, h⟩
    rcases (except_single_ok y (k a) c).mp h with ⟨b, hb, hc⟩
    exact ⟨a, b, ha, hb, hc⟩
  · rintro ⟨a, b, ha, hb, hc⟩
    exact ⟨a, ha, (except_single_ok y (k a) c).mpr ⟨b, hb, hc⟩⟩

/-- An error that is put differently is still one. -/
theorem except_mapError_ok {ε' : Type} (f : ε → ε') (x : Except ε α) (a : α) :
    x.mapError f = .ok a ↔ x = .ok a := by
  cases x with
  | error e => exact iff_of_false nofun nofun
  | ok b =>
      constructor
      · intro h
        cases h
        rfl
      · intro h
        cases h
        rfl

/-- The value of a look-up that succeeded. -/
theorem mem_toOption (x : Except ε α) (a : α) : a ∈ x.toOption ↔ x = .ok a := by
  cases x with
  | error e => exact iff_of_false nofun nofun
  | ok b =>
      constructor
      · intro h
        cases h
        rfl
      · intro h
        cases h
        rfl

/-- A map of look-ups succeeds exactly if every member does. -/
theorem except_mapM_ok (f : α → Except ε β) (xs : List α) (ys : List β) :
    xs.mapM f = .ok ys ↔ List.Forall₂ (fun x y => f x = .ok y) xs ys := by
  induction xs generalizing ys with
  | nil =>
      rw [List.mapM_nil, except_pure_ok, List.forall₂_nil_left_iff]
      exact eq_comm
  | cons x xs ih =>
      rw [List.mapM_cons, except_bind_ok, List.forall₂_cons_left_iff]
      constructor
      · rintro ⟨y, hy, h⟩
        rcases (except_bind_ok _ _ _).mp h with ⟨rest, hrest, hys⟩
        exact ⟨y, rest, hy, (ih rest).mp hrest, ((except_pure_ok _ _).mp hys).symm⟩
      · rintro ⟨y, rest, hy, hrest, rfl⟩
        refine ⟨y, hy, (except_bind_ok _ _ _).mpr ⟨rest, (ih rest).mpr hrest, rfl⟩⟩

/-- Two maps in a row succeed exactly if one map does that makes both steps for each member. -/
theorem except_mapM_mapM_ok {γ : Type} (f : α → Except ε β) (g : β → Except ε γ) (xs : List α)
    (zs : List γ) :
    (xs.mapM f >>= fun ys => ys.mapM g) = .ok zs ↔ xs.mapM (fun x => f x >>= g) = .ok zs := by
  rw [except_bind_ok, except_mapM_ok]
  constructor
  -- The results in between are known here, so the induction is on their list. In the other
  -- direction they have to be found, and are built up along the one map.
  · rintro ⟨ys, hys, hzs⟩
    have hf := (except_mapM_ok f xs ys).mp hys
    have hg := (except_mapM_ok g ys zs).mp hzs
    clear hys hzs
    induction hf generalizing zs with
    | nil =>
        cases hg
        exact .nil
    | cons hfirst _ ih =>
        cases hg with
        | cons hsecond hrest =>
            exact .cons ((except_bind_ok _ _ _).mpr ⟨_, hfirst, hsecond⟩) (ih _ hrest)
  · intro h
    induction h with
    | nil => exact ⟨[], rfl, rfl⟩
    | cons hboth _ ih =>
        rcases (except_bind_ok _ _ _).mp hboth with ⟨y, hfirst, hsecond⟩
        rcases ih with ⟨ys, hys, hzs⟩
        refine ⟨y :: ys, ?_, ?_⟩
        · exact (except_mapM_ok _ _ _).mpr (.cons hfirst ((except_mapM_ok _ _ _).mp hys))
        · exact (except_mapM_ok _ _ _).mpr (.cons hsecond ((except_mapM_ok _ _ _).mp hzs))

/-- A map whose results are changed afterwards. -/
theorem except_mapM_map_ok {γ : Type} (f : α → Except ε β) (g : β → γ) (xs : List α)
    (zs : List γ) :
    xs.mapM (fun x => f x >>= fun y => pure (g y)) = .ok zs
      ↔ ∃ ys, xs.mapM f = .ok ys ∧ zs = ys.map g := by
  rw [← except_mapM_mapM_ok, except_bind_ok]
  refine exists_congr fun ys => and_congr_right fun _ => ?_
  rw [List.mapM_pure, except_pure_ok]
  exact eq_comm

/-- Look-ups that agree on all members have the same outcome. -/
theorem except_mapM_congr (f g : α → Except ε β) (xs : List α) (h : ∀ x ∈ xs, f x = g x) :
    xs.mapM f = xs.mapM g := by
  induction xs with
  | nil => rfl
  | cons x xs ih =>
      rw [List.forall_mem_cons] at h
      rw [List.mapM_cons, List.mapM_cons, h.1, ih h.2]

/-- A map of look-ups fails at some member. -/
theorem except_mapM_error (f : α → Except ε β) (xs : List α) (e : ε) (h : xs.mapM f = .error e) :
    ∃ x ∈ xs, f x = .error e := by
  induction xs with
  | nil => cases h
  | cons x xs ih =>
      rw [List.mapM_cons] at h
      -- The map stops at the first member that fails, so either this is the one or the rest fails.
      cases hx : f x with
      | error e' =>
          rw [hx] at h
          cases h
          exact ⟨x, List.mem_cons_self, hx⟩
      | ok y =>
          rw [hx] at h
          cases hrest : xs.mapM f with
          | error e' =>
              rw [hrest] at h
              cases h
              rcases ih hrest with ⟨z, hz, hfails⟩
              exact ⟨z, List.mem_cons_of_mem _ hz, hfails⟩
          | ok ys =>
              rw [hrest] at h
              cases h

/-- The partner of a member of the left list. -/
theorem mem_of_forall₂_left (R : α → β → Prop) (xs : List α) (ys : List β)
    (h : List.Forall₂ R xs ys) (x : α) (hx : x ∈ xs) : ∃ y ∈ ys, R x y := by
  induction h with
  | nil => cases hx
  | cons hr _ ih =>
      rcases List.mem_cons.mp hx with rfl | hx
      · exact ⟨_, List.mem_cons_self, hr⟩
      · rcases ih hx with ⟨y, hy, hxy⟩
        exact ⟨y, List.mem_cons_of_mem _ hy, hxy⟩

/-- The partner of a member of the right list. -/
theorem mem_of_forall₂_right (R : α → β → Prop) (xs : List α) (ys : List β)
    (h : List.Forall₂ R xs ys) (y : β) (hy : y ∈ ys) : ∃ x ∈ xs, R x y :=
  mem_of_forall₂_left (fun y x => R x y) ys xs h.flip y hy

/-- The partner of the member at an index of the right list. -/
theorem getElem?_of_forall₂_right (R : α → β → Prop) (xs : List α) (ys : List β)
    (h : List.Forall₂ R xs ys) (i : Nat) (y : β) (hy : ys[i]? = some y) :
    ∃ x, xs[i]? = some x ∧ R x y := by
  -- On the relation of the lists, which has one constructor for both; the index counts down with
  -- it.
  induction h generalizing i with
  | nil => cases hy
  | cons hr _ ih =>
      cases i with
      | zero =>
          cases hy
          exact ⟨_, rfl, hr⟩
      | succ i => exact ih i hy

/-- The partner of the member at an index of the left list. -/
theorem getElem?_of_forall₂_left (R : α → β → Prop) (xs : List α) (ys : List β)
    (h : List.Forall₂ R xs ys) (i : Nat) (x : α) (hx : xs[i]? = some x) :
    ∃ y, ys[i]? = some y ∧ R x y :=
  getElem?_of_forall₂_right (fun y x => R x y) ys xs h.flip i x hx

/-- Members of related lists at the same index are related. -/
theorem related_of_forall₂ (R : α → β → Prop) (xs : List α) (ys : List β)
    (h : List.Forall₂ R xs ys) (i : Nat) (x : α) (y : β) (hx : xs[i]? = some x)
    (hy : ys[i]? = some y) : R x y := by
  rcases getElem?_of_forall₂_left R xs ys h i x hx with ⟨z, hz, hr⟩
  cases hz.symm.trans hy
  exact hr

/-- Lists of one length are related if their members at every index are. -/
theorem forall₂_of_getElem? (R : α → β → Prop) (xs : List α) (ys : List β)
    (hlength : xs.length = ys.length)
    (h : ∀ (i : Nat) (x : α) (y : β), xs[i]? = some x → ys[i]? = some y → R x y) :
    List.Forall₂ R xs ys :=
  List.forall₂_iff_get.mpr ⟨hlength, fun i hx hy => h i (xs.get ⟨i, hx⟩) (ys.get ⟨i, hy⟩)
    (List.getElem?_eq_getElem hx) (List.getElem?_eq_getElem hy)⟩

/-- Related lists are related in a second way if related members of theirs
    are. -/
theorem forall₂_of_mem (R S : α → β → Prop) (xs : List α) (ys : List β)
    (h : List.Forall₂ R xs ys) (himp : ∀ x ∈ xs, ∀ y, R x y → S x y) : List.Forall₂ S xs ys := by
  induction h with
  | nil => exact .nil
  | cons hr _ ih =>
      refine .cons (himp _ List.mem_cons_self _ hr) (ih fun x hx => ?_)
      exact himp x (List.mem_cons_of_mem _ hx)

/-- Two relations in a row, member by member. -/
theorem forall₂_trans (R : α → α → Prop) (htrans : ∀ x y z, R x y → R y z → R x z)
    (xs ys zs : List α) (h : List.Forall₂ R xs ys) (h' : List.Forall₂ R ys zs) :
    List.Forall₂ R xs zs := by
  induction h generalizing zs with
  | nil => exact h'
  | cons hr _ ih =>
      cases h' with
      | cons hr' hrest => exact .cons (htrans _ _ _ hr hr') (ih _ hrest)

/-- The same for two different relations. -/
theorem forall₂_comp {γ : Type} (R : α → β → Prop) (S : β → γ → Prop) (xs : List α) (ys : List β)
    (zs : List γ) (h : List.Forall₂ R xs ys) (h' : List.Forall₂ S ys zs) :
    List.Forall₂ (fun x z => ∃ y, R x y ∧ S y z) xs zs := by
  induction h generalizing zs with
  | nil =>
      cases h'
      exact .nil
  | cons hr _ ih =>
      cases h' with
      | cons hs hrest => exact .cons ⟨_, hr, hs⟩ (ih _ hrest)

/-- Choices for all members of a list, of what is made of each of them. -/
theorem forall₂_exists_map {γ : Type} (R : α → β → Prop) (make : β → γ) (xs : List α)
    (zs : List γ) : List.Forall₂ (fun x z => ∃ y, R x y ∧ z = make y) xs zs
      ↔ ∃ ys, List.Forall₂ R xs ys ∧ zs = ys.map make := by
  constructor
  -- One choice for each member, and the list of them is the list asked for.
  · intro h
    induction h with
    | nil => exact ⟨[], .nil, rfl⟩
    | cons hone _ ih =>
        rcases hone with ⟨y, hy, rfl⟩
        rcases ih with ⟨ys, hys, rfl⟩
        exact ⟨y :: ys, .cons hy hys, rfl⟩
  · rintro ⟨ys, hys, rfl⟩
    rw [List.forall₂_map_right_iff]
    exact hys.imp fun _ y hy => ⟨y, hy, rfl⟩

/-- Related lists stay related if a member of the right one is replaced. -/
theorem forall₂_set_right (R : α → β → Prop) (xs : List α) (ys : List β)
    (h : List.Forall₂ R xs ys) (i : Nat) (x : α) (y : β) (hx : xs[i]? = some x) (hxy : R x y) :
    List.Forall₂ R xs (ys.set i y) := by
  induction h generalizing i with
  | nil => exact .nil
  | cons hr hrest ih =>
      cases i with
      | zero =>
          cases hx
          exact .cons hxy hrest
      | succ i => exact .cons hr (ih i hx)

/-- A list is related to what it becomes when one member is replaced. -/
theorem forall₂_set (S : α → α → Prop) (xs : List α) (hrefl : ∀ x ∈ xs, S x x) (i : Nat) (x y : α)
    (hx : xs[i]? = some x) (hxy : S x y) : List.Forall₂ S xs (xs.set i y) :=
  forall₂_set_right S xs xs (List.forall₂_same.mpr hrefl) i x y hx hxy

end Look

section Steps

variable {ε σ α β : Type}

/-- The step started in `s` yields `a` and leaves `s'` behind. -/
def Gives (x : ExceptT ε (StateM σ) α) (s : σ) (a : α) (s' : σ) : Prop :=
  x.run s = (.ok a, s')

theorem gives_pure (a b : α) (s s' : σ) :
    Gives (pure a : ExceptT ε (StateM σ) α) s b s' ↔ a = b ∧ s = s' := by
  constructor
  · intro h
    cases h
    exact ⟨rfl, rfl⟩
  · rintro ⟨rfl, rfl⟩
    rfl

theorem not_gives_throw (e : ε) (a : α) (s s' : σ) :
    ¬ Gives (throw e : ExceptT ε (StateM σ) α) s a s' := by
  intro h
  cases h

/-- The run of a sequence of steps. -/
theorem run_bind (x : ExceptT ε (StateM σ) α) (f : α → ExceptT ε (StateM σ) β) (s : σ) :
    (x >>= f).run s
      = match x.run s with
        | (.ok a, s') => (f a).run s'
        | (.error e, s') => (.error e, s') := by
  -- The step is run first, and what follows depends on whether it failed. After an error the state
  -- stays what it was then.
  change (match x.run s with | (r, s') => (ExceptT.bindCont f r) s') = _
  rcases x.run s with ⟨_ | _, _⟩
  · rfl
  · rfl

/-- What is made of the result has no part in what is left behind. -/
theorem snd_run_bind_pure (x : ExceptT ε (StateM σ) α) (g : α → β) (s : σ) :
    ((x >>= fun a => pure (g a)).run s).2 = (x.run s).2 := by
  rw [run_bind]
  rcases x.run s with ⟨_ | _, _⟩
  · rfl
  · rfl

/-- The run of a sequence whose first step cannot fail. -/
theorem run_lift_bind (x : StateM σ α) (f : α → ExceptT ε (StateM σ) β) (s : σ) :
    ((liftM x : ExceptT ε (StateM σ) α) >>= f).run s = (f (x.run s).1).run (x.run s).2 :=
  rfl

theorem run_get_bind (f : σ → ExceptT ε (StateM σ) β) (s : σ) :
    ((get : ExceptT ε (StateM σ) σ) >>= f).run s = (f s).run s :=
  rfl

/-- The run of a sequence whose first step succeeds. -/
theorem run_bind_of_gives (x : ExceptT ε (StateM σ) α) (f : α → ExceptT ε (StateM σ) β) (s s' : σ)
    (a : α) (h : Gives x s a s') : (x >>= f).run s = (f a).run s' := by
  rw [run_bind, show x.run s = (.ok a, s') from h]

/-- A sequence of steps succeeds exactly if both parts do, the second from
    what the first leaves behind. -/
theorem gives_bind (x : ExceptT ε (StateM σ) α) (f : α → ExceptT ε (StateM σ) β)
    (s s'' : σ) (b : β) :
    Gives (x >>= f) s b s'' ↔ ∃ a s', Gives x s a s' ∧ Gives (f a) s' b s'' := by
  unfold Gives
  rw [run_bind]
  -- Only what the first step yields and leaves behind is handed on. If it failed there is nothing
  -- to hand on and neither side holds.
  rcases hx : x.run s with ⟨_ | a, s'⟩
  · constructor
    · intro h
      cases h
    · rintro ⟨a, s₁, h, _⟩
      cases h
  · constructor
    · intro h
      exact ⟨a, s', rfl, h⟩
    · rintro ⟨a', s₁, heq, h⟩
      cases heq
      exact h

/-- A look-up leaves the state as it was. -/
theorem gives_lookUp (x : Except ε α) (a : α) (s s' : σ) :
    Gives (liftM x : ExceptT ε (StateM σ) α) s a s' ↔ x = .ok a ∧ s = s' := by
  cases x with
  | error e =>
      constructor
      · intro h
        cases h
      · intro h
        cases h.1
  | ok b =>
      constructor
      · intro h
        cases h
        exact ⟨rfl, rfl⟩
      · rintro ⟨h, rfl⟩
        cases h
        rfl

/-- A sequence of steps that begins with a look-up. -/
theorem gives_lookUp_bind (x : Except ε α) (f : α → ExceptT ε (StateM σ) β) (s s' : σ) (b : β) :
    Gives (liftM x >>= f) s b s' ↔ ∃ a, x = .ok a ∧ Gives (f a) s b s' := by
  -- The state in between is the one before, so it need not be named.
  rw [gives_bind]
  refine exists_congr fun a => ?_
  constructor
  · rintro ⟨s₁, hlook, h⟩
    rcases (gives_lookUp _ _ _ _).mp hlook with ⟨ha, rfl⟩
    exact ⟨ha, h⟩
  · rintro ⟨ha, h⟩
    exact ⟨s, (gives_lookUp _ _ _ _).mpr ⟨ha, rfl⟩, h⟩

/-- The run of a sequence that begins with a look-up. -/
theorem run_lookUp_bind (x : Except ε α) (f : α → ExceptT ε (StateM σ) β) (s : σ) (a : α)
    (h : x = .ok a) : (liftM x >>= f).run s = (f a).run s :=
  run_bind_of_gives _ f s s a ((gives_lookUp x a s s).mpr ⟨h, rfl⟩)

/-- What a sequence of steps leaves behind. The second part only counts if the
    first one succeeded. -/
theorem ends_bind (P : σ → Prop) (x : ExceptT ε (StateM σ) α)
    (f : α → ExceptT ε (StateM σ) β) (s : σ) (hx : P (x.run s).2)
    (hf : ∀ a s', Gives x s a s' → P s' → P ((f a).run s').2) : P ((x >>= f).run s).2 := by
  rw [run_bind]
  -- What a failed first step leaves behind is what the sequence leaves behind.
  rcases hrun : x.run s with ⟨_ | a, s'⟩
  · rw [hrun] at hx
    exact hx
  · rw [hrun] at hx
    exact hf a s' hrun hx

/-- What a sequence of steps leaves behind that begins with a look-up. -/
theorem ends_lookUp_bind (P : σ → Prop) (x : Except ε α) (f : α → ExceptT ε (StateM σ) β) (s : σ)
    (hs : P s) (hf : ∀ a, x = .ok a → P ((f a).run s).2) : P ((liftM x >>= f).run s).2 := by
  cases x with
  | error e => exact hs
  | ok a => exact hf a rfl

/-- What a map of steps leaves behind, when every member keeps it. -/
theorem ends_mapM (P : σ → Prop) (f : α → ExceptT ε (StateM σ) β) (xs : List α)
    (hf : ∀ x ∈ xs, ∀ s, P s → P ((f x).run s).2) (s : σ) (hs : P s) :
    P ((xs.mapM f).run s).2 := by
  induction xs generalizing s with
  | nil => exact hs
  | cons x xs ih =>
      rw [List.mapM_cons]
      -- A member fails or the rest starts from what it has left, and either way `P` holds there.
      refine ends_bind P _ _ s (hf x List.mem_cons_self s hs) (fun y s₁ _ h₁ => ?_)
      refine ends_bind P _ _ s₁ (ih (fun z hz => hf z (List.mem_cons_of_mem _ hz)) s₁ h₁) ?_
      intro ys s₂ _ h₂
      exact h₂

/-- Every result of a map of steps comes from some member. That member starts
    after the beginning and stops before the end, for any order of states in
    which every member only goes up. -/
theorem gives_mapM_mem (le : σ → σ → Prop) (hrefl : ∀ s, le s s)
    (htrans : ∀ a b c, le a b → le b c → le a c)
    (f : α → ExceptT ε (StateM σ) β) (xs : List α)
    (hf : ∀ x ∈ xs, ∀ s, le s ((f x).run s).2) (s s' : σ) (ys : List β)
    (h : Gives (xs.mapM f) s ys s') (y : β) (hy : y ∈ ys) :
    ∃ x ∈ xs, ∃ s₁ s₂, le s s₁ ∧ Gives (f x) s₁ y s₂ ∧ le s₂ s' := by
  -- On the list, for any state to start from, since the rest starts where the first member has
  -- stopped.
  induction xs generalizing s ys with
  | nil =>
      rw [List.mapM_nil, gives_pure] at h
      rw [← h.1] at hy
      cases hy
  | cons x xs ih =>
      have hxs : ∀ z ∈ xs, ∀ s, le s ((f z).run s).2 :=
        fun z hz => hf z (List.mem_cons_of_mem _ hz)
      rw [List.mapM_cons, gives_bind] at h
      rcases h with ⟨z, s₁, hz, h⟩
      rcases (gives_bind _ _ _ _ _).mp h with ⟨rest, s₂, hrest, hys⟩
      rw [gives_pure] at hys
      rcases hys with ⟨rfl, rfl⟩
      -- The first member has the state at the beginning to itself, and the rest only goes up from
      -- where it stops. For a later one the order is transitive through that state.
      rcases List.mem_cons.mp hy with rfl | hy
      · have hend : le s₁ ((xs.mapM f).run s₁).2 :=
          ends_mapM (le s₁) f xs (fun w hw s₂ h => htrans _ _ _ h (hxs w hw s₂)) s₁ (hrefl s₁)
        rw [hrest] at hend
        exact ⟨x, List.mem_cons_self, s, s₁, hrefl s, hz, hend⟩
      · have hfirst : le s s₁ := by
          have hup := hf x List.mem_cons_self s
          rw [hz] at hup
          exact hup
        rcases ih hxs s₁ rest hrest hy with ⟨x', hx', t, t', hbefore, hgives, hafter⟩
        exact ⟨x', List.mem_cons_of_mem _ hx', t, t', htrans _ _ _ hfirst hbefore, hgives, hafter⟩

/-- Every result of a map of steps comes from some member, which starts where the
    members before it have stopped, and where it stops those behind it start. -/
theorem gives_mapM_split (f : α → ExceptT ε (StateM σ) β) (xs : List α) (s s' : σ) (ys : List β)
    (h : Gives (xs.mapM f) s ys s') (y : β) (hy : y ∈ ys) :
    ∃ before x after zs zs' s₁ s₂, xs = before ++ x :: after ∧ Gives (before.mapM f) s zs s₁
      ∧ Gives (f x) s₁ y s₂ ∧ Gives (after.mapM f) s₂ zs' s' := by
  induction xs generalizing s ys with
  | nil =>
      rw [List.mapM_nil, gives_pure] at h
      rw [← h.1] at hy
      cases hy
  | cons x xs ih =>
      rw [List.mapM_cons, gives_bind] at h
      rcases h with ⟨z, s₁, hz, h⟩
      rcases (gives_bind _ _ _ _ _).mp h with ⟨rest, s₂, hrest, hys⟩
      rw [gives_pure] at hys
      rcases hys with ⟨rfl, rfl⟩
      rcases List.mem_cons.mp hy with rfl | hy
      -- If the result is that of the first member, nothing comes before it.
      · exact ⟨[], x, xs, [], rest, s, s₁, rfl, (gives_pure _ _ _ _).mpr ⟨rfl, rfl⟩, hz, hrest⟩
      · rcases ih s₁ rest hrest hy with
          ⟨before, x', after, zs, zs', t, t', rfl, hbefore, hone, hafter⟩
        refine ⟨x :: before, x', after, z :: zs, zs', t, t', rfl, ?_, hone, hafter⟩
        rw [List.mapM_cons, gives_bind]
        exact ⟨z, s₁, hz, (gives_bind _ _ _ _ _).mpr
          ⟨zs, t, hbefore, (gives_pure _ _ _ _).mpr ⟨rfl, rfl⟩⟩⟩

/-- A map of steps succeeds if every member does, from any state that the members before it may
    leave behind. -/
theorem gives_mapM_of (P : σ → Prop) (R : α → β → Prop) (f : α → ExceptT ε (StateM σ) β)
    (xs : List α)
    (hf : ∀ x ∈ xs, ∀ s, P s → ∃ y s', Gives (f x) s y s' ∧ P s' ∧ R x y) (s : σ) (hs : P s) :
    ∃ ys s', Gives (xs.mapM f) s ys s' ∧ P s' ∧ List.Forall₂ R xs ys := by
  induction xs generalizing s with
  | nil => exact ⟨[], s, rfl, hs, .nil⟩
  | cons x xs ih =>
      -- The first member succeeds from a good state and leaves one, from which the rest succeeds.
      rcases hf x List.mem_cons_self s hs with ⟨y, s₁, hy, hs₁, hr⟩
      rcases ih (fun z hz => hf z (List.mem_cons_of_mem _ hz)) s₁ hs₁ with ⟨ys, s₂, hys, hs₂, hall⟩
      refine ⟨y :: ys, s₂, ?_, hs₂, .cons hr hall⟩
      rw [List.mapM_cons, gives_bind]
      exact ⟨y, s₁, hy,
        (gives_bind _ _ _ _ _).mpr ⟨ys, s₂, hys, (gives_pure _ _ _ _).mpr ⟨rfl, rfl⟩⟩⟩

/-- A map of steps that succeeded, member by member, if every member keeps what those before it
    have left behind. -/
theorem gives_mapM_related (P : σ → Prop) (R : α → β → Prop) (f : α → ExceptT ε (StateM σ) β)
    (xs : List α) (hf : ∀ x ∈ xs, ∀ s y s', P s → Gives (f x) s y s' → R x y ∧ P s') (s s' : σ)
    (ys : List β) (hs : P s) (h : Gives (xs.mapM f) s ys s') : List.Forall₂ R xs ys ∧ P s' := by
  induction xs generalizing s ys with
  | nil =>
      rw [List.mapM_nil, gives_pure] at h
      rcases h with ⟨rfl, rfl⟩
      exact ⟨.nil, hs⟩
  | cons x xs ih =>
      rw [List.mapM_cons, gives_bind] at h
      rcases h with ⟨y, s₁, hfirst, h⟩
      -- The map is a sequence of the first member, the rest, and putting the results together.
      rcases (gives_bind _ _ _ _ _).mp h with ⟨rest, s₂, hothers, hys⟩
      rcases (gives_pure _ _ _ _).mp hys with ⟨rfl, rfl⟩
      rcases hf x List.mem_cons_self s y s₁ hs hfirst with ⟨hr, hs₁⟩
      rcases ih (fun z hz => hf z (List.mem_cons_of_mem _ hz)) s₁ rest hs₁ hothers with ⟨hrest, hs₂⟩
      exact ⟨.cons hr hrest, hs₂⟩

/-- A map of look-ups, as a step, leaves the state as it was. -/
theorem gives_mapM_lookUp (f : α → Except ε β) (xs : List α) (s s' : σ) (ys : List β)
    (h : Gives (xs.mapM fun x => (liftM (f x) : ExceptT ε (StateM σ) β)) s ys s') :
    xs.mapM f = .ok ys ∧ s = s' := by
  induction xs generalizing ys with
  | nil =>
      rw [List.mapM_nil, gives_pure] at h
      rw [List.mapM_nil, except_pure_ok]
      exact h
  | cons x xs ih =>
      rw [List.mapM_cons, gives_bind] at h
      -- A look-up changes nothing, so all members see the same state.
      rcases h with ⟨y, s₁, hfirst, h⟩
      rcases (gives_lookUp _ _ _ _).mp hfirst with ⟨hy, rfl⟩
      rcases (gives_bind _ _ _ _ _).mp h with ⟨rest, s₂, hothers, hys⟩
      rcases (gives_pure _ _ _ _).mp hys with ⟨rfl, rfl⟩
      rcases ih rest hothers with ⟨hrest, rfl⟩
      refine ⟨?_, rfl⟩
      rw [List.mapM_cons, except_bind_ok]
      exact ⟨y, hy, (except_bind_ok _ _ _).mpr ⟨rest, hrest, rfl⟩⟩

end Steps

end ActorCheck
