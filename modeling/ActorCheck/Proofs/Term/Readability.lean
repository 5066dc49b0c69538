import ActorCheck.Proofs.Term.Instance
import ActorCheck.Proofs.Term.Normal
import ActorCheck.Proofs.Term.Trees
import ActorCheck.Proofs.Term.WellSorted

/-!
# Texts That Are Read in One Way

The text of a term is read back in two stages. First as a tree, which is possible because the texts
of trees determine them, as long as no name contains a bar. Then the tree as a term: the first
character of a word tells whether it is a numeral, a name between bars or a bare one, and operator
and number of operands tell the form of an application. Unary minus only stands before numerals, so
it is no subtraction, and it is what a negative literal is written with.

What comes back is not always the term that was written. A conjunction or disjunction of one operand
leaves no trace in the text, nor does one without operands, which looks like a truth value. Nothing
else is lost. So two terms have the same text exactly if they are equal once all such connectives
are replaced, and these replacements change nothing about what a term stands for.

The first stage has to exclude names with a bar, the second a variable that is called `true` or
`false`. A name of an instance has a separator, so it is not called like a truth value, and no bar
outside its base.

## Main definitions

* `Term.tree`: A term as a tree, whose text is the text of the term.
* `Tree.term`: The term that a tree stands for.
* `IsLegible`: A name that can be told from everything else.
* `Term.OverInstances`: All variables are instances whose base names have no bar.

## Theorems

* `Term.text_tree`: The text of the tree is the text of the term.
* `Term.readable_tree`: The tree is determined by its text.
* `Term.term_tree`: A term is read back from its tree, up to connectives that leave no trace.
* `Term.tree_normal`: Those connectives leave no trace.
* `Term.render_eq_iff`: When two terms have the same text, and that they mean the same then.
-/

namespace ActorCheck

/-- A connective with any number of operands as a tree. -/
def Tree.junction (operator neutral : String) : List Tree → Tree
  | [] => .word neutral
  | [operand] => operand
  | operands => .node operator operands

theorem Tree.text_junction (operator neutral : String) (operands : List Tree) :
    (junction operator neutral operands).text
      = Term.junction operator neutral (textAll operands) := by
  rcases operands with _ | ⟨t, _ | ⟨u, ts⟩⟩ <;> rfl

theorem Tree.readable_junction (operator neutral : String) (operands : List Tree)
    (hoperator : IsBare operator.toList) (hneutral : IsBare neutral.toList)
    (h : ∀ t ∈ operands, t.Readable) : (junction operator neutral operands).Readable := by
  rcases operands with _ | ⟨t, _ | ⟨u, ts⟩⟩
  · exact .word neutral (.bare _ hneutral)
  · exact h t List.mem_cons_self
  · exact .node operator _ hoperator h

namespace Term

section Writing

/-- An integer literal as a tree. -/
def numeralTree (n : Int64) : Tree :=
  if n.toInt < 0 then .node "-" [.word (toString n.toInt.natAbs)]
  else .word (toString n.toInt.natAbs)

mutual

/-- A term as a tree. -/
def tree : Term → Tree
  | .var x => .word (symbol x)
  | .int n => numeralTree n
  | .bool b => .word (if b then "true" else "false")
  | .arith o a b => .node o.symbol [a.tree, b.tree]
  | .cmp o a b => .node o.symbol [a.tree, b.tree]
  | .conj ts => .junction "and" "true" (treeAll ts)
  | .disj ts => .junction "or" "false" (treeAll ts)
  | .not a => .node "not" [a.tree]
  | .implies a b => .node "=>" [a.tree, b.tree]
  | .ite a b c => .node "ite" [a.tree, b.tree, c.tree]

/-- The trees of a list of terms. -/
def treeAll : List Term → List Tree
  | [] => []
  | t :: ts => t.tree :: treeAll ts

end

theorem text_numeralTree (n : Int64) : (numeralTree n).text = numeral n := by
  unfold numeralTree numeral
  split
  next =>
    apply String.toList_inj.mp
    rw [Tree.text, toList_application, String.toList_append, String.toList_append]
    simp [Tree.textAll, Tree.text]
  next => rfl

mutual

/-- The text of the tree is the text of the term. -/
theorem text_tree (t : Term) : t.tree.text = t.render := by
  -- The tree is built along the term, and its text is put together in the same way.
  cases t with
  | var x => rfl
  | int n => exact text_numeralTree n
  | bool b => rfl
  | arith op a b => simp only [tree, render, Tree.text, Tree.textAll, text_tree a, text_tree b]
  | cmp op a b => simp only [tree, render, Tree.text, Tree.textAll, text_tree a, text_tree b]
  | conj ts => rw [tree, render, Tree.text_junction, textAll_treeAll ts]
  | disj ts => rw [tree, render, Tree.text_junction, textAll_treeAll ts]
  | not a => simp only [tree, render, Tree.text, Tree.textAll, text_tree a]
  | implies a b => simp only [tree, render, Tree.text, Tree.textAll, text_tree a, text_tree b]
  | ite c a b =>
      simp only [tree, render, Tree.text, Tree.textAll, text_tree c, text_tree a, text_tree b]

theorem textAll_treeAll (ts : List Term) : Tree.textAll (treeAll ts) = renderAll ts := by
  cases ts with
  | nil => rfl
  | cons t ts => rw [treeAll, renderAll, Tree.textAll, text_tree t, textAll_treeAll ts]

end

end Writing

end Term

/-- A name that can be told from everything else: without a bar, and not called like a truth
    value. -/
structure IsLegible (name : String) : Prop where
  noBar : '|' ∉ name.toList
  ne_true : name ≠ "true"
  ne_false : name ≠ "false"

/-- Names of instances are legible if their base names have no bar. -/
theorem isLegible_instanceName (base : String) (k : UInt32) (h : '|' ∉ base.toList) :
    IsLegible (instanceName base k) := by
  -- A name of an instance has a separator, which neither truth value has, and only digits behind
  -- it.
  have hseparator := separator_mem_instanceName base k
  refine ⟨fun hbar => ?_, fun heq => ?_, fun heq => ?_⟩
  · rw [instanceName_eq, toList_nameAt, List.mem_append, List.mem_cons] at hbar
    rcases hbar with hbase | hsep | hdigit
    · exact h hbase
    · exact absurd hsep (by decide)
    · exact absurd (Nat.isDigit_of_mem_toDigits (by decide) (by decide) hdigit) (by decide)
  · rw [heq] at hseparator
    exact absurd hseparator (by decide)
  · rw [heq] at hseparator
    exact absurd hseparator (by decide)

namespace Term

section Words

theorem isDelimiter_of_isSymbolChar (c : Char) (h : isSymbolChar c = true) :
    isDelimiter c = false := by
  refine Bool.eq_false_iff.mpr fun hc => ?_
  simp only [isDelimiter, Bool.or_eq_true, beq_iff_eq] at hc
  rcases hc with ((rfl | rfl) | rfl) | rfl <;> exact absurd h (by decide)

theorem isDelimiter_of_isDigit (c : Char) (h : c.isDigit = true) : isDelimiter c = false := by
  refine isDelimiter_of_isSymbolChar c ?_
  rw [isSymbolChar, Char.isAlphanum, h, Bool.or_true, Bool.true_or]

theorem isBare_of_isSimpleSymbol (name : String) (h : isSimpleSymbol name = true) :
    IsBare name.toList := by
  unfold isSimpleSymbol at h
  cases hname : name.toList with
  | nil =>
      rw [hname] at h
      cases h
  | cons c cs =>
      rw [hname] at h
      dsimp only at h
      rw [Bool.and_eq_true, List.all_eq_true] at h
      exact ⟨List.cons_ne_nil c cs, fun d hd => isDelimiter_of_isSymbolChar d (h.2 d hd)⟩

theorem isBare_toString (n : Nat) : IsBare (toString n).toList := by
  rw [Nat.toString_eq_ofList_toDigits, String.toList_ofList]
  refine ⟨Nat.toDigits_ne_nil, fun c hc => isDelimiter_of_isDigit c ?_⟩
  exact Nat.isDigit_of_mem_toDigits (by decide) (by decide) hc

theorem toList_bars (name : String) :
    ("|" ++ name ++ "|").toList = '|' :: (name.toList ++ ['|']) := by
  rw [String.toList_append, String.toList_append]
  rfl

theorem isWord_symbol (name : String) (h : '|' ∉ name.toList) : IsWord (symbol name).toList := by
  unfold symbol
  split
  next hsimple => exact .bare _ (isBare_of_isSimpleSymbol name hsimple)
  next =>
    rw [toList_bars]
    exact .barred name.toList h

theorem isBare_arith (op : ArithOp) : IsBare op.symbol.toList := by
  cases op <;> decide

theorem isBare_comparison (op : Comparison) : IsBare op.symbol.toList := by
  cases op <;> decide

theorem readable_numeralTree (n : Int64) : (numeralTree n).Readable := by
  -- A negative literal is written as its absolute value with a sign before it, so the digits are
  -- readable either way.
  have hdigits : (Tree.word (toString n.toInt.natAbs)).Readable :=
    .word _ (.bare _ (isBare_toString n.toInt.natAbs))
  unfold numeralTree
  split
  next =>
    refine .node "-" _ (by decide) fun t ht => ?_
    rw [List.mem_singleton.mp ht]
    exact hdigits
  next => exact hdigits

end Words

mutual

/-- The tree of a term is determined by its text if no name has a bar. -/
theorem readable_tree (t : Term) (h : ∀ x ∈ t.vars, '|' ∉ x.toList) : t.tree.Readable := by
  -- Operators, truth values and digits are bare words. Only a name could fail to be readable.
  cases t with
  | var x => exact .word _ (isWord_symbol x (h x ((mem_vars_var x x).mpr rfl)))
  | int n => exact readable_numeralTree n
  | bool b => cases b <;> exact .word _ (.bare _ (by decide))
  | arith op a b =>
      simp only [mem_vars_arith] at h
      exact Tree.readable_pair op.symbol _ _ (isBare_arith op)
        (readable_tree a fun x hx => h x (Or.inl hx)) (readable_tree b fun x hx => h x (Or.inr hx))
  | cmp op a b =>
      simp only [mem_vars_cmp] at h
      exact Tree.readable_pair op.symbol _ _ (isBare_comparison op)
        (readable_tree a fun x hx => h x (Or.inl hx)) (readable_tree b fun x hx => h x (Or.inr hx))
  | conj ts =>
      exact Tree.readable_junction "and" "true" _ (by decide) (by decide) (readable_treeAll ts h)
  | disj ts =>
      exact Tree.readable_junction "or" "false" _ (by decide) (by decide) (readable_treeAll ts h)
  | not a =>
      exact .node "not" _ (by decide) (List.forall_mem_singleton.mpr (readable_tree a h))
  | implies a b =>
      simp only [mem_vars_implies] at h
      exact Tree.readable_pair "=>" _ _ (by decide)
        (readable_tree a fun x hx => h x (Or.inl hx)) (readable_tree b fun x hx => h x (Or.inr hx))
  | ite c a b =>
      simp only [mem_vars_ite] at h
      refine .node "ite" _ (by decide) (List.forall_mem_cons.mpr ⟨?_,
        List.forall_mem_cons.mpr ⟨?_, List.forall_mem_singleton.mpr ?_⟩⟩)
      · exact readable_tree c fun x hx => h x (Or.inl hx)
      · exact readable_tree a fun x hx => h x (Or.inr (Or.inl hx))
      · exact readable_tree b fun x hx => h x (Or.inr (Or.inr hx))

theorem readable_treeAll (ts : List Term) (h : ∀ x ∈ varsAll ts, '|' ∉ x.toList) :
    ∀ t ∈ treeAll ts, t.Readable := by
  cases ts with
  | nil => exact nofun
  | cons t ts =>
      simp only [varsAll, Std.ExtTreeSet.mem_union_iff] at h
      refine List.forall_mem_cons.mpr ⟨?_, ?_⟩
      · exact readable_tree t fun x hx => h x (Or.inl hx)
      · exact readable_treeAll ts fun x hx => h x (Or.inr hx)

end

section Traces

theorem tree_conjOf (ts : List Term) :
    (conjOf ts).tree = .junction "and" "true" (treeAll ts) := by
  rcases ts with _ | ⟨t, _ | ⟨u, ts⟩⟩ <;> rfl

theorem tree_disjOf (ts : List Term) :
    (disjOf ts).tree = .junction "or" "false" (treeAll ts) := by
  rcases ts with _ | ⟨t, _ | ⟨u, ts⟩⟩ <;> rfl

mutual

/-- Connectives of fewer than two operands leave no trace. -/
theorem tree_normal (t : Term) : t.normal.tree = t.tree := by
  -- Both trees are built from the same parts. Where a connective is shortened, its tree was short
  -- from the start.
  cases t with
  | var x => rfl
  | int n => rfl
  | bool b => rfl
  | arith op a b => simp only [normal, tree, tree_normal a, tree_normal b]
  | cmp op a b => simp only [normal, tree, tree_normal a, tree_normal b]
  | conj ts => rw [normal, tree_conjOf, tree, treeAll_normalAll ts]
  | disj ts => rw [normal, tree_disjOf, tree, treeAll_normalAll ts]
  | not a => simp only [normal, tree, tree_normal a]
  | implies a b => simp only [normal, tree, tree_normal a, tree_normal b]
  | ite c a b => simp only [normal, tree, tree_normal c, tree_normal a, tree_normal b]

theorem treeAll_normalAll (ts : List Term) : treeAll (normalAll ts) = treeAll ts := by
  cases ts with
  | nil => rfl
  | cons t ts => rw [normalAll, treeAll, treeAll, tree_normal t, treeAll_normalAll ts]

end

end Traces

section Reading

/-- The term that a word stands for. Its first character tells a name between bars and a numeral
    from a bare name. -/
def ofWord (word : String) : Term :=
  match word.toList with
  | [] => .var word
  | c :: cs =>
    if c = '|' then .var (String.ofList cs.dropLast)
    else if c.isDigit then .int (Int64.ofNat (Nat.ofDigitChars 10 (c :: cs) 0))
    else if word = "true" then .bool true
    else if word = "false" then .bool false
    else .var word

/-- The negation of a numeral. Nothing else is negated. -/
def negated : Term → Option Term
  | .int n => some (.int (-n))
  | _ => none

/-- The application of an operator, if there is one with this number of operands. -/
def applied (operator : String) (operands : List Term) : Option Term :=
  if operator = "and" then some (.conj operands)
  else if operator = "or" then some (.disj operands)
  else match operands with
    | [a] =>
      if operator = "not" then some (.not a)
      else if operator = "-" then negated a
      else none
    | [a, b] =>
      if operator = "=>" then some (.implies a b)
      else ((ArithOp.ofSymbol? operator).map fun op => .arith op a b).or
        ((Comparison.ofSymbol? operator).map fun op => .cmp op a b)
    | [a, b, c] => if operator = "ite" then some (.ite a b c) else none
    | _ => none

/-- What a connective with any number of operands is read back as. -/
def joined (operator neutral : String) : List Term → Option Term
  | [] => some (ofWord neutral)
  | [operand] => some operand
  | operands => applied operator operands

end Reading

end Term

mutual

/-- The term that a tree stands for, if it stands for one. -/
def Tree.term : Tree → Option Term
  | .word text => some (Term.ofWord text)
  | .node operator operands => do Term.applied operator (← Tree.termAll operands)

/-- The terms that a list of trees stands for. -/
def Tree.termAll : List Tree → Option (List Term)
  | [] => some []
  | t :: ts => do return (← t.term) :: (← Tree.termAll ts)

end

namespace Term

section ReadingBack

theorem ofWord_symbol (name : String) (h : IsLegible name) : ofWord (symbol name) = .var name := by
  unfold symbol
  split
  next hsimple =>
    unfold isSimpleSymbol at hsimple
    unfold ofWord
    cases hname : name.toList with
    | nil => rfl
    | cons c cs =>
        -- A simple symbol begins neither with a digit nor with a bar.
        rw [hname] at hsimple
        dsimp only at hsimple ⊢
        rw [Bool.and_eq_true, Bool.not_eq_true'] at hsimple
        have hbar : c ≠ '|' := fun hc => h.noBar (by rw [hname, hc]; exact List.mem_cons_self)
        rw [if_neg hbar, if_neg (Bool.eq_false_iff.mp hsimple.1), if_neg h.ne_true,
          if_neg h.ne_false]
  next =>
    unfold ofWord
    rw [toList_bars]
    dsimp only
    rw [if_pos rfl, List.dropLast_concat, String.ofList_toList]

theorem ofWord_toString (n : Nat) : ofWord (toString n) = .int (Int64.ofNat n) := by
  unfold ofWord
  rw [Nat.toString_eq_ofList_toDigits, String.toList_ofList]
  cases hdigits : Nat.toDigits 10 n with
  | nil => exact absurd hdigits Nat.toDigits_ne_nil
  | cons c cs =>
      have hc : c.isDigit = true := by
        refine Nat.isDigit_of_mem_toDigits (b := 10) (n := n) (by decide) (by decide) ?_
        rw [hdigits]
        exact List.mem_cons_self
      -- The first digit is neither a bar nor the beginning of a name.
      have hbar : c ≠ '|' := fun heq => absurd (heq ▸ hc) (by decide)
      dsimp only
      rw [if_neg hbar, if_pos hc, ← hdigits, Nat.ofDigitChars_ten_toDigits]

/-- Literals are read back, the smallest one included: its absolute value is no literal, but wraps
    around to it, and so does the negation. -/
theorem term_numeralTree (n : Int64) : (numeralTree n).term = some (.int n) := by
  unfold numeralTree
  split
  next hneg =>
    -- Taking the absolute value and negating it both wrap around at the smallest integer.
    have habs : -(Int64.ofNat n.toInt.natAbs) = n := by
      rw [← Int64.ofInt_eq_ofNat, ← Int64.ofInt_neg, ← Int.eq_neg_natAbs_of_nonpos (by omega),
        Int64.ofInt_toInt]
    change negated (ofWord (toString n.toInt.natAbs)) = some (.int n)
    rw [ofWord_toString, negated, habs]
  next hneg =>
    have habs : Int64.ofNat n.toInt.natAbs = n := by
      rw [← Int64.ofInt_eq_ofNat, Int.natAbs_of_nonneg (by omega), Int64.ofInt_toInt]
    rw [Tree.term, ofWord_toString, habs]

theorem applied_arith (op : ArithOp) (a b : Term) :
    applied op.symbol [a, b] = some (.arith op a b) := by
  cases op <;> rfl

theorem applied_cmp (op : Comparison) (a b : Term) :
    applied op.symbol [a, b] = some (.cmp op a b) := by
  cases op <;> rfl

theorem joined_and (ts : List Term) : joined "and" "true" ts = some (conjOf ts) := by
  rcases ts with _ | ⟨t, _ | ⟨u, ts⟩⟩ <;> rfl

theorem joined_or (ts : List Term) : joined "or" "false" ts = some (disjOf ts) := by
  rcases ts with _ | ⟨t, _ | ⟨u, ts⟩⟩ <;> rfl

theorem term_node (operator : String) (trees : List Tree) (ts : List Term)
    (h : Tree.termAll trees = some ts) : (Tree.node operator trees).term = applied operator ts := by
  rw [Tree.term, h]
  rfl

theorem term_junction (operator neutral : String) (trees : List Tree) (ts : List Term)
    (h : Tree.termAll trees = some ts) :
    (Tree.junction operator neutral trees).term = joined operator neutral ts := by
  rcases trees with _ | ⟨a, _ | ⟨b, trees⟩⟩
  · cases h
    rfl
  · rcases Option.bind_eq_some_iff.mp h with ⟨t, ht, h⟩
    cases h
    exact ht
  · -- There are as many terms as trees, so this is an application on both sides.
    have hnode := term_node operator (a :: b :: trees) ts h
    rcases Option.bind_eq_some_iff.mp h with ⟨t, ht, h⟩
    rcases Option.bind_eq_some_iff.mp h with ⟨ts', hts, h⟩
    rcases Option.bind_eq_some_iff.mp hts with ⟨u, hu, hts⟩
    rcases Option.bind_eq_some_iff.mp hts with ⟨us, hus, hts⟩
    cases hts
    cases h
    exact hnode

theorem termAll_cons (tree : Tree) (trees : List Tree) (t : Term) (ts : List Term)
    (h : tree.term = some t) (hs : Tree.termAll trees = some ts) :
    Tree.termAll (tree :: trees) = some (t :: ts) := by
  rw [Tree.termAll, h, hs]
  rfl

theorem term_pair (operator : String) (a b : Tree) (t u : Term) (ha : a.term = some t)
    (hb : b.term = some u) : (Tree.node operator [a, b]).term = applied operator [t, u] :=
  term_node operator _ _ (termAll_cons a _ t _ ha (termAll_cons b _ u _ hb rfl))

mutual

/-- A term is read back from its tree, without connectives of fewer than two operands. -/
theorem term_tree (t : Term) (h : ∀ x ∈ t.vars, IsLegible x) : t.tree.term = some t.normal := by
  -- The operands are read back first, and then the operator decides the form of the term.
  cases t with
  | var x =>
      rw [tree, Tree.term, ofWord_symbol x (h x ((mem_vars_var x x).mpr rfl))]
      rfl
  | int n => exact term_numeralTree n
  | bool b => cases b <;> rfl
  | arith op a b =>
      simp only [mem_vars_arith] at h
      have ha := term_tree a fun x hx => h x (Or.inl hx)
      have hb := term_tree b fun x hx => h x (Or.inr hx)
      rw [tree, term_pair _ _ _ _ _ ha hb, applied_arith, normal]
  | cmp op a b =>
      simp only [mem_vars_cmp] at h
      have ha := term_tree a fun x hx => h x (Or.inl hx)
      have hb := term_tree b fun x hx => h x (Or.inr hx)
      rw [tree, term_pair _ _ _ _ _ ha hb, applied_cmp, normal]
  | conj ts =>
      rw [tree, term_junction _ _ _ _ (termAll_treeAll ts h), normal, joined_and]
  | disj ts =>
      rw [tree, term_junction _ _ _ _ (termAll_treeAll ts h), normal, joined_or]
  | not a =>
      rw [tree, term_node _ _ _ (termAll_cons _ _ _ _ (term_tree a h) rfl)]
      rfl
  | implies a b =>
      simp only [mem_vars_implies] at h
      have ha := term_tree a fun x hx => h x (Or.inl hx)
      have hb := term_tree b fun x hx => h x (Or.inr hx)
      rw [tree, term_pair _ _ _ _ _ ha hb]
      rfl
  | ite c a b =>
      simp only [mem_vars_ite] at h
      have hc := term_tree c fun x hx => h x (Or.inl hx)
      have ha := term_tree a fun x hx => h x (Or.inr (Or.inl hx))
      have hb := term_tree b fun x hx => h x (Or.inr (Or.inr hx))
      rw [tree, term_node _ _ _ (termAll_cons _ _ _ _ hc (termAll_cons _ _ _ _ ha
        (termAll_cons _ _ _ _ hb rfl)))]
      rfl

theorem termAll_treeAll (ts : List Term) (h : ∀ x ∈ varsAll ts, IsLegible x) :
    Tree.termAll (treeAll ts) = some (normalAll ts) := by
  cases ts with
  | nil => rfl
  | cons t ts =>
      simp only [varsAll, Std.ExtTreeSet.mem_union_iff] at h
      exact termAll_cons _ _ _ _ (term_tree t fun x hx => h x (Or.inl hx))
        (termAll_treeAll ts fun x hx => h x (Or.inr hx))

end

end ReadingBack

section Texts

/-- The text of a term, and the text of the same term without connectives of fewer than two
    operands. -/
theorem render_normal (t : Term) : t.normal.render = t.render := by
  rw [← text_tree, tree_normal, text_tree]

/-- Terms with the same text are equal without connectives of fewer than two operands. -/
theorem normal_eq_of_render (a b : Term) (ha : ∀ x ∈ a.vars, IsLegible x)
    (hb : ∀ x ∈ b.vars, IsLegible x) (h : a.render = b.render) : a.normal = b.normal := by
  -- The common text has one tree, and the tree is read in one way.
  have htrees : a.tree = b.tree := by
    refine Tree.text_inj _ _ (readable_tree a fun x hx => (ha x hx).noBar)
      (readable_tree b fun x hx => (hb x hx).noBar) ?_
    rw [text_tree, text_tree, h]
  have hread := term_tree a ha
  rw [htrees, term_tree b hb] at hread
  exact (Option.some.inj hread).symm

/-- All variables are instances whose base names have no bar. -/
def OverInstances (t : Term) : Prop :=
  ∀ x ∈ t.vars, ∃ base k, x = instanceName base k ∧ '|' ∉ base.toList

theorem isLegible_of_overInstances (t : Term) (h : t.OverInstances) :
    ∀ x ∈ t.vars, IsLegible x := by
  intro x hx
  rcases h x hx with ⟨base, k, rfl, hbase⟩
  exact isLegible_instanceName base k hbase

/-- Two terms over instances have the same text exactly if they are equal without connectives of
    fewer than two operands. They stand for the same then, wherever both stand for something, and
    both do if both have a sort. -/
theorem render_eq_iff (a b : Term) (ha : a.OverInstances) (hb : b.OverInstances) :
    (a.render = b.render ↔ a.normal = b.normal)
      ∧ (a.render = b.render → ∀ (ν : Valuation) (m n : Meaning), a.eval ν = some m →
          b.eval ν = some n → m = n)
      ∧ (a.render = b.render → ∀ (sorts : Sorts) (s s' : TermSort), a.HasSort sorts s →
          b.HasSort sorts s' → ∀ ν : Valuation, (∀ x r, sorts[x]? = some r → (ν x).sort = r) →
          ∃ m, a.eval ν = some m ∧ b.eval ν = some m) := by
  have hnormal : a.render = b.render → a.normal = b.normal :=
    normal_eq_of_render a b (isLegible_of_overInstances a ha) (isLegible_of_overInstances b hb)
  have hmeaning : a.render = b.render → ∀ (ν : Valuation) (m n : Meaning), a.eval ν = some m →
      b.eval ν = some n → m = n := by
    intro h ν m n hm hn
    -- Both have the meaning of the same term without short connectives.
    have hsame := eval_normal ν a m hm
    rw [hnormal h, eval_normal ν b n hn] at hsame
    exact (Option.some.inj hsame).symm
  refine ⟨⟨hnormal, fun h => ?_⟩, hmeaning, ?_⟩
  · rw [← render_normal a, h, render_normal b]
  · intro h sorts s s' hsort hsort' ν hν
    rcases eval_of_hasSort ν hν a s hsort with ⟨m, hm, _⟩
    rcases eval_of_hasSort ν hν b s' hsort' with ⟨n, hn, _⟩
    exact ⟨m, hm, by rw [hmeaning h ν m n hm hn, hn]⟩

/-- A comparison and the conjunction of this comparison alone have the same text and mean the
    same. The name has a blank and a parenthesis, and the literal is the smallest one. -/
theorem render_eq_iff_single :
    let comparison := cmp .gt (var "a b(@1") (int Int64.minValue)
    comparison.OverInstances ∧ (conj [comparison]).OverInstances ∧ conj [comparison] ≠ comparison
      ∧ (conj [comparison]).render = comparison.render
      ∧ (conj [comparison]).normal = comparison.normal
      ∧ ∃ m, (conj [comparison]).eval (fun _ => .int 0) = some m
          ∧ comparison.eval (fun _ => .int 0) = some m := by
  intro comparison
  have hnames : comparison.OverInstances := by
    intro x hx
    rw [mem_vars_cmp, mem_vars_var, mem_vars_int, or_false] at hx
    exact ⟨"a b(", 1, hx.trans (by decide), by decide⟩
  have hsingle : (conj [comparison]).OverInstances := by
    intro x hx
    rw [mem_vars_conj, mem_varsAll] at hx
    rcases hx with ⟨t, ht, hx⟩
    rw [List.mem_singleton.mp ht] at hx
    exact hnames x hx
  have htext : (conj [comparison]).render = comparison.render := rfl
  rcases render_eq_iff _ _ hsingle hnames with ⟨hnormal, _, hmeaning⟩
  refine ⟨hnames, hsingle, nofun, htext, hnormal.mp htext, ?_⟩
  have hsort : comparison.HasSort ((∅ : Sorts).insertIfNew "a b(@1" .int) .bool := by
    refine .order .gt _ _ nofun (.var _ _ ?_) (.int _)
    rw [Sorts.getElem?_insertIfNew_name, if_pos rfl]
    rfl
  refine hmeaning htext _ .bool .bool (.conj _ (List.forall_mem_singleton.mpr hsort)) hsort _ ?_
  intro x r hx
  rw [Sorts.getElem?_insertIfNew_name] at hx
  split at hx
  next => exact Option.some.inj hx
  next => cases hx

-- With a bar in a base name, one operand can look like two.
example : (conj [var "x@1", var "a b@1| |c d@1"]).render
    = (conj [var "x@1", var "a b@1", var "c d@1"]).render := by decide

end Texts

end Term

end ActorCheck
