import ActorCheck.Term.Printer

/-!
# Trees in Prefix Notation

A text in prefix notation is a word, or an operator and its operands between parentheses. Words
differ in where they end. A bare word ends before the first delimiter, a word between bars at the
second bar, and a bare word never begins with a bar. Operands are each preceded by a blank and the
last one is followed by the closing parenthesis, so after each operand it is plain whether another
one follows.

So a text that goes on after a tree, with a delimiter or not at all, tells where the tree ends and
which tree it is. This is stated with the rest of the text, which is what carries the induction: the
rest after an operand begins with a blank or the closing parenthesis, whatever follows the tree.

## Main definitions

* `Tree`: A word, or an operator with operands.
* `Tree.text`: The text of a tree.
* `isDelimiter`: The characters that end a bare word.
* `IsBare`, `IsWord`: The words that can be told from what follows them.
* `Tree.Readable`: A tree of such words.

## Theorems

* `append_inj_of_stop`: What comes before the first character that stops is determined.
* `IsBare.append_inj`, `IsWord.append_inj`: A word is determined by a text that begins with it.
* `Tree.text_append_inj`: So is a tree.
* `Tree.text_inj`: Trees with the same text are equal.
-/

namespace ActorCheck

/-- A word, or an operator and its operands. -/
inductive Tree where
  | word (text : String)
  | node (operator : String) (operands : List Tree)

/-- The characters that do not occur in bare words. -/
def isDelimiter (c : Char) : Bool := c == ' ' || c == '(' || c == ')' || c == '|'

/-- A bare word: at least one character and no delimiter. -/
structure IsBare (word : List Char) : Prop where
  nonempty : word ≠ []
  plain : ∀ c ∈ word, isDelimiter c = false

theorem isBare_iff (word : List Char) :
    IsBare word ↔ word ≠ [] ∧ word.all (fun c => !isDelimiter c) = true := by
  simp only [List.all_eq_true, Bool.not_eq_true']
  exact ⟨fun h => ⟨h.nonempty, h.plain⟩, fun h => ⟨h.1, h.2⟩⟩

instance (word : List Char) : Decidable (IsBare word) :=
  decidable_of_iff _ (isBare_iff word).symm

/-- A word: a bare one, or anything without bars between bars. -/
inductive IsWord : List Char → Prop where
  | bare (word : List Char) (h : IsBare word) : IsWord word
  | barred (name : List Char) (h : '|' ∉ name) : IsWord ('|' :: (name ++ ['|']))

/-- Nothing follows, or a delimiter does. -/
def Stops (rest : List Char) : Prop := ∀ c ∈ rest.head?, isDelimiter c = true

theorem stops_cons (c : Char) (rest : List Char) (h : isDelimiter c = true) :
    Stops (c :: rest) := by
  intro d hd
  cases hd
  exact h

section FirstStop

variable (stop : Char → Bool)

theorem takeWhile_append_of_stop (word rest : List Char) (h : ∀ c ∈ word, stop c = false)
    (hrest : ∀ c ∈ rest.head?, stop c = true) :
    (word ++ rest).takeWhile (fun c => !stop c) = word := by
  rw [List.takeWhile_append_of_pos fun c hc => by rw [h c hc]; rfl]
  cases rest with
  | nil => exact List.append_nil word
  | cons c rest =>
      have hc : stop c = true := hrest c rfl
      rw [List.takeWhile_cons_of_neg (by rw [hc]; decide), List.append_nil]

/-- What comes before the first character that stops is determined by the whole text. -/
theorem append_inj_of_stop (v w rest rest' : List Char) (hv : ∀ c ∈ v, stop c = false)
    (hw : ∀ c ∈ w, stop c = false) (hrest : ∀ c ∈ rest.head?, stop c = true)
    (hrest' : ∀ c ∈ rest'.head?, stop c = true) (h : v ++ rest = w ++ rest') :
    v = w ∧ rest = rest' := by
  have hword : v = w := by
    rw [← takeWhile_append_of_stop stop v rest hv hrest, h,
      takeWhile_append_of_stop stop w rest' hw hrest']
  subst hword
  exact ⟨rfl, List.append_cancel_left h⟩

end FirstStop

/-- A bare word is determined by a text that begins with it. -/
theorem IsBare.append_inj (v w rest rest' : List Char) (hv : IsBare v) (hw : IsBare w)
    (hrest : Stops rest) (hrest' : Stops rest') (h : v ++ rest = w ++ rest') :
    v = w ∧ rest = rest' :=
  append_inj_of_stop isDelimiter v w rest rest' hv.plain hw.plain hrest hrest' h

/-- A bare word does not begin with a delimiter. -/
theorem IsBare.append_ne_cons (word rest rest' : List Char) (c : Char) (h : IsBare word)
    (hc : isDelimiter c = true) : word ++ rest ≠ c :: rest' := by
  intro heq
  cases word with
  | nil => exact h.nonempty rfl
  | cons d word =>
      have hd := h.plain d List.mem_cons_self
      rw [(List.cons.inj heq).1, hc] at hd
      cases hd

theorem bar_ne (name : List Char) (h : '|' ∉ name) : ∀ c ∈ name, (c == '|') = false :=
  fun _ hc => beq_false_of_ne fun heq => h (heq ▸ hc)

theorem head_bar (rest : List Char) : ∀ c ∈ ('|' :: rest).head?, (c == '|') = true := by
  rintro c ⟨⟩
  rfl

/-- A word is determined by a text that begins with it. -/
theorem IsWord.append_inj (v w rest rest' : List Char) (hv : IsWord v) (hw : IsWord w)
    (hrest : Stops rest) (hrest' : Stops rest') (h : v ++ rest = w ++ rest') :
    v = w ∧ rest = rest' := by
  cases hv with
  | bare v hv =>
      cases hw with
      | bare w hw => exact hv.append_inj v w rest rest' hw hrest hrest' h
      | barred name _ => exact absurd h (hv.append_ne_cons v rest _ '|' rfl)
  | barred name hname =>
      cases hw with
      | bare w hw => exact absurd h.symm (hw.append_ne_cons w rest' _ '|' rfl)
      | barred name' hname' =>
          -- Both names end at the first bar after the opening one.
          have hnames : name ++ '|' :: rest = name' ++ '|' :: rest' := by
            simpa only [List.cons_append, List.append_assoc, List.nil_append,
              List.cons.injEq, true_and] using h
          rcases append_inj_of_stop (· == '|') name name' _ _ (bar_ne name hname)
            (bar_ne name' hname') (head_bar rest) (head_bar rest') hnames with ⟨rfl, hrests⟩
          exact ⟨rfl, (List.cons.inj hrests).2⟩

/-- The characters of an application: every operand comes after a blank. -/
theorem toList_application (operator : String) (operands : List String) :
    (Term.application operator operands).toList
      = '(' :: (operator.toList ++ (operands.flatMap (fun t => ' ' :: t.toList) ++ [')'])) := by
  have hjoin : ∀ operator : String, (" ".intercalate (operator :: operands)).toList
      = operator.toList ++ operands.flatMap (fun t => ' ' :: t.toList) := by
    induction operands with
    | nil =>
        intro operator
        rw [String.intercalate_singleton, List.flatMap_nil, List.append_nil]
    | cons t ts ih =>
        intro operator
        rw [String.intercalate_cons_cons, String.toList_append, String.toList_append, ih t,
          List.flatMap_cons, List.append_assoc]
        rfl
  rw [Term.application, String.toList_append, String.toList_append, hjoin, List.append_assoc,
    List.append_assoc]
  rfl

namespace Tree

mutual

/-- The text of a tree. -/
def text : Tree → String
  | .word text => text
  | .node operator operands => Term.application operator (textAll operands)

/-- The texts of a list of trees. -/
def textAll : List Tree → List String
  | [] => []
  | t :: ts => t.text :: textAll ts

end

/-- The words of a tree are words and its operators are bare. -/
inductive Readable : Tree → Prop where
  | word (text : String) (h : IsWord text.toList) : Readable (.word text)
  | node (operator : String) (operands : List Tree) (h : IsBare operator.toList)
      (hoperands : ∀ t ∈ operands, Readable t) : Readable (.node operator operands)

theorem readable_pair (operator : String) (a b : Tree) (h : IsBare operator.toList)
    (ha : a.Readable) (hb : b.Readable) : (node operator [a, b]).Readable :=
  .node operator _ h (List.forall_mem_cons.mpr ⟨ha, List.forall_mem_singleton.mpr hb⟩)

/-- What stands between an operator and the end of the text. -/
def remainder (operands : List Tree) (rest : List Char) : List Char :=
  (textAll operands).flatMap (fun t => ' ' :: t.toList) ++ ')' :: rest

theorem toList_node_append (operator : String) (operands : List Tree) (rest : List Char) :
    (node operator operands).text.toList ++ rest
      = '(' :: (operator.toList ++ remainder operands rest) := by
  rw [text, toList_application, remainder, List.cons_append, List.append_assoc, List.append_assoc]
  rfl

theorem remainder_cons (t : Tree) (ts : List Tree) (rest : List Char) :
    remainder (t :: ts) rest = ' ' :: (t.text.toList ++ remainder ts rest) := by
  rw [remainder, remainder, textAll, List.flatMap_cons, List.cons_append, List.cons_append,
    List.append_assoc]

theorem stops_remainder (operands : List Tree) (rest : List Char) :
    Stops (remainder operands rest) := by
  cases operands with
  | nil => exact stops_cons ')' rest rfl
  | cons t ts =>
      rw [remainder_cons]
      exact stops_cons ' ' _ rfl

/-- A word does not begin with a parenthesis. -/
theorem word_append_ne_node (word rest rest' : List Char) (h : IsWord word) :
    word ++ rest ≠ '(' :: rest' := by
  cases h with
  | bare word h => exact h.append_ne_cons word rest rest' '(' rfl
  | barred name h =>
      intro heq
      exact absurd (List.cons.inj heq).1 (by decide)

-- The induction is on the first tree. What follows an operand is not what follows the whole tree,
-- so the rest of the text has to be arbitrary.

mutual

/-- A tree is determined by a text that begins with its text and goes on with a delimiter. -/
theorem text_append_inj (a b : Tree) (ha : a.Readable) (hb : b.Readable) (rest rest' : List Char)
    (hrest : Stops rest) (hrest' : Stops rest')
    (h : a.text.toList ++ rest = b.text.toList ++ rest') : a = b ∧ rest = rest' := by
  cases ha with
  | word v hv =>
      cases hb with
      | word w hw =>
          rcases hv.append_inj _ _ rest rest' hw hrest hrest' h with ⟨htext, hrest⟩
          exact ⟨congrArg word (String.toList_inj.mp htext), hrest⟩
      | node operator operands _ _ =>
          rw [toList_node_append] at h
          exact absurd h (word_append_ne_node _ rest _ hv)
  | node operator operands hop hoperands =>
      cases hb with
      | word w hw =>
          rw [toList_node_append] at h
          exact absurd h.symm (word_append_ne_node _ rest' _ hw)
      | node operator' operands' hop' hoperands' =>
          rw [toList_node_append, toList_node_append] at h
          -- The operators are told apart first. What follows them begins with a delimiter, whether
          -- there are operands or not.
          rcases hop.append_inj _ _ _ _ hop' (stops_remainder operands rest)
            (stops_remainder operands' rest') (List.cons.inj h).2 with ⟨hoperator, hremainder⟩
          rcases remainder_inj operands operands' hoperands hoperands' rest rest' hremainder with
            ⟨rfl, hrest⟩
          exact ⟨by rw [String.toList_inj.mp hoperator], hrest⟩

/-- The operands of a tree are determined by the text behind its operator. -/
theorem remainder_inj (as bs : List Tree) (has : ∀ t ∈ as, t.Readable) (hbs : ∀ t ∈ bs, t.Readable)
    (rest rest' : List Char) (h : remainder as rest = remainder bs rest') :
    as = bs ∧ rest = rest' := by
  cases as with
  | nil =>
      cases bs with
      | nil => exact ⟨rfl, (List.cons.inj h).2⟩
      | cons b bs =>
          -- The first text closes where the second has a blank.
          rw [remainder_cons] at h
          exact absurd (List.cons.inj h).1 (by decide)
  | cons a as =>
      cases bs with
      | nil =>
          rw [remainder_cons] at h
          exact absurd (List.cons.inj h).1 (by decide)
      | cons b bs =>
          rw [List.forall_mem_cons] at has hbs
          rw [remainder_cons, remainder_cons] at h
          rcases text_append_inj a b has.1 hbs.1 _ _ (stops_remainder as rest)
            (stops_remainder bs rest') (List.cons.inj h).2 with ⟨rfl, hremainder⟩
          rcases remainder_inj as bs has.2 hbs.2 rest rest' hremainder with ⟨rfl, hrest⟩
          exact ⟨rfl, hrest⟩

end

/-- Trees with the same text are equal. -/
theorem text_inj (a b : Tree) (ha : a.Readable) (hb : b.Readable) (h : a.text = b.text) : a = b :=
  (text_append_inj a b ha hb [] [] nofun nofun (by rw [h])).1

end Tree

end ActorCheck
