import Mathlib.Data.List.Forall2
import ParseTree.Proofs.Arith.Grammar
import ParseTree.Proofs.Arith.Words

/-!
# Formulas, written and read back

A formula is written with parentheses where the binding of operators demands
them and nowhere else.  Parsing a text that prints these words and reading the
tree by its fields gives the formula back.

The words of a formula fix its reading: one is built along the formula, and the
parser follows every reading that ends where the words end.
-/

namespace ParseTree.Arith

inductive Formula where
  | number (n : Numeral)
  | variable (v : Name)
  | binary (op : Operator) (left right : Formula)
  deriving DecidableEq

namespace Formula

/-- The words of a formula that stands where operators of less than `power` would
be torn apart.  Operators bind to the left, so a right operand needs more power
than the operator itself. -/
def words (power : Nat) : Formula → List Word
  | .number n => [.numeral n]
  | .variable v => [.name v]
  | .binary op left right =>
      let body := left.words op.power ++ .operator op :: right.words (op.power + 1)
      if op.power < power then .openParen :: (body ++ [.closeParen]) else body

end Formula

/-! ## Reading a tree back -/

def Numeral.ofText? (text : Text) : Option Numeral :=
  if h : isNumeral text = true then some ⟨text, h⟩ else none

def Name.ofText? (text : Text) : Option Name :=
  if h : isName text = true then some ⟨text, h⟩ else none

def Operator.ofKind? (kind : String) : Option Operator :=
  [Operator.add, .subtract, .multiply, .divide].find? fun op => op.kind = kind

theorem lt_of_filter_eq {a : Arena} {id child : Nat} {p : Nat → Bool}
    (h : (a.children id).filter p = [child]) : id < child ∧ child < a.size := by
  have mem : child ∈ (a.children id).filter p := h ▸ List.mem_singleton_self child
  exact a.lt_of_mem_children (List.mem_of_mem_filter mem)

/-- The formula that a node stands for: operators have their operands under the
fields `left` and `right`, and parentheses stand for what is inside. -/
def formula? (a : Arena) (source : Text) (id : Nat) : Option Formula :=
  match Operator.ofKind? (a.label id).kind with
  | some op =>
      match _ : a.childrenByField id "left", _ : a.childrenByField id "right" with
      | [l], [r] => do
          let first ← formula? a source l
          let second ← formula? a source r
          some (.binary op first second)
      | _, _ => none
  | none =>
      if (a.label id).kind = "number" then
        (Numeral.ofText? (a.textOf source id)).map .number
      else if (a.label id).kind = "variable" then
        (Name.ofText? (a.textOf source id)).map .variable
      else if (a.label id).kind = "parenthesized_expression" then
        match _ : a.namedChildren id with
        | [body] => formula? a source body
        | _ => none
      else none
termination_by a.size - id
decreasing_by
  · have := lt_of_filter_eq ‹a.childrenByField id "left" = [l]›
    omega
  · have := lt_of_filter_eq ‹a.childrenByField id "right" = [r]›
    omega
  · have := lt_of_filter_eq ‹a.namedChildren id = [body]›
    omega

theorem Operator.ofKind?_kind (op : Operator) : Operator.ofKind? op.kind = some op := by
  cases op <;> rfl

section Reading

variable {a : Arena} {source : Text} {id : Nat}

theorem formula?_number {n : Numeral} (kind : (a.label id).kind = "number")
    (text : a.textOf source id = n.text) : formula? a source id = some (.number n) := by
  have none : Operator.ofKind? "number" = none := rfl
  rw [formula?]
  simp [kind, none, text, Numeral.ofText?, n.numeral]

theorem formula?_variable {v : Name} (kind : (a.label id).kind = "variable")
    (text : a.textOf source id = v.text) : formula? a source id = some (.variable v) := by
  have none : Operator.ofKind? "variable" = none := rfl
  rw [formula?]
  simp [kind, none, text, Name.ofText?, v.name]

theorem formula?_binary {op : Operator} {l r : Nat} {left right : Formula}
    (kind : (a.label id).kind = op.kind) (first : a.childrenByField id "left" = [l])
    (second : a.childrenByField id "right" = [r]) (readLeft : formula? a source l = some left)
    (readRight : formula? a source r = some right) :
    formula? a source id = some (.binary op left right) := by
  rw [formula?, kind, Operator.ofKind?_kind]
  dsimp only
  split
  · rename_i l' r' first' second'
    obtain rfl : l' = l := by simpa [first] using first'.symm
    obtain rfl : r' = r := by simpa [second] using second'.symm
    rw [readLeft, readRight]
    rfl
  · rename_i other
    exact (other l r first second).elim

theorem formula?_parens {body : Nat} {e : Formula}
    (kind : (a.label id).kind = "parenthesized_expression") (inner : a.namedChildren id = [body])
    (read : formula? a source body = some e) : formula? a source id = some e := by
  have none : Operator.ofKind? "parenthesized_expression" = none := rfl
  rw [formula?, kind, none]
  dsimp only
  rw [if_neg (by decide), if_neg (by decide), if_pos rfl]
  split
  · rename_i body' inner'
    obtain rfl : body' = body := by simpa [inner] using inner'.symm
    exact read
  · rename_i other
    exact (other body inner).elim

end Reading

inductive Shows (source : Text) : Tree → Formula → Prop
  | number {label : Label} {n : Numeral} : label.named = true → label.kind = "number" →
      source.slice? label.range = some n.text → Shows source (.node label []) (.number n)
  | variable {label : Label} {v : Name} : label.named = true → label.kind = "variable" →
      source.slice? label.range = some v.text → Shows source (.node label []) (.variable v)
  | binary {label : Label} {op : Operator} {left symbol right : Tree} {l r : Formula} :
      label.named = true → label.kind = op.kind →
      left.value.field = some "left" → Shows source left l → symbol.value.field = none →
      right.value.field = some "right" → Shows source right r →
      Shows source (.node label [left, symbol, right]) (.binary op l r)
  | parens {label : Label} {opening body close : Tree} {e : Formula} :
      label.named = true → label.kind = "parenthesized_expression" →
      opening.value.named = false → Shows source body e → close.value.named = false →
      Shows source (.node label [opening, body, close]) e

theorem Shows.withField {source : Text} {t : Tree} {e : Formula} (h : Shows source t e)
    (field : String) : Shows source (t.withField field) e := by
  cases h with
  | number named kind text => exact .number named kind text
  | «variable» named kind text => exact .variable named kind text
  | binary named kind first left symbol second right =>
      exact .binary named kind first left symbol second right
  | parens named kind opening body close => exact .parens named kind opening body close

theorem Shows.named {source : Text} {t : Tree} {e : Formula} (h : Shows source t e) :
    t.value.named = true := by
  cases h <;> assumption

theorem Shows.formula?_eq {source : Text} {t : Tree} {e : Formula} (h : Shows source t e)
    {a : Arena} {id : Nat} (unfolds : a.unfold id = t) : formula? a source id = some e := by
  induction h generalizing id with
  | number _ kind text =>
      obtain ⟨label, -⟩ := children_of_unfold unfolds
      refine formula?_number (by rw [label, kind]) ?_
      rw [Arena.textOf, Arena.range, label, text]
      rfl
  | «variable» _ kind text =>
      obtain ⟨label, -⟩ := children_of_unfold unfolds
      refine formula?_variable (by rw [label, kind]) ?_
      rw [Arena.textOf, Arena.range, label, text]
      rfl
  | binary _ kind leftField _ plain rightField _ ihLeft ihRight =>
      obtain ⟨same, children⟩ := children_of_unfold unfolds
      obtain ⟨i, j, k, ids, first, second, third⟩ := exists_three children
      refine formula?_binary (by rw [same, kind]) ?_ ?_ (ihLeft first) (ihRight third)
      all_goals
        rw [Arena.childrenByField, ids]
        simp [label_of_unfold first, label_of_unfold second, label_of_unfold third, leftField,
          plain, rightField]
  | parens _ kind before shows behind ih =>
      obtain ⟨same, children⟩ := children_of_unfold unfolds
      obtain ⟨i, j, k, ids, first, second, third⟩ := exists_three children
      refine formula?_parens (by rw [same, kind]) ?_ (ih second)
      rw [Arena.namedChildren, ids]
      simp [label_of_unfold first, label_of_unfold second, label_of_unfold third, before, behind,
        shows.named]

/-! ## The words of a formula -/

theorem Formula.isChain_words (e : Formula) (power : Nat) :
    (e.words power).IsChain Apart := by
  induction e generalizing power with
  | number | «variable» => exact List.isChain_singleton _
  | binary op left right ihLeft ihRight =>
      have body : (left.words op.power ++ .operator op :: right.words (op.power + 1)).IsChain
          Apart := by
        refine (ihLeft op.power).append (List.isChain_cons.2 ⟨?_, ihRight (op.power + 1)⟩) ?_
        · intro w _ operand
          cases operand
        · intro w _ w' mem _
          obtain rfl : .operator op = w' := Option.some.inj mem
          rfl
      rw [words]
      split
      · refine List.isChain_cons.2 ⟨?_, body.append (List.isChain_singleton _) ?_⟩
        · intro w _ operand
          cases operand
        · intro w _ w' mem _
          obtain rfl : .closeParen = w' := Option.some.inj mem
          rfl
      · exact body

theorem Operator.power_pos (op : Operator) : 1 ≤ op.power := by
  cases op <;> decide

theorem Formula.isExpression_words (e : Formula) (power : Nat) :
    IsExpression ((e.words power).map Word.kind) := by
  induction e generalizing power with
  | number n => exact .chain .number .nil
  | «variable» v => exact .chain .variable .nil
  | binary op left right ihLeft ihRight =>
      have body := (ihLeft op.power).binary op (ihRight (op.power + 1))
      rw [words]
      split
      · simpa [Word.kind] using IsExpression.chain (.parens body) .nil
      · simpa [Word.kind] using body

theorem Reads.of_le {p q : Nat} {c c' : Cursor} {t : Tree} (h : Reads q c t c') (le : p ≤ q) :
    Reads p c t c' := by
  induction h with
  | absent lacks => exact .absent lacks
  | leaf here isLeaf => exact .leaf here isLeaf
  | tooDeep here kind deep => exact .tooDeep here kind deep
  | parens here kind shallow inner stops closes _ =>
      exact .parens here kind shallow inner stops closes
  | binary _ here strong right stops ih _ =>
      exact .binary (ih le) here (Nat.le_trans le strong) right stops

theorem exists_append_of_forall₂ {R : α → β → Prop} {xs : List α} {ys zs : List β}
    (h : List.Forall₂ R xs (ys ++ zs)) :
    ∃ first second, xs = first ++ second ∧ List.Forall₂ R first ys ∧
      List.Forall₂ R second zs :=
  ⟨_, _, (List.take_append_drop ys.length xs).symm, List.forall₂_take_append _ _ _ h,
    List.forall₂_drop_append _ _ _ h⟩

def Closes (power : Nat) (rest : List Token) : Prop :=
  ∀ op range more, rest = ⟨.operator op, range⟩ :: more → op.power ≤ power

theorem closes_nil (power : Nat) : Closes power [] := by
  intro op range more same
  cases same

theorem Closes.of_le {power q : Nat} {rest : List Token} (h : Closes power rest)
    (le : power ≤ q) : Closes q rest := by
  intro op range more here
  have := h op range more here
  omega

theorem closes_operator (op : Operator) (range : ByteRange) (rest : List Token) :
    Closes op.power (⟨.operator op, range⟩ :: rest) := by
  intro op' range' more same
  cases same
  exact Nat.le_refl _

theorem closes_closeParen (power : Nat) (range : ByteRange) (rest : List Token) :
    Closes power (⟨.closeParen, range⟩ :: rest) := by
  intro op range' more same
  cases same

theorem Closes.stops {power p : Nat} {c : Cursor} (h : Closes power c.rest) (less : power < p) :
    c.Stops p := by
  intro op range more here
  have := h op range more here
  omega

/-- Tokens that spell the words are read as a tree that shows the formula, in
front of whatever does not bind more tightly than `power`. -/
def ReadsAs (source : Text) (words : List Word) (power : Nat) (e : Formula) : Prop :=
  ∀ (c : Cursor) (tokens rest : List Token), c.rest = tokens ++ rest →
    List.Forall₂ (Spells source) tokens words →
    nestingFrom c.depth (words.map Word.kind) ≤ maxNesting → Closes power rest →
    ∃ t c', Reads power c t c' ∧ c'.rest = rest ∧ Shows source t e

section Building

variable {source : Text} {power : Nat}

theorem readsAs_leaf {w : Word} {e : Formula}
    (leaf : ∀ token, Spells source token w → ∃ t, leaf? token = some t ∧ Shows source t e) :
    ReadsAs source [w] power e := by
  intro c tokens rest here spelled _ _
  obtain ⟨token, _, spells, nothing, rfl⟩ := List.forall₂_cons_right_iff.1 spelled
  obtain rfl := List.forall₂_nil_right_iff.1 nothing
  obtain ⟨t, isLeaf, shows⟩ := leaf token spells
  exact ⟨t, _, .leaf here isLeaf, rfl, shows⟩

theorem readsAs_number (n : Numeral) : ReadsAs source [.numeral n] power (.number n) := by
  apply readsAs_leaf
  rintro ⟨_, range⟩ ⟨rfl, text⟩
  exact ⟨_, rfl, .number rfl rfl text⟩

theorem readsAs_variable (v : Name) : ReadsAs source [.name v] power (.variable v) := by
  apply readsAs_leaf
  rintro ⟨_, range⟩ ⟨rfl, text⟩
  exact ⟨_, rfl, .variable rfl rfl text⟩

theorem shows_binary {op : Operator} {l r : Tree} {left right : Formula} (range : ByteRange)
    (showsLeft : Shows source l left) (showsRight : Shows source r right) :
    Shows source (binary op l range r) (.binary op left right) := by
  have field : ∀ (name : String) (t : Tree), (t.withField name).value.field = some name := by
    rintro name ⟨label, ts⟩
    rfl
  exact .binary rfl rfl (field "left" l) (showsLeft.withField "left") rfl (field "right" r)
    (showsRight.withField "right")

theorem readsAs_binary {op : Operator} {left right : Formula} (le : power ≤ op.power)
    (readsLeft : ReadsAs source (left.words op.power) op.power left)
    (readsRight : ReadsAs source (right.words (op.power + 1)) (op.power + 1) right) :
    ReadsAs source (left.words op.power ++ .operator op :: right.words (op.power + 1)) power
      (.binary op left right) := by
  intro c tokens rest here spelled shallow closes
  obtain ⟨first, others, rfl, spelledLeft, spelledOthers⟩ := exists_append_of_forall₂ spelled
  obtain ⟨⟨kind, range⟩, second, spells, spelledRight, rfl⟩ :=
    List.forall₂_cons_right_iff.1 spelledOthers
  obtain rfl : kind = .operator op := spells.1
  rw [List.map_append, nestingFrom_append, (left.isExpression_words op.power).foldl_depthBehind,
    List.map_cons, nestingFrom, Nat.max_le, Nat.max_le] at shallow
  obtain ⟨nestedLeft, -, nestedRight⟩ := shallow
  -- the left operand ends at the operator, which binds no more tightly than itself
  obtain ⟨l, c₁, readLeft, behindLeft, showsLeft⟩ :=
    readsLeft c first _ (by simp [here]) spelledLeft nestedLeft
      (closes_operator op range (second ++ rest))
  have depth : (c₁.consume ⟨.operator op, range⟩ (second ++ rest)).depth = c.depth :=
    readLeft.depth
  obtain ⟨r, c₂, readRight, behindRight, showsRight⟩ :=
    readsRight (c₁.consume ⟨.operator op, range⟩ (second ++ rest)) second rest rfl spelledRight
      (by rw [depth]; exact nestedRight) (closes.of_le (by omega))
  rw [← behindRight] at closes
  exact ⟨binary op l range r, c₂, .binary (readLeft.of_le le) behindLeft le readRight
    (closes.stops (by omega)), behindRight, shows_binary range showsLeft showsRight⟩

theorem readsAs_parens {body : List Word} {e : Formula}
    (isBody : IsExpression (body.map Word.kind)) (reads : ReadsAs source body 1 e) :
    ReadsAs source (.openParen :: (body ++ [.closeParen])) power e := by
  intro c tokens rest here spelled shallow _
  obtain ⟨⟨kind, opening⟩, others, spells, spelledOthers, rfl⟩ :=
    List.forall₂_cons_right_iff.1 spelled
  obtain rfl : kind = .openParen := spells.1
  obtain ⟨inside, last, rfl, spelledBody, spelledLast⟩ := exists_append_of_forall₂ spelledOthers
  obtain ⟨⟨kind, range⟩, _, spells, nothing, rfl⟩ := List.forall₂_cons_right_iff.1 spelledLast
  obtain rfl : kind = .closeParen := spells.1
  obtain rfl := List.forall₂_nil_right_iff.1 nothing
  rw [List.map_cons, List.map_append, nestingFrom, Nat.max_le, nestingFrom_append,
    isBody.foldl_depthBehind, Nat.max_le] at shallow
  obtain ⟨-, nestedBody, nestedClose⟩ := shallow
  have room : c.depth < maxNesting := Nat.le_trans (Nat.le_max_left _ _) nestedClose
  have entered : c.rest = ⟨.openParen, opening⟩ :: (inside ++ ⟨.closeParen, range⟩ :: rest) := by
    simp [here]
  obtain ⟨t, c₁, read, behind, shows⟩ :=
    reads { c.consume ⟨.openParen, opening⟩ _ with depth := c.depth + 1 } inside
      (⟨.closeParen, range⟩ :: rest) rfl spelledBody nestedBody (closes_closeParen 1 range rest)
  obtain ⟨c₂, behind', whole⟩ := Reads.enclosed entered room read behind
  exact ⟨_, c₂, whole, behind', .parens rfl rfl rfl shows rfl⟩

theorem readsAs_words (e : Formula) : ReadsAs source (e.words power) power e := by
  induction e generalizing power with
  | number n => exact readsAs_number n
  | «variable» v => exact readsAs_variable v
  | binary op left right ihLeft ihRight =>
      rw [Formula.words]
      split
      · refine readsAs_parens ?_ (readsAs_binary op.power_pos ihLeft ihRight)
        rw [List.map_append, List.map_cons]
        exact (left.isExpression_words op.power).binary op (right.isExpression_words (op.power + 1))
      · rename_i strong
        exact readsAs_binary (by omega) ihLeft ihRight

end Building

theorem parseTokens_of_reads {tokens : List Token} {t : Tree} {c : Cursor}
    (read : Reads 1 { rest := tokens } t c) (empty : c.rest = []) (length : Nat) :
    parseTokens tokens length = .node { kind := "expression", range := ⟨0, length⟩ } [t] :=
  parseTokens_eq read (Cursor.stops_of_nil empty 1) (.done empty) length

theorem exists_parse_of_prints (e : Formula) {text : Text} (prints : Prints (e.words 1) text)
    (shallow : nesting ((e.words 1).map Word.kind) ≤ maxNesting) :
    ∃ t, Shows text t e ∧
      parse text = .node { kind := "expression", range := ⟨0, text.width⟩ } [t] := by
  have spelled := prints.spells_tokenize (e.isChain_words 1)
  obtain ⟨t, c, read, empty, shows⟩ :=
    readsAs_words e { rest := Token.tokenize text } (Token.tokenize text) []
      (List.append_nil _).symm spelled shallow (closes_nil 1)
  exact ⟨t, shows, parseTokens_of_reads read empty text.width⟩

/-- A formula is read back from every text that prints it. -/
theorem formula_of_prints (e : Formula) {text : Text} (prints : Prints (e.words 1) text)
    (shallow : nesting ((e.words 1).map Word.kind) ≤ maxNesting) :
    (arena text).hasFault 0 = false ∧
      ∃ top, (arena text).children 0 = [top] ∧ formula? (arena text) text top = some e := by
  constructor
  · have kinds := map_kind_of_spells (prints.spells_tokenize (e.isChain_words 1))
    rw [hasFault_arena, isFaulty_parse_iff, kinds]
    exact ⟨e.isExpression_words 1, shallow⟩
  · obtain ⟨t, shows, whole⟩ := exists_parse_of_prints e prints shallow
    have unfolds : (arena text).unfold 0 = parse text :=
      (Arena.unfold_ofTree (sound_parse text).1.within).1
    obtain ⟨-, children⟩ := children_of_unfold (unfolds.trans whole)
    obtain ⟨top, only, shown⟩ := List.map_eq_singleton_iff.1 children
    exact ⟨top, only, shows.formula?_eq shown⟩

theorem formula_of_prints_product :
    let one : Formula := .number ⟨['1'], rfl⟩
    let x : Formula := .variable ⟨['x'], rfl⟩
    let e : Formula := .binary .multiply (.binary .subtract one (.binary .subtract x one)) x
    let text : Text := "( 1 -(x-1))*x\n".toList
    Prints (e.words 1) text ∧ nesting ((e.words 1).map Word.kind) ≤ maxNesting ∧
      (arena text).hasFault 0 = false ∧
      ∃ top, (arena text).children 0 = [top] ∧ formula? (arena text) text top = some e := by
  intro one x e text
  have prints : Prints (e.words 1) text := by
    have none : ∀ c ∈ ([] : Text), Text.isLayout c = true := by simp
    have space : ∀ c ∈ [' '], Text.isLayout c = true := by simp [Text.isLayout]
    have newline : ∀ c ∈ ['\n'], Text.isLayout c = true := by simp [Text.isLayout]
    exact .cons _ none (.cons _ space (.cons _ space (.cons _ none (.cons _ none (.cons _ none
      (.cons _ none (.cons _ none (.cons _ none (.cons _ none (.cons _ none (.nil newline)))))))))))
  have shallow : nesting ((e.words 1).map Word.kind) ≤ maxNesting := by decide
  exact ⟨prints, shallow, formula_of_prints e prints shallow⟩

end ParseTree.Arith
