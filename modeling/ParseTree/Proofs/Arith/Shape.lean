import ParseTree.Proofs.Arena.Descendants
import ParseTree.Proofs.Arith.Geometry

/-!
# The shape of arithmetic trees

Whatever the text, operators have their two operands under their fields and bind as
they should, parentheses hold one expression, and only what is left behind the first
expression is gathered under an error node.

What holds of every reading and of every token holds of every node that the parser
makes, so most of this is seen at one node and the nodes right below it.  That
operators bind as they should follows from where readings stop: behind an operand on
the right no operator comes next that could have been added to it.
-/

namespace ParseTree

theorem Rose.forall_subtrees_node {P : Rose α → Prop} {a : α} {ts : List (Rose α)} :
    (∀ u ∈ (node a ts).subtrees, P u) ↔ P (node a ts) ∧ ∀ t ∈ ts, ∀ u ∈ t.subtrees, P u := by
  simp only [subtrees_node, List.forall_mem_cons, List.forall_mem_flatMap]

namespace Tree

@[simp] theorem value_withField (field : String) (t : Tree) :
    (t.withField field).value = { t.value with field := some field } := by
  cases t
  rfl

@[simp] theorem children_withField (field : String) (t : Tree) :
    (t.withField field).children = t.children := by
  cases t
  rfl

theorem forall_subtrees_leaf {P : Tree → Prop} {label : Label} (h : P (leaf label)) :
    ∀ u ∈ (leaf label).subtrees, P u :=
  Rose.forall_subtrees_node.2 ⟨h, by simp⟩

theorem forall_subtrees_withField {P : Tree → Prop} {field : String} {t : Tree}
    (keeps : P t → P (t.withField field)) (h : ∀ u ∈ t.subtrees, P u) :
    ∀ u ∈ (t.withField field).subtrees, P u := by
  obtain ⟨label, ts⟩ := t
  rw [Rose.forall_subtrees_node] at h
  exact Rose.forall_subtrees_node.2 ⟨keeps h.1, h.2⟩

end Tree

namespace Arith

def leafKinds : List String := ["number", "variable", "ERROR"]

def expressionKinds : List String :=
  leafKinds ++ ["sum", "difference", "product", "quotient", "parenthesized_expression"]

def symbols : List String := ["+", "-", "*", "/", "(", ")"]

theorem Operator.symbol_mem (op : Operator) : op.symbol ∈ symbols := by
  cases op <;> decide

theorem Operator.kind_not_mem (op : Operator) :
    op.kind ∉ leafKinds ++ symbols ++ ["expression", "parenthesized_expression"] := by
  cases op <;> decide

theorem Operator.eq_of_kind {op other : Operator} (h : op.kind = other.kind) : op = other := by
  cases op <;> cases other <;> first | rfl | exact absurd h (by decide)

/-! ## Every node of a tree -/

/-- The property holds of every reading, token and missing parenthesis, and fields do
not matter to it. -/
structure Throughout (P : Tree → Prop) : Prop where
  reads : ∀ {p : Nat} {c c' : Cursor} {t : Tree}, Reads p c t c' → P t
  field : ∀ (name : String) {t : Tree}, P t → P (t.withField name)
  token : ∀ kind ∈ symbols, ∀ range, P (anonymousLeaf kind range)
  absent : ∀ offset, P (.missing ")" false offset)

theorem Reads.forall_subtrees {P : Tree → Prop} (all : Throughout P) {p : Nat} {c c' : Cursor}
    {t : Tree} (h : Reads p c t c') : ∀ u ∈ t.subtrees, P u := by
  induction h with
  | absent lacks => exact Tree.forall_subtrees_leaf (all.reads (.absent (p := 0) lacks))
  | leaf here isLeaf =>
      obtain ⟨label, rfl, -, -⟩ := leaf?_eq_some isLeaf
      exact Tree.forall_subtrees_leaf (all.reads (.leaf (p := 0) here isLeaf))
  | tooDeep here kind deep =>
      exact Tree.forall_subtrees_leaf (all.reads (.tooDeep (p := 0) here kind deep))
  | @parens _ _ _ _ token _ body close here kind shallow inner stops closes ih =>
      have opening := Tree.forall_subtrees_leaf (all.token "(" (by decide) token.range)
      have closed : ∀ u ∈ close.subtrees, P u := by
        rcases closing_cases closes with ⟨range, _, -, rfl, -⟩ | ⟨-, rfl, -⟩
        · exact Tree.forall_subtrees_leaf (all.token ")" (by decide) range)
        · exact Tree.forall_subtrees_leaf (all.absent _)
      refine Rose.forall_subtrees_node.2
        ⟨all.reads (.parens (p := 0) here kind shallow inner stops closes), ?_⟩
      simpa only [List.forall_mem_cons, List.not_mem_nil, false_implies, implies_true, and_true]
        using ⟨opening, ih, closed⟩
  | @binary _ _ _ _ left right op range _ first here strong second stops ihLeft ihRight =>
      have symbol := Tree.forall_subtrees_leaf (all.token op.symbol op.symbol_mem range)
      refine Rose.forall_subtrees_node.2 ⟨all.reads (.binary first here strong second stops), ?_⟩
      simpa only [List.forall_mem_cons, List.not_mem_nil, false_implies, implies_true, and_true]
        using ⟨Tree.forall_subtrees_withField (all.field "left") ihLeft, symbol,
          Tree.forall_subtrees_withField (all.field "right") ihRight⟩

theorem ReadsOthers.forall_subtrees {P : Tree → Prop} (all : Throughout P) {c c' : Cursor}
    {ts : List Tree} (h : ReadsOthers c ts c') : ∀ t ∈ ts, ∀ u ∈ t.subtrees, P u := by
  induction h with
  | done => simp
  | @close _ _ range _ _ _ _ ih =>
      exact List.forall_mem_cons.2
        ⟨Tree.forall_subtrees_leaf (all.token ")" (by decide) range), ih⟩
  | expression _ read _ _ ih =>
      exact List.forall_mem_cons.2 ⟨read.forall_subtrees all, ih⟩

/-! ## A node and the nodes right below it -/

/-- The operands of an operator are told apart by their fields and bind at least as
tightly as their places demand; no other node has a field, and parentheses hold one
expression. -/
structure Formed (t : Tree) : Prop where
  binary : ∀ op : Operator, t.value.kind = op.kind → ∃ (left : Tree) (range : ByteRange)
      (right : Tree),
    t.children =
      [left.withField "left", anonymousLeaf op.symbol range, right.withField "right"] ∧
    (∀ other : Operator, left.value.kind = other.kind → op.power ≤ other.power) ∧
    ∀ other : Operator, right.value.kind = other.kind → op.power < other.power
  plain : (∀ op : Operator, t.value.kind ≠ op.kind) →
    ∀ child ∈ t.children, child.value.field = none
  parens : t.value.kind = "parenthesized_expression" → ∃ (opening : ByteRange)
      (body close : Tree),
    t.children = [anonymousLeaf "(" opening, body, close] ∧
    body.value.kind ∈ expressionKinds ∧ body.value.named = true ∧
    ((∃ range, close = anonymousLeaf ")" range) ∨ ∃ offset, close = .missing ")" false offset)

theorem formed_of_plain {t : Tree} (kind : t.value.kind ∈ leafKinds ++ symbols ++ ["expression"])
    (fields : ∀ child ∈ t.children, child.value.field = none) : Formed t where
  binary op same := by
    rw [same] at kind
    exact absurd kind (by cases op <;> decide)
  plain _ := fields
  parens same := by
    rw [same] at kind
    exact absurd kind (by decide)

theorem Formed.withField {t : Tree} (h : Formed t) (name : String) :
    Formed (t.withField name) where
  binary := by simpa using h.binary
  plain := by simpa using h.plain
  parens := by simpa using h.parens

theorem Reads.root {p : Nat} {c c' : Cursor} {t : Tree} (h : Reads p c t c') :
    (∃ label, t = .leaf label ∧ label.kind ∈ leafKinds ∧ label.named = true ∧
      label.field = none) ∨
    (∃ opening body close start stop,
      t = .branch "parenthesized_expression" [anonymousLeaf "(" opening, body, close] ∧
      Reads 1 start body stop ∧
      ((∃ range, close = anonymousLeaf ")" range) ∨ ∃ offset, close = .missing ")" false offset)) ∨
    ∃ op left range right middle rest, t = Arith.binary op left range right ∧
      Reads p c left middle ∧ middle.rest = ⟨.operator op, range⟩ :: rest ∧ p ≤ op.power ∧
      Reads (op.power + 1) (middle.consume ⟨.operator op, range⟩ rest) right c' ∧
      c'.Stops (op.power + 1) := by
  cases h with
  | absent => exact Or.inl ⟨_, rfl, by simp [leafKinds], rfl, rfl⟩
  | leaf _ isLeaf =>
      unfold leaf? at isLeaf
      split at isLeaf <;> cases isLeaf <;>
        exact Or.inl ⟨_, rfl, by simp [leafKinds], rfl, rfl⟩
  | tooDeep => exact Or.inl ⟨_, rfl, by simp [leafKinds], rfl, rfl⟩
  | parens _ _ _ inner _ closes =>
      refine Or.inr (Or.inl ⟨_, _, _, _, _, rfl, inner, ?_⟩)
      rcases closing_cases closes with ⟨range, _, -, rfl, -⟩ | ⟨-, rfl, -⟩
      · exact Or.inl ⟨range, rfl⟩
      · exact Or.inr ⟨_, rfl⟩
  | binary first here strong second stops =>
      exact Or.inr (Or.inr ⟨_, _, _, _, _, _, rfl, first, here, strong, second, stops⟩)

theorem Reads.value {p : Nat} {c c' : Cursor} {t : Tree} (h : Reads p c t c') :
    t.value.kind ∈ expressionKinds ∧ t.value.named = true ∧ t.value.field = none := by
  rcases h.root with ⟨label, rfl, kind, named, field⟩ | ⟨_, _, _, _, _, rfl, -⟩ |
    ⟨op, left, range, right, _, _, rfl, -⟩
  · exact ⟨List.mem_append_left _ kind, named, field⟩
  · exact ⟨show "parenthesized_expression" ∈ expressionKinds by decide, rfl, rfl⟩
  · refine ⟨show op.kind ∈ expressionKinds from ?_, rfl, rfl⟩
    cases op <;> decide

theorem Reads.power {p : Nat} {c c' : Cursor} {t : Tree} (h : Reads p c t c') {op : Operator}
    (kind : t.value.kind = op.kind) : p ≤ op.power ∧ c'.Stops (op.power + 1) := by
  have other := op.kind_not_mem
  rcases h.root with ⟨label, rfl, same, -⟩ | ⟨_, _, _, _, _, rfl, -⟩ |
    ⟨op', _, _, _, _, _, rfl, -, -, strong, -, stops⟩
  · have same : op.kind ∈ leafKinds := kind ▸ same
    exact absurd same (by simp_all)
  · have same : "parenthesized_expression" = op.kind := kind
    simp [← same] at other
  · obtain rfl : op' = op := Operator.eq_of_kind kind
    exact ⟨strong, stops⟩

theorem formed_leaf {label : Label} (kind : label.kind ∈ leafKinds ++ symbols) :
    Formed (.leaf label) :=
  formed_of_plain (List.mem_append_left _ kind) (by simp [Tree.leaf, Rose.children])

theorem Reads.formed {p : Nat} {c c' : Cursor} {t : Tree} (h : Reads p c t c') : Formed t := by
  rcases h.root with ⟨label, rfl, kind, -⟩ | ⟨opening, body, close, _, _, rfl, inner, closed⟩ |
    ⟨op, left, range, right, _, _, rfl, first, here, -, second, -⟩
  · exact formed_leaf (List.mem_append_left _ kind)
  · obtain ⟨kind, named, field⟩ := inner.value
    refine ⟨?_, ?_, fun _ => ⟨opening, body, close, rfl, kind, named, closed⟩⟩
    · intro op same
      have same : "parenthesized_expression" = op.kind := same
      exact absurd op.kind_not_mem (by simp [← same])
    · intro _ child mem
      simp only [Tree.branch, Rose.children, List.mem_cons, List.not_mem_nil, or_false] at mem
      rcases mem with rfl | rfl | rfl
      · rfl
      · exact field
      · rcases closed with ⟨range, rfl⟩ | ⟨offset, rfl⟩ <;> rfl
  · refine ⟨?_, fun noOperator => absurd rfl (noOperator op), ?_⟩
    · intro op' same
      obtain rfl : op = op' := Operator.eq_of_kind same
      refine ⟨left, range, right, rfl, ?_, fun other kind => (second.power kind).1⟩
      intro other kind
      have stops := (first.power kind).2 op range _ here
      omega
    · intro same
      have same : op.kind = "parenthesized_expression" := same
      exact absurd op.kind_not_mem (by simp [same])

theorem throughout_formed : Throughout Formed where
  reads := Reads.formed
  field name _ h := h.withField name
  token _ known _ := formed_leaf (List.mem_append_right _ known)
  absent _ := formed_leaf (show ")" ∈ leafKinds ++ symbols by decide)

theorem throughout_error : Throughout fun t => t.value.kind = "ERROR" → t.children = [] where
  reads read kind := by
    rcases read.root with ⟨label, rfl, -⟩ | ⟨_, _, _, _, _, rfl, -⟩ | ⟨op, _, _, _, _, _, rfl, -⟩
    · rfl
    · exact absurd (show "parenthesized_expression" = "ERROR" from kind) (by decide)
    · have same : op.kind = "ERROR" := kind
      exact absurd op.kind_not_mem (by simp [same, leafKinds])
  field _ _ h := by simpa using h
  token _ _ _ _ := rfl
  absent _ _ := rfl

theorem ReadsOthers.field {c c' : Cursor} {ts : List Tree} (h : ReadsOthers c ts c') :
    ∀ t ∈ ts, t.value.field = none := by
  induction h with
  | done => simp
  | close _ _ ih => exact List.forall_mem_cons.2 ⟨rfl, ih⟩
  | expression _ read _ _ ih => exact List.forall_mem_cons.2 ⟨read.value.2.2, ih⟩

/-! ## The whole tree -/

theorem forall_subtrees_parse {P : Tree → Prop} (all : Throughout P) (text : Text)
    (root : ∀ ts : List Tree, (∀ t ∈ ts, t.value.field = none) →
      P (.node { kind := "expression", range := ⟨0, text.width⟩ } ts))
    (error : ∀ ts : List Tree, (∀ t ∈ ts, t.value.field = none) → P (errorBranch ts)) :
    ∀ u ∈ (parse text).subtrees, P u := by
  obtain ⟨first, c₁, others, c₂, read, -, leftover, whole⟩ :=
    reads_parseTokens (Token.tokenize text) text.width
  have plain : first.value.field = none := read.value.2.2
  have inside := read.forall_subtrees all
  have gathered : ∀ u ∈ (errorBranch others).subtrees, P u :=
    Rose.forall_subtrees_node.2 ⟨error others leftover.field, leftover.forall_subtrees all⟩
  rw [parse, whole]
  refine Rose.forall_subtrees_node.2 ⟨root _ ?_, ?_⟩
  · split
    · exact List.forall_mem_singleton.2 plain
    · exact List.forall_mem_cons.2 ⟨plain, List.forall_mem_singleton.2 rfl⟩
  · split
    · exact List.forall_mem_singleton.2 inside
    · exact List.forall_mem_cons.2 ⟨inside, List.forall_mem_singleton.2 gathered⟩

theorem formed_parse (text : Text) : ∀ u ∈ (parse text).subtrees, Formed u := by
  refine forall_subtrees_parse throughout_formed text (fun ts fields => ?_) fun ts fields => ?_
  · exact formed_of_plain
      (show "expression" ∈ leafKinds ++ symbols ++ ["expression"] by decide) fields
  · exact formed_of_plain
      (show "ERROR" ∈ leafKinds ++ symbols ++ ["expression"] by decide) fields

theorem formed_unfold (text : Text) {id : Nat} (inside : id < (arena text).size) :
    Formed ((arena text).unfold id) :=
  formed_parse text _ (Arena.unfold_mem_subtrees (sound_parse text).1.within inside)

theorem Formed.operands {a : Arena} {id : Nat} (h : Formed (a.unfold id)) {op : Operator}
    (kind : (a.label id).kind = op.kind) :
    ∃ l s r, a.children id = [l, s, r] ∧ (a.label l).field = some "left" ∧
      a.label s = { kind := op.symbol, named := false, range := a.range s } ∧
      a.children s = [] ∧ (a.label r).field = some "right" ∧
      (∀ other : Operator, (a.label l).kind = other.kind → op.power ≤ other.power) ∧
      ∀ other : Operator, (a.label r).kind = other.kind → op.power < other.power := by
  rw [← a.value_unfold] at kind
  obtain ⟨left, range, right, children, below, above⟩ := h.binary op kind
  rw [Arena.unfold_eq] at children
  obtain ⟨l, s, r, ids, first, second, third⟩ := exists_three children
  have first := label_of_unfold first
  have third := label_of_unfold third
  obtain ⟨symbol, none⟩ := children_of_unfold second
  refine ⟨l, s, r, ids, by simp [first], ?_, by simpa using none, by simp [third], ?_, ?_⟩
  · rw [Arena.range, symbol]
  · simpa [first] using below
  · simpa [third] using above

theorem Formed.enclosed {a : Arena} {id : Nat} (h : Formed (a.unfold id))
    (kind : (a.label id).kind = "parenthesized_expression") :
    ∃ o b c, a.children id = [o, b, c] ∧
      a.label o = { kind := "(", named := false, range := a.range o } ∧ a.children o = [] ∧
      (a.label b).kind ∈ expressionKinds ∧ (a.label b).named = true ∧
      (∃ missing, a.label c = { kind := ")", named := false, missing, range := a.range c }) ∧
      a.children c = [] := by
  rw [← a.value_unfold] at kind
  obtain ⟨opening, body, close, children, expression, named, closed⟩ := h.parens kind
  rw [Arena.unfold_eq] at children
  obtain ⟨o, b, c, ids, first, second, third⟩ := exists_three children
  have second := label_of_unfold second
  obtain ⟨symbol, none⟩ := children_of_unfold first
  refine ⟨o, b, c, ids, ?_, by simpa using none, second ▸ expression, second ▸ named, ?_⟩
  · rw [Arena.range, symbol]
  · rcases closed with ⟨range, rfl⟩ | ⟨offset, rfl⟩ <;>
      obtain ⟨symbol, none⟩ := children_of_unfold third <;>
      exact ⟨⟨_, by rw [Arena.range, symbol]⟩, by simpa using none⟩

theorem exists_operator_of_sum {kind : String} (h : kind ∈ ["sum", "difference"]) :
    ∃ op : Operator, kind = op.kind ∧ op.power = 1 := by
  simp only [List.mem_cons, List.not_mem_nil, or_false] at h
  rcases h with rfl | rfl
  · exact ⟨.add, rfl, rfl⟩
  · exact ⟨.subtract, rfl, rfl⟩

theorem exists_operator_of_product {kind : String} (h : kind ∈ ["product", "quotient"]) :
    ∃ op : Operator, kind = op.kind ∧ op.power = 2 := by
  simp only [List.mem_cons, List.not_mem_nil, or_false] at h
  rcases h with rfl | rfl
  · exact ⟨.multiply, rfl, rfl⟩
  · exact ⟨.divide, rfl, rfl⟩

theorem Formed.power_of_field {a : Arena} {id : Nat} (h : Formed (a.unfold id)) {op : Operator}
    (kind : (a.label id).kind = op.kind) :
    (∀ child ∈ a.childrenByField id "left", ∀ other : Operator,
      (a.label child).kind = other.kind → op.power ≤ other.power) ∧
    ∀ child ∈ a.childrenByField id "right", ∀ other : Operator,
      (a.label child).kind = other.kind → op.power < other.power := by
  obtain ⟨l, s, r, ids, left, symbol, -, right, below, above⟩ := h.operands kind
  have plain : (a.label s).field = none := by rw [symbol]
  constructor
  · intro child mem
    obtain rfl : child = l := by
      simpa [Arena.childrenByField, ids, left, plain, right] using mem
    exact below
  · intro child mem
    obtain rfl : child = r := by
      simpa [Arena.childrenByField, ids, left, plain, right] using mem
    exact above

theorem Formed.operand_of_field {a : Arena} {parent id : Nat} (h : Formed (a.unfold parent))
    (isChild : id ∈ a.children parent) {field : String} (has : (a.label id).field = some field) :
    ∃ (op : Operator) (l s r : Nat), (a.label parent).kind = op.kind ∧
      a.children parent = [l, s, r] ∧ (id = l ∧ field = "left" ∨ id = r ∧ field = "right") := by
  by_cases operator : ∃ op : Operator, (a.label parent).kind = op.kind
  · obtain ⟨op, kind⟩ := operator
    obtain ⟨l, s, r, ids, left, symbol, -, right, -⟩ := h.operands kind
    refine ⟨op, l, s, r, kind, ids, ?_⟩
    rw [ids] at isChild
    simp only [List.mem_cons, List.not_mem_nil, or_false] at isChild
    rcases isChild with rfl | rfl | rfl
    · exact Or.inl ⟨rfl, Option.some.inj (has.symm.trans left)⟩
    · rw [symbol] at has
      cases has
    · exact Or.inr ⟨rfl, Option.some.inj (has.symm.trans right)⟩
  · have plain : (a.unfold id).value.field = none := by
      refine h.plain ?_ _ ?_
      · intro op same
        rw [a.value_unfold] at same
        exact operator ⟨op, same⟩
      · rw [a.unfold_eq, Rose.children]
        exact List.mem_map_of_mem isChild
    rw [a.value_unfold, has] at plain
    cases plain

theorem not_mem_descendants_of_leaves {a : Arena} {top id : Nat}
    (leaves : ∀ u ∈ (a.unfold top).subtrees, u.value.kind = "ERROR" → u.children = [])
    (kind : (a.label id).kind = "ERROR") (parts : a.children id ≠ []) :
    id ∉ a.descendants top := by
  intro below
  have mem : a.unfold id ∈ (a.unfold top).subtrees := by
    rw [Arena.subtrees_unfold]
    exact List.mem_map_of_mem below
  have none := leaves _ mem (by rw [a.value_unfold, kind])
  rw [Arena.unfold_eq, Rose.children, List.map_eq_nil_iff] at none
  exact parts none

/-- An error node with parts is the last of two children of the root, so there is at
most one. -/
theorem children_root_of_error {text : Text} {id : Nat} (inside : id < (arena text).size)
    (kind : ((arena text).label id).kind = "ERROR") (parts : (arena text).children id ≠ []) :
    ∃ first, (arena text).children 0 = [first, id] := by
  obtain ⟨first, c₁, others, c₂, read, -, leftover, whole⟩ :=
    reads_parseTokens (Token.tokenize text) text.width
  obtain ⟨root, children⟩ := children_of_unfold ((unfold_arena text).trans whole)
  have listed : id ∈ (arena text).descendants 0 := by
    rw [descendants_arena]
    exact List.mem_range.2 inside
  have elsewhere : ∀ top, (∀ u ∈ ((arena text).unfold top).subtrees,
      u.value.kind = "ERROR" → u.children = []) → id ∉ (arena text).descendants top :=
    fun top leaves => not_mem_descendants_of_leaves leaves kind parts
  rw [Arena.descendants_eq, List.mem_cons, List.mem_flatMap] at listed
  rcases listed with rfl | ⟨top, isChild, below⟩
  · rw [root] at kind
    exact absurd (show "expression" = "ERROR" from kind) (by decide)
  · cases others with
    | nil =>
        obtain ⟨i, ids, same⟩ := List.map_eq_singleton_iff.1 children
        obtain rfl : top = i := by simpa [ids] using isChild
        exact absurd below (elsewhere top (same ▸ read.forall_subtrees throughout_error))
    | cons t ts =>
        obtain ⟨i, _, ids, same, rest⟩ := List.map_eq_cons_iff.1 children
        obtain ⟨j, rfl, error⟩ := List.map_eq_singleton_iff.1 rest
        obtain rfl | rfl : top = i ∨ top = j := by simpa [ids] using isChild
        · exact absurd below (elsewhere top (same ▸ read.forall_subtrees throughout_error))
        · rw [Arena.descendants_eq, List.mem_cons, List.mem_flatMap] at below
          rcases below with rfl | ⟨part, isPart, below⟩
          · exact ⟨i, ids⟩
          · obtain ⟨-, gathered⟩ := children_of_unfold error
            have mem : (arena text).unfold part ∈ t :: ts := gathered ▸ List.mem_map_of_mem isPart
            exact absurd below
              (elsewhere part (leftover.forall_subtrees throughout_error _ mem))

/-- Operators have two operands under their fields and bind as they should, parentheses
hold one expression, and an error node with parts is what stands behind the first
expression; so there is at most one. -/
structure Shape (a : Arena) : Prop where
  operands : ∀ id < a.size, ∀ op : Operator, (a.label id).kind = op.kind →
    ∃ l s r, a.children id = [l, s, r] ∧ (a.label l).field = some "left" ∧
      a.label s = { kind := op.symbol, named := false, range := a.range s } ∧
      a.children s = [] ∧ (a.label r).field = some "right"
  fields : ∀ id < a.size, ∀ field, (a.label id).field = some field →
    ∃ parent < a.size, ∃ (op : Operator) (l s r : Nat), (a.label parent).kind = op.kind ∧
      a.children parent = [l, s, r] ∧
      (id = l ∧ field = "left" ∨ id = r ∧ field = "right")
  left_of_product : ∀ id < a.size, (a.label id).kind ∈ ["product", "quotient"] →
    ∀ child ∈ a.childrenByField id "left", (a.label child).kind ∉ ["sum", "difference"]
  right_of_sum : ∀ id < a.size, (a.label id).kind ∈ ["sum", "difference"] →
    ∀ child ∈ a.childrenByField id "right", (a.label child).kind ∉ ["sum", "difference"]
  right_of_product : ∀ id < a.size, (a.label id).kind ∈ ["product", "quotient"] →
    ∀ child ∈ a.childrenByField id "right",
      (a.label child).kind ∉ ["sum", "difference", "product", "quotient"]
  parens : ∀ id < a.size, (a.label id).kind = "parenthesized_expression" →
    ∃ o b c, a.children id = [o, b, c] ∧
      a.label o = { kind := "(", named := false, range := a.range o } ∧ a.children o = [] ∧
      (a.label b).kind ∈ expressionKinds ∧ (a.label b).named = true ∧
      (∃ missing, a.label c = { kind := ")", named := false, missing, range := a.range c }) ∧
      a.children c = []
  errors : ∀ id < a.size, (a.label id).kind = "ERROR" → a.children id ≠ [] →
    ∃ first, a.children 0 = [first, id]

/-- Whatever the text, operators and parentheses have their shape. -/
theorem shape_arena (text : Text) : Shape (arena text) where
  operands id inside op kind := by
    obtain ⟨l, s, r, ids, left, symbol, none, right, -⟩ := (formed_unfold text inside).operands kind
    exact ⟨l, s, r, ids, left, symbol, none, right⟩
  fields id inside field has := by
    have listed : id ∈ (arena text).descendants 0 := by
      rw [descendants_arena]
      exact List.mem_range.2 inside
    rcases Arena.exists_parent listed with rfl | ⟨parent, above, isChild⟩
    · have root := label_of_unfold (unfold_arena text)
      rw [root] at has
      cases has
    · rw [descendants_arena, List.mem_range] at above
      exact ⟨parent, above, (formed_unfold text above).operand_of_field isChild has⟩
  left_of_product id inside kind child mem other := by
    obtain ⟨op, same, power⟩ := exists_operator_of_product kind
    obtain ⟨op', same', power'⟩ := exists_operator_of_sum other
    have bound := ((formed_unfold text inside).power_of_field same).1 child mem op' same'
    omega
  right_of_sum id inside kind child mem other := by
    obtain ⟨op, same, power⟩ := exists_operator_of_sum kind
    obtain ⟨op', same', power'⟩ := exists_operator_of_sum other
    have bound := ((formed_unfold text inside).power_of_field same).2 child mem op' same'
    omega
  right_of_product id inside kind child mem other := by
    obtain ⟨op, same, power⟩ := exists_operator_of_product kind
    obtain ⟨op', same', power'⟩ : ∃ op' : Operator,
        ((arena text).label child).kind = op'.kind ∧ op'.power ≤ 2 := by
      rw [show ["sum", "difference", "product", "quotient"] =
        ["sum", "difference"] ++ ["product", "quotient"] from rfl, List.mem_append] at other
      rcases other with sum | product
      · obtain ⟨op', same', power'⟩ := exists_operator_of_sum sum
        exact ⟨op', same', by omega⟩
      · obtain ⟨op', same', power'⟩ := exists_operator_of_product product
        exact ⟨op', same', by omega⟩
    have bound := ((formed_unfold text inside).power_of_field same).2 child mem op' same'
    omega
  parens id inside kind := (formed_unfold text inside).enclosed kind
  errors id inside kind parts := children_root_of_error inside kind parts

end Arith

end ParseTree
