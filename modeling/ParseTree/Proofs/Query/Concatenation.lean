import ParseTree.Proofs.Query.Declarations
import ParseTree.Proofs.Query.Literals
import ParseTree.Proofs.Query.Relocation
import ParseTree.Proofs.Query.Selection

/-!
# Queries one below the other

Two queries on lines of their own are one query.  The line between them ends every token
of the first, and what the second begins with prolongs no element of the first, so its
patterns are those of both.  It finds at each node what the first finds and then what the
second finds.
-/

namespace ParseTree

namespace Query

/-! ## Tokens -/

theorem stringBody_append {text : Text} (closed : (stringBody text).1 = true) (more : Text) :
    stringBody (text ++ more) = stringBody text := by
  fun_induction stringBody text with
  | case1 | case2 | case3 => cases closed
  | case4 c rest line inner length same ih =>
      rw [same] at ih
      rw [List.cons_append, List.cons_append, stringBody_escaped line, ih closed]
  | case5 rest noEnd noEscape => rfl
  | case6 c rest noEnd noEscape noQuote inner length same ih =>
      have plain := ne_backslash noEnd noEscape
      rw [same] at ih
      rw [List.cons_append, stringBody_plain noQuote plain, ih closed]

theorem lexicalRule_append {c : Char} {rest : Text} (solid : Text.isLayout c = false)
    (known : (lexicalRule c rest).1 ≠ .garbage) (more : Text) :
    lexicalRule c (rest ++ '\n' :: more) = lexicalRule c rest ∧
      (lexicalRule c rest).2 ≤ rest.length := by
  have taken : ∀ (kind : TokenKind) {p : Char → Bool}, p '\n' = false →
      (kind, ((rest ++ '\n' :: more).takeWhile p).length) = (kind, (rest.takeWhile p).length) ∧
        (rest.takeWhile p).length ≤ rest.length := by
    intro kind p stops
    rw [takeWhile_append_cons stops]
    exact ⟨rfl, (List.takeWhile_sublist p).length_le⟩
  unfold lexicalRule at known ⊢
  simp only [solid, Bool.false_eq_true, if_false] at known ⊢
  by_cases name : isNameChar c = true
  · simp only [name, if_true]
    exact taken .identifier (by decide)
  simp only [name, Bool.false_eq_true, if_false] at known ⊢
  -- captures, predicates, comments and strings; every other sign is one character
  split
  case h_10 => exact taken .capture (by decide)
  case h_11 => exact taken .predicate (by decide)
  case h_12 => exact taken .comment (by decide)
  case h_13 =>
      have closed : (stringBody rest).1 = true := by
        refine Bool.of_not_eq_false fun opened => known ?_
        simp [opened]
      rw [stringBody_append closed]
      exact ⟨rfl, stringBody_le rest⟩
  all_goals exact ⟨rfl, Nat.zero_le _⟩

theorem lexed_cons {c : Char} {rest : Text} {kind : TokenKind} {length : Nat}
    (rule : lexicalRule c rest = (kind, length)) (offset : Nat) :
    lexed offset (c :: rest) =
      [⟨kind, offset, c :: rest.take length⟩].filter (fun t => !Token.isTrivia t) ++
        lexed (offset + Text.width (c :: rest.take length)) (rest.drop length) := by
  rw [lexed, Lexeme.scanFrom_cons rule, ← List.singleton_append, List.filter_append]
  rfl

theorem lexed_append (more : Text) : ∀ (source : Text) {offset : Nat},
    (∀ t ∈ lexed offset source, t.isGarbage = false) →
    lexed offset (source ++ '\n' :: more) =
      lexed offset source ++ lexed (offset + source.width + 1) more
  | [], offset, _ => lexed_layout (by decide) offset more
  | c :: rest, offset, solid => by
      by_cases layout : Text.isLayout c = true
      · rw [lexed_layout layout] at solid ⊢
        rw [List.cons_append, lexed_layout layout, lexed_append more rest solid, Text.width_cons,
          ← Nat.add_assoc]
      · obtain ⟨kind, length, rule⟩ : ∃ kind length, lexicalRule c rest = (kind, length) :=
          ⟨_, _, rfl⟩
        rw [lexed_cons rule] at solid ⊢
        obtain ⟨first, others⟩ := List.forall_mem_append.1 solid
        have known : (lexicalRule c rest).1 ≠ .garbage := by
          rw [rule]
          rintro rfl
          cases first _ List.mem_cons_self
        obtain ⟨same, short⟩ := lexicalRule_append (by simpa using layout) known more
        rw [rule] at same short
        rw [List.cons_append, lexed_cons same, List.take_append_of_le_length short,
          List.drop_append_of_le_length short, lexed_append more (rest.drop length) others,
          List.append_assoc]
        have width : offset + Text.width (c :: rest.take length) + Text.width (rest.drop length) =
            offset + Text.width (c :: rest) := by
          rw [Nat.add_assoc, ← Text.width_append, List.cons_append, List.take_append_drop]
        rw [width]
  termination_by source => source.length

theorem lexed_moved (n : Nat) (source : Text) :
    lexed n source = (lexed 0 source).map (Lexeme.moved n) := by
  have scanned := Lexeme.scanFrom_moved lexicalRule n 0 0 source
  rw [Nat.zero_add] at scanned
  rw [lexed, scanned, List.filter_map]
  rfl

theorem significant_append {first second : Text}
    (solid : ∀ t ∈ Token.significant first, t.isGarbage = false)
    (solid' : ∀ t ∈ Token.significant second, t.isGarbage = false) :
    Token.significant (first ++ '\n' :: second) =
      Token.significant first ++
        (Token.significant second).map (Lexeme.moved (first.width + 1)) := by
  have here := lexed_eq_significant solid
  have there := lexed_eq_significant solid'
  have tokens : lexed 0 (first ++ '\n' :: second) =
      Token.significant first ++
        (Token.significant second).map (Lexeme.moved (first.width + 1)) := by
    rw [lexed_append second first (here ▸ solid), here, Nat.zero_add, lexed_moved, there]
  rw [significant_eq_lexed, tokens]
  rw [tokens]
  refine List.forall_mem_append.2 ⟨solid, ?_⟩
  intro t mem
  obtain ⟨u, listed, rfl⟩ := List.mem_map.1 mem
  exact solid' u listed

/-! ## Patterns -/

theorem compile_append {v : Vocabulary} (unnamed : v.hasField "" = false) {first second : Text}
    {ps qs : List Pattern} (h : compile v first = .ok ps) (h' : compile v second = .ok qs) :
    compile v (first ++ '\n' :: second) =
      .ok (ps ++ qs.map (Pattern.moved (first.width + 1))) := by
  obtain ⟨reads, nonempty⟩ := (compile_eq_ok_iff unnamed).1 h
  obtain ⟨reads', -⟩ := (compile_eq_ok_iff unnamed).1 h'
  have later := reads'.moved (first.width + 1) (Text.width (first ++ '\n' :: second)) unnamed .nil
  rw [List.append_nil, List.append_nil] at later
  have whole := reads.moved 0 _ unnamed later
  rw [Lexeme.moved_zero, List.map_id, Pattern.moved_zero, List.map_id] at whole
  refine (compile_eq_ok_iff unnamed).2 ⟨?_, by simp [nonempty]⟩
  rw [significant_append (reads.isGarbage unnamed) (reads'.isGarbage unnamed)]
  exact whole

/-! ## Matches -/

def Match.behind (n : Nat) (m : Match) : Match := { m with pattern := m.pattern + n }

theorem pattern_lt_of_mem_matchesOn {q : Query} {a : Arena} {text : Text} {node : Nat} {m : Match}
    (mem : m ∈ q.matchesOn a text node) : m.pattern < q.patterns.length := by
  obtain ⟨⟨p, index⟩, listed, found⟩ := List.mem_filterMap.1 mem
  obtain ⟨b, -, rfl⟩ := Option.map_eq_some_iff.1 found
  exact List.snd_lt_of_mem_zipIdx listed

section Matches

variable {p q both : Query} {n : Nat}
  (patterns : both.patterns = p.patterns ++ q.patterns.map (Pattern.moved n))

include patterns

theorem matchesOn_append (a : Arena) (text : Text) (node : Nat) :
    both.matchesOn a text node =
      p.matchesOn a text node ++
        (q.matchesOn a text node).map (Match.behind p.patterns.length) := by
  have later : (q.patterns.map (Pattern.moved n)).zipIdx (0 + p.patterns.length) =
      q.patterns.zipIdx.map fun x => (x.1.moved n, x.2 + p.patterns.length) := by
    rw [List.zipIdx_map, List.zipIdx_eq_map_add, List.map_map, Nat.zero_add]
    refine List.map_congr_left fun x _ => ?_
    exact congrArg (Prod.mk (x.1.moved n)) (Nat.add_comm _ _)
  rw [matchesOn, patterns, List.zipIdx_append, List.filterMap_append, later, List.filterMap_map,
    matchesOn, matchesOn, List.map_filterMap]
  refine congrArg _ (List.filterMap_congr fun x _ => ?_)
  rw [Option.map_map]
  rfl

theorem filter_matchesOn (a : Arena) (text : Text) (node : Nat) :
    (both.matchesOn a text node).filter (fun m => m.pattern < p.patterns.length) =
        p.matchesOn a text node ∧
      (both.matchesOn a text node).filter (fun m => p.patterns.length ≤ m.pattern) =
        (q.matchesOn a text node).map (Match.behind p.patterns.length) := by
  have front : ∀ m ∈ p.matchesOn a text node, m.pattern < p.patterns.length :=
    fun m => pattern_lt_of_mem_matchesOn
  have back : ∀ m ∈ (q.matchesOn a text node).map (Match.behind p.patterns.length),
      p.patterns.length ≤ m.pattern := by
    intro m mem
    obtain ⟨m, -, rfl⟩ := List.mem_map.1 mem
    exact Nat.le_add_left _ _
  rw [matchesOn_append patterns, List.filter_append, List.filter_append]
  constructor
  · rw [List.filter_eq_self.2 (by simpa using front), List.filter_eq_nil_iff.2 (by simpa using back),
      List.append_nil]
  · rw [List.filter_eq_nil_iff.2 (by simpa using front), List.filter_eq_self.2 (by simpa using back),
      List.nil_append]

theorem filter_matchesAt (a : Arena) (text : Text) (id : Nat) {settings : QuerySettings}
    (unlimited : settings.matchLimit = none) :
    (both.matchesAt a text id settings).filter (fun m => m.pattern < p.patterns.length) =
        p.matchesAt a text id settings ∧
      (both.matchesAt a text id settings).filter (fun m => p.patterns.length ≤ m.pattern) =
        (q.matchesAt a text id settings).map (Match.behind p.patterns.length) := by
  simp only [matchesAt_eq_atMost, unlimited, atMost, List.filter_flatMap, List.map_flatMap,
    filter_matchesOn patterns, and_self]

end Matches

/-- Two queries, one below the other, are a query with the patterns of both, and it finds
what each of them finds. -/
theorem ofSource_append {first second : Text} {p q : Query} (h : ofSource .math first = .ok p)
    (h' : ofSource .math second = .ok q) :
    ∃ both, ofSource .math (first ++ '\n' :: second) = .ok both ∧
      both.patterns = p.patterns ++ q.patterns.map (Pattern.moved (first.width + 1)) ∧
      ∀ (a : Arena) (text : Text) (id : Nat) (settings : QuerySettings),
        settings.matchLimit = none →
        (both.matchesAt a text id settings).filter (fun m => m.pattern < p.patterns.length) =
            p.matchesAt a text id settings ∧
          ((both.matchesAt a text id settings).filter fun m =>
              p.patterns.length ≤ m.pattern).map
              (fun m => { m with pattern := m.pattern - p.patterns.length }) =
            q.matchesAt a text id settings := by
  have unnamed : Vocabulary.math.hasField "" = false := by decide
  have compiles := compile_append unnamed (ofSource_eq_ok_iff.1 h).1 (ofSource_eq_ok_iff.1 h').1
  refine ⟨⟨.math, _, _⟩, ofSource_eq_ok_iff.2 ⟨compiles, rfl, rfl⟩, rfl, ?_⟩
  intro a text id settings unlimited
  obtain ⟨front, back⟩ := @filter_matchesAt p q ⟨.math, _, _⟩ _ rfl a text id _ unlimited
  refine ⟨front, ?_⟩
  rw [back, List.map_map]
  refine (List.map_congr_left fun m _ => ?_).trans (List.map_id _)
  simp [Match.behind]

/-- The first query ends in a comment, and both use the same name for a capture. -/
theorem ofSource_append_comment :
    let first := Text.ofString "(sum) (number) @x ;x"
    let second := Text.ofString "(sum right: (_) @x)"
    let p : Query :=
      { language := .math
        source := first
        patterns := [
          { root := .node (.named "sum") [] [] {}
            captureNames := []
            predicates := []
            start := 0 },
          { root := .node (.named "number") [] [] { captures := [0] }
            captureNames := ["x"]
            predicates := []
            start := 6 }] }
    let q : Query :=
      { language := .math
        source := second
        patterns := [
          { root := .node (.named "sum")
              [.node .anyNamed [] [] { field := some "right", captures := [0] }] [] {}
            captureNames := ["x"]
            predicates := []
            start := 0 }] }
    let text := Text.ofString "1+2"
    let a := Arith.arena text
    ofSource .math first = .ok p ∧ ofSource .math second = .ok q ∧
      ∃ both, ofSource .math (first ++ '\n' :: second) = .ok both ∧
        both.patterns.map Pattern.start = [0, 6, 21] ∧
        (both.matchesAt a text 0 {}).filter (fun m => m.pattern < 2) =
          [⟨0, 1, []⟩, ⟨1, 2, [("x", 2)]⟩, ⟨1, 4, [("x", 4)]⟩] ∧
        ((both.matchesAt a text 0 {}).filter fun m => 2 ≤ m.pattern).map
          (fun m => { m with pattern := m.pattern - 2 }) = [⟨0, 1, [("x", 4)]⟩] := by
  intro first second p q text a
  have h : ofSource .math first = .ok p := rfl
  have h' : ofSource .math second = .ok q := rfl
  obtain ⟨both, compiles, patterns, finds⟩ := ofSource_append h h'
  obtain ⟨front, back⟩ := finds a text 0 {} rfl
  refine ⟨h, h', both, compiles, by rw [patterns]; rfl, front.trans ?_, back.trans ?_⟩
  · decide +kernel
  · decide +kernel

end Query

end ParseTree
