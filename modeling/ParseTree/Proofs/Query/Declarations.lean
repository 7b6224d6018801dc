import ParseTree.Proofs.Query.Acceptance

/-!
# The captures that a query declares

Its nesting forgotten, a query is a row of predicates, of captures behind elements and of
other signs.  A pattern declares the captures outside of its predicates, in the order in
which they are written.
-/

namespace ParseTree.Query

/-- The names of the captures that stand in no predicate.  No parenthesis opens inside a
predicate, so one ends at the first that closes. -/
def writtenCaptures : (inPredicate : Bool) → List Token → List String
  | _, [] => []
  | inPredicate, t :: ts =>
      match t.kind with
      | .predicate => writtenCaptures true ts
      | .parenClose => writtenCaptures false ts
      | .capture =>
          if inPredicate then writtenCaptures true ts
          else t.nameAfterSign :: writtenCaptures false ts
      | _ => writtenCaptures inPredicate ts

/-- A part of a query without its nesting, and the names it declares. -/
inductive Outline : List Token → List String → Prop
  | nil : Outline [] []
  | sign {t : Token} {ts : List Token} {names : List String} :
      t.kind ∉ [.capture, .predicate, .garbage] → Outline ts names → Outline (t :: ts) names
  | capture {t : Token} {ts : List Token} {names : List String} :
      t.kind = .capture → Outline ts names → Outline (t :: ts) (t.nameAfterSign :: names)
  | predicate {ts us : List Token} {ms : List Mention} {names : List String} :
      IsPredicate ts ms → Outline us names → Outline (ts ++ us) names

namespace Outline

theorem append {ts us : List Token} {names others : List String} (h : Outline ts names)
    (h' : Outline us others) : Outline (ts ++ us) (names ++ others) := by
  induction h with
  | nil => exact h'
  | sign kind _ ih => exact .sign kind ih
  | capture kind _ ih => exact .capture kind ih
  | predicate predicate _ ih =>
      rw [List.append_assoc]
      exact .predicate predicate ih

theorem snoc {ts : List Token} {names : List String} {t : Token} (h : Outline ts names)
    (kind : t.kind ∉ [.capture, .predicate, .garbage]) : Outline (ts ++ [t]) names := by
  have whole := h.append (.sign kind .nil)
  rwa [List.append_nil] at whole

theorem isGarbage {ts : List Token} {names : List String} (h : Outline ts names) :
    ∀ t ∈ ts, t.isGarbage = false := by
  induction h with
  | nil => simp
  | sign kind _ ih =>
      refine List.forall_mem_cons.2 ⟨?_, ih⟩
      simp only [List.mem_cons, not_or] at kind
      simpa [Token.isGarbage] using kind.2.2.1
  | capture kind _ ih => exact List.forall_mem_cons.2 ⟨by simp [Token.isGarbage, kind], ih⟩
  | predicate predicate _ ih =>
      refine List.forall_mem_append.2 ⟨?_, ih⟩
      cases predicate <;> simp_all [Token.isGarbage]

theorem writtenCaptures_eq {ts : List Token} {names : List String} (h : Outline ts names) :
    writtenCaptures false ts = names := by
  induction h with
  | nil => rfl
  | @sign t ts names kind _ ih =>
      rw [writtenCaptures]
      split <;> simp_all
  | capture kind _ ih => simp [writtenCaptures, kind, ih]
  | predicate predicate _ ih =>
      cases predicate with
      | withCapture opens isHead _ first second closes =>
          simp [writtenCaptures, opens, isHead, first, second, closes, ih]
      | withText opens isHead _ first second closes =>
          simp [writtenCaptures, opens, isHead, first, second, closes, ih]

end Outline

theorem outline_captures {captures : List Token} (all : ∀ t ∈ captures, t.kind = .capture) :
    Outline captures (captures.map Token.nameAfterSign) := by
  induction captures with
  | nil => exact .nil
  | cons t captures ih =>
      obtain ⟨first, others⟩ := List.forall_mem_cons.1 all
      exact .capture first (ih others)

theorem IsPredicate.declared_eq {ts : List Token} {ms : List Mention} (h : IsPredicate ts ms) :
    declared ms = [] := by
  cases h <;> rfl

theorem IsPredicates.outline {ts : List Token} {ms : List Mention} (h : IsPredicates ts ms) :
    Outline ts (declared ms) := by
  induction h with
  | nil => exact .nil
  | cons predicate _ ih =>
      rw [declared_append, predicate.declared_eq]
      exact .predicate predicate ih

theorem IsKind.outline {following ts : List Token} {ms : List Mention}
    (h : IsKind following ts ms) : Outline ts (declared ms) := by
  cases h with
  | word kind | named kind | missing kind => exact .sign (by simp [kind]) .nil
  | missingNamed kind _ kind' | missingText kind _ kind' =>
      exact .sign (by simp [kind]) (.sign (by simp [kind']) .nil)

mutual

theorem IsElement.outline : ∀ {ts : List Token} {ms : List Mention} {optional : Bool},
    IsElement ts ms optional → Outline ts (declared ms)
  | _, _, _, .plain marked => marked.outline
  | _, _, _, .field isName isColon marked =>
      .sign (by simp [isName]) (.sign (by simp [isColon]) marked.outline)

theorem IsMarked.outline : ∀ {ts : List Token} {ms : List Mention} {optional : Bool},
    IsMarked ts ms optional → Outline ts (declared ms)
  | _, _, _, .plain atom captures => by
      rw [declared_append, declared_captures]
      exact atom.outline.append (outline_captures captures)
  | _, _, _, .optional atom question captures => by
      rw [declared_append, declared_captures]
      exact atom.outline.append (.sign (by simp [question]) (outline_captures captures))

theorem IsAtom.outline : ∀ {ts : List Token} {ms : List Mention} {optional : Bool},
    IsAtom ts ms optional → Outline ts (declared ms)
  | _, _, _, .wildcard kind _ | _, _, _, .string kind => .sign (by simp [kind]) .nil
  | _, _, _, .choice opens branches _ closes =>
      .sign (by simp [opens]) (branches.outline.snoc (by simp [closes]))
  | _, _, _, .node opens kind items closes => by
      rw [declared_append]
      exact .sign (by simp [opens])
        (kind.outline.append (items.outline.snoc (by simp [closes])))
  | _, _, _, .group opens before body after closes _ => by
      rw [declared_append, declared_append]
      exact .sign (by simp [opens]) (before.outline.append
        (body.outline.append (after.outline.snoc (by simp [closes]))))

theorem IsItems.outline : ∀ {ts : List Token} {ms : List Mention},
    IsItems ts ms → Outline ts (declared ms)
  | _, _, .nil => .nil
  | _, _, .child element items => by
      rw [declared_append]
      exact element.outline.append items.outline
  | _, _, .absent bang isName items =>
      .sign (by simp [bang]) (.sign (by simp [isName]) items.outline)
  | _, _, .predicate predicate items => by
      rw [declared_append, predicate.declared_eq]
      exact .predicate predicate items.outline

theorem IsBranches.outline : ∀ {ts : List Token} {ms : List Mention},
    IsBranches ts ms → Outline ts (declared ms)
  | _, _, .nil => .nil
  | _, _, .cons element branches => by
      rw [declared_append]
      exact element.outline.append branches.outline

end

namespace Read

theorem outline_of_pattern {ctx : Context} (unnamed : ctx.vocabulary.hasField "" = false)
    {tokens rest : List Token} {p : Pattern} (h : pattern ctx tokens = .ok (p, rest)) :
    ∃ piece, tokens = piece ++ rest ∧ IsPattern ctx.vocabulary piece ∧
      Outline piece p.captureNames := by
  obtain ⟨piece, split, isPattern⟩ := isPattern_of_pattern unnamed h
  obtain ⟨s, read, rfl, names, -⟩ := readsElement_of_pattern h
  obtain ⟨ts, ms, consumed, isElement, -⟩ := read.isElement unnamed
  obtain rfl : piece = ts := List.append_cancel_right (split.symm.trans consumed.rest)
  have declares : s.names = declared ms := consumed.names
  rw [← names, declares]
  exact ⟨piece, split, isPattern, isElement.outline⟩

theorem ReadsPatterns.isGarbage {ctx : Context} (unnamed : ctx.vocabulary.hasField "" = false)
    {tokens : List Token} {found : List Pattern} (h : ReadsPatterns ctx tokens found) :
    ∀ t ∈ tokens, t.isGarbage = false := by
  induction h with
  | nil => simp
  | cons read _ ih =>
      obtain ⟨piece, rfl, -, outline⟩ := outline_of_pattern unnamed read
      exact List.forall_mem_append.2 ⟨outline.isGarbage, ih⟩

theorem ReadsPatterns.exists_declaring_pieces {ctx : Context}
    (unnamed : ctx.vocabulary.hasField "" = false) {tokens : List Token} {found : List Pattern}
    (h : ReadsPatterns ctx tokens found) :
    ∃ pieces : List (List Token), tokens = pieces.flatten ∧
      (∀ piece ∈ pieces, IsPattern ctx.vocabulary piece) ∧
      found.map Pattern.captureNames = pieces.map (writtenCaptures false) := by
  induction h with
  | nil => exact ⟨[], rfl, by simp, rfl⟩
  | cons read _ ih =>
      obtain ⟨piece, split, isPattern, outline⟩ := outline_of_pattern unnamed read
      obtain ⟨pieces, rfl, all, same⟩ := ih
      refine ⟨piece :: pieces, split, List.forall_mem_cons.2 ⟨isPattern, all⟩, ?_⟩
      rw [List.map_cons, List.map_cons, outline.writtenCaptures_eq, same]

end Read

end ParseTree.Query
