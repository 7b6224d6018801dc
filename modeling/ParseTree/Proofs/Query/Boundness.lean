import Mathlib.Data.List.Nodup
import ParseTree.Proofs.Arith.Geometry
import ParseTree.Proofs.Query.Declarations
import ParseTree.Proofs.Query.Matching
import ParseTree.Proofs.Query.WellFormed

/-!
# Which captures are bound

A match lists the captures of the elements that its embedding uses.  It uses every element
that is reached from the root without an optional element and without a choice on the way,
and of each choice at most one branch.  So the captures of the former are bound in every
match, and of captures in different branches of one choice at most one is.
-/

namespace ParseTree

namespace Query

/-! ## Elements in use -/

/-- Every embedding of the first element lays the second one over some node: on the way to
it there is no optional element and no choice.  A group stands for the element inside it,
so a question mark on either of them counts. -/
inductive Element.Needs : Element → Element → Prop
  | self {e : Element} : Needs e e
  | child {test : KindTest} {children : List Element} {absent : List String} {mark : Mark}
      {e x : Element} :
      e ∈ children → e.mark.optional = false → Needs e x →
      Needs (.node test children absent mark) x

theorem exists_fits_of_childrenFit {a : Arena} {es : List Element} {places : List Placement}
    (fits : ChildrenFit a es places) {e : Element} (mem : e ∈ es)
    (required : e.mark.optional = false) :
    ∃ child inner, e.Fits a child inner ∧
      ∀ entry ∈ e.captured child inner, entry ∈ childrenCaptured es places := by
  induction es generalizing places with
  | nil => cases mem
  | cons f es ih =>
      match places, fits with
      | .skipped :: places, fits =>
          rcases List.mem_cons.1 mem with rfl | later
          · simp [ChildrenFit, required] at fits
          · exact ih fits.2 later
      | .over child inner :: places, fits =>
          rcases List.mem_cons.1 mem with rfl | later
          · exact ⟨child, inner, fits.1, fun entry => List.mem_append_left _⟩
          · obtain ⟨child', inner', inside, captured⟩ := ih fits.2 later
            exact ⟨child', inner', inside, fun entry used =>
              List.mem_append_right _ (captured entry used)⟩

theorem Element.Needs.exists_fits {a : Arena} {e x : Element} (h : e.Needs x) {id : Nat}
    {embedding : Embedding} (fits : e.Fits a id embedding) :
    ∃ node inner, x.Fits a node inner ∧
      ∀ entry ∈ x.captured node inner, entry ∈ e.captured id embedding := by
  induction h generalizing id embedding with
  | self => exact ⟨id, embedding, fits, fun _ used => used⟩
  | child mem required _ ih =>
      match embedding, fits with
      | .node places, fits =>
          obtain ⟨child, inner, below, captured⟩ :=
            exists_fits_of_childrenFit fits.2.2.2.2 mem required
          obtain ⟨node, inner', inside, captured'⟩ := ih below
          exact ⟨node, inner', inside, fun entry used =>
            List.mem_append_left _ (captured entry (captured' entry used))⟩

theorem Element.mem_captured_of_mark {a : Arena} {e : Element} {id : Nat} {x : Embedding}
    (fits : e.Fits a id x) {slot : Nat} (own : slot ∈ e.mark.captures) :
    (slot, id) ∈ e.captured id x := by
  match e, x, fits with
  | .node _ _ _ _, .node _, _ => exact List.mem_append_right _ (List.mem_map_of_mem own)
  | .choice _ _, .choice _ _, _ => exact List.mem_append_right _ (List.mem_map_of_mem own)

/-! ## Parts of an embedding -/

mutual

theorem Element.slots_sublist_of_mem_preorder : ∀ (e : Element) {x : Element},
    x ∈ e.preorder → x.slots.Sublist e.slots
  | .node test children absent mark, x, mem => by
      rcases List.mem_cons.1 mem with rfl | inside
      · exact List.Sublist.refl _
      · exact (slots_sublist_of_mem_preorderAll children inside).trans
          (List.sublist_append_left _ _)
  | .choice branches mark, x, mem => by
      rcases List.mem_cons.1 mem with rfl | inside
      · exact List.Sublist.refl _
      · exact (slots_sublist_of_mem_preorderAll branches inside).trans
          (List.sublist_append_left _ _)

theorem slots_sublist_of_mem_preorderAll : ∀ (es : List Element) {x : Element},
    x ∈ preorderAll es → x.slots.Sublist (slotsAll es)
  | e :: es, x, mem => by
      rcases List.mem_append.1 mem with here | later
      · exact (e.slots_sublist_of_mem_preorder here).trans (List.sublist_append_left _ _)
      · exact (slots_sublist_of_mem_preorderAll es later).trans (List.sublist_append_right _ _)

end

def Element.CapturesPart (x : Element) (captured : List (Nat × Nat)) : Prop :=
  ∃ id inner, ∀ slot ∈ x.slots, ∀ node, (slot, node) ∈ captured →
    (slot, node) ∈ x.captured id inner

section Part

variable {x : Element} {first second : List (Nat × Nat)}

theorem capturesPart_of_disjoint (apart : x.slots.Disjoint (first.map Prod.fst)) :
    x.CapturesPart first :=
  ⟨0, .node [], fun _ inside _ used => absurd (List.mem_map_of_mem used) (apart inside)⟩

theorem Element.CapturesPart.append_left (h : x.CapturesPart first)
    (apart : x.slots.Disjoint (second.map Prod.fst)) : x.CapturesPart (first ++ second) := by
  obtain ⟨id, inner, captures⟩ := h
  refine ⟨id, inner, fun slot inside node used => ?_⟩
  rcases List.mem_append.1 used with here | there
  · exact captures slot inside node here
  · exact absurd (List.mem_map_of_mem there) (apart inside)

theorem Element.CapturesPart.append_right (h : x.CapturesPart second)
    (apart : x.slots.Disjoint (first.map Prod.fst)) : x.CapturesPart (first ++ second) := by
  obtain ⟨id, inner, captures⟩ := h
  refine ⟨id, inner, fun slot inside node used => ?_⟩
  rcases List.mem_append.1 used with there | here
  · exact absurd (List.mem_map_of_mem there) (apart inside)
  · exact captures slot inside node here

end Part

theorem disjoint_of_sublists {xs ys us vs : List Nat} (distinct : (us ++ vs).Nodup)
    (first : xs.Sublist us) (second : ys.Sublist vs) : xs.Disjoint ys :=
  List.disjoint_of_nodup_append ((first.append second).nodup distinct)

mutual

theorem Element.capturesPart : ∀ (e : Element) {x : Element}, x ∈ e.preorder → e.slots.Nodup →
    ∀ (id : Nat) (embedding : Embedding), x.CapturesPart (e.captured id embedding)
  | .node test children absent mark, x, mem, distinct, id, embedding => by
      rcases List.mem_cons.1 mem with rfl | inside
      · exact ⟨id, embedding, fun _ _ _ used => used⟩
      · match embedding with
        | .node places =>
            refine (childrenCapturesPart children inside (List.nodup_append.1 distinct).1
              places).append_left ?_
            refine disjoint_of_sublists distinct (slots_sublist_of_mem_preorderAll children inside) ?_
            simp [Function.comp_def]
        | .choice index branch => exact capturesPart_of_disjoint (by simp [Element.captured])
  | .choice branches mark, x, mem, distinct, id, embedding => by
      rcases List.mem_cons.1 mem with rfl | inside
      · exact ⟨id, embedding, fun _ _ _ used => used⟩
      · match embedding with
        | .node places => exact capturesPart_of_disjoint (by simp [Element.captured])
        | .choice index branch =>
            refine (branchCapturesPart branches inside (List.nodup_append.1 distinct).1 id index
              branch).append_left ?_
            refine disjoint_of_sublists distinct (slots_sublist_of_mem_preorderAll branches inside) ?_
            simp [Function.comp_def]

theorem childrenCapturesPart : ∀ (es : List Element) {x : Element}, x ∈ preorderAll es →
    (slotsAll es).Nodup → ∀ places : List Placement, x.CapturesPart (childrenCaptured es places)
  | e :: es, x, mem, distinct, places => by
      obtain ⟨own, others, -⟩ := List.nodup_append.1 distinct
      match places with
      | [] => exact capturesPart_of_disjoint (by simp [childrenCaptured])
      | .skipped :: places =>
          rcases List.mem_append.1 mem with here | later
          · exact capturesPart_of_disjoint (disjoint_of_sublists distinct
              (e.slots_sublist_of_mem_preorder here) (childrenCaptured_slots_sublist es places))
          · exact childrenCapturesPart es later others places
      | .over child inner :: places =>
          rcases List.mem_append.1 mem with here | later
          · exact (e.capturesPart here own child inner).append_left (disjoint_of_sublists distinct
              (e.slots_sublist_of_mem_preorder here) (childrenCaptured_slots_sublist es places))
          · exact (childrenCapturesPart es later others places).append_right
              (List.disjoint_symm (disjoint_of_sublists distinct
                (e.captured_slots_sublist child inner)
                (slots_sublist_of_mem_preorderAll es later)))

theorem branchCapturesPart : ∀ (es : List Element) {x : Element}, x ∈ preorderAll es →
    (slotsAll es).Nodup → ∀ (id index : Nat) (branch : Embedding),
    x.CapturesPart (branchCaptured id es index branch)
  | e :: es, x, mem, distinct, id, index, branch => by
      obtain ⟨own, others, -⟩ := List.nodup_append.1 distinct
      match index with
      | 0 =>
          rcases List.mem_append.1 mem with here | later
          · exact e.capturesPart here own id branch
          · exact capturesPart_of_disjoint (List.disjoint_symm (disjoint_of_sublists distinct
              (e.captured_slots_sublist id branch) (slots_sublist_of_mem_preorderAll es later)))
      | index + 1 =>
          rcases List.mem_append.1 mem with here | later
          · exact capturesPart_of_disjoint (disjoint_of_sublists distinct
              (e.slots_sublist_of_mem_preorder here)
              (branchCaptured_slots_sublist es id index branch))
          · exact branchCapturesPart es later others id index branch

end

/-! ## Rivals -/

/-- The two slots stand in different branches of one choice. -/
def Element.Rivals (e : Element) (slot other : Nat) : Prop :=
  ∃ branches mark, .choice branches mark ∈ e.preorder ∧
    ∃ (i j : Nat) (first second : Element), i ≠ j ∧ branches[i]? = some first ∧
      branches[j]? = some second ∧ slot ∈ first.slots ∧ other ∈ second.slots

theorem slotsAll_eq_flatMap (es : List Element) : slotsAll es = es.flatMap Element.slots := by
  induction es with
  | nil => rfl
  | cons e es ih => rw [slotsAll, List.flatMap_cons, ih]

theorem mem_slotsAll_of_getElem? {es : List Element} {i : Nat} {e : Element}
    (here : es[i]? = some e) {slot : Nat} (inside : slot ∈ e.slots) : slot ∈ slotsAll es := by
  rw [slotsAll_eq_flatMap]
  exact List.mem_flatMap.2 ⟨e, List.mem_of_getElem? here, inside⟩

theorem index_eq_of_mem_slots {es : List Element} (distinct : (slotsAll es).Nodup) {i j : Nat}
    {first second : Element} (here : es[i]? = some first) (there : es[j]? = some second)
    {slot : Nat} (inFirst : slot ∈ first.slots) (inSecond : slot ∈ second.slots) : i = j := by
  rw [slotsAll_eq_flatMap, List.nodup_flatMap] at distinct
  obtain ⟨inside, rfl⟩ := List.getElem?_eq_some_iff.1 here
  obtain ⟨inside', rfl⟩ := List.getElem?_eq_some_iff.1 there
  have apart := List.pairwise_iff_getElem.1 distinct.2
  rcases Nat.lt_trichotomy i j with before | same | behind
  · exact absurd inSecond (apart i j inside inside' before inFirst)
  · exact same
  · exact absurd inFirst (apart j i inside' inside behind inSecond)

theorem exists_branch_of_branchCaptured {es : List Element} {id index slot node : Nat}
    {branch : Embedding} (mem : (slot, node) ∈ branchCaptured id es index branch) :
    ∃ e, es[index]? = some e ∧ slot ∈ e.slots := by
  induction es generalizing index with
  | nil => simp [branchCaptured] at mem
  | cons e es ih =>
      cases index with
      | zero =>
          refine ⟨e, rfl, (e.captured_slots_sublist id branch).subset ?_⟩
          exact List.mem_map_of_mem mem
      | succ index => exact ih mem

theorem index_eq_of_captured {branches : List Element} {mark : Mark}
    (distinct : (Element.choice branches mark).slots.Nodup) {i : Nat} {e : Element}
    (here : branches[i]? = some e) {slot : Nat} (inside : slot ∈ e.slots) {id index node : Nat}
    {branch : Embedding}
    (bound : (slot, node) ∈ (Element.choice branches mark).captured id (.choice index branch)) :
    i = index := by
  rcases List.mem_append.1 bound with taken | outer
  · obtain ⟨e', there, inside'⟩ := exists_branch_of_branchCaptured taken
    exact index_eq_of_mem_slots (List.nodup_append.1 distinct).1 here there inside inside'
  · obtain ⟨_, marked, same⟩ := List.mem_map.1 outer
    cases same
    have inner := mem_slotsAll_of_getElem? here inside
    exact absurd marked (List.disjoint_of_nodup_append distinct inner)

theorem Element.Rivals.not_both {e : Element} {slot other : Nat} (h : e.Rivals slot other)
    (distinct : e.slots.Nodup) {id : Nat} {x : Embedding} {node node' : Nat}
    (bound : (slot, node) ∈ e.captured id x) : (other, node') ∉ e.captured id x := by
  intro bound'
  obtain ⟨branches, mark, mem, i, j, first, second, differ, here, there, inFirst, inSecond⟩ := h
  obtain ⟨id', inner, captures⟩ := e.capturesPart mem distinct id x
  have bound := captures slot
    (List.mem_append_left _ (mem_slotsAll_of_getElem? here inFirst)) node bound
  have bound' := captures other
    (List.mem_append_left _ (mem_slotsAll_of_getElem? there inSecond)) node' bound'
  have distinct := (e.slots_sublist_of_mem_preorder mem).nodup distinct
  match inner with
  | .choice index branch =>
      exact differ ((index_eq_of_captured distinct here inFirst bound).trans
        (index_eq_of_captured distinct there inSecond bound').symm)

/-! ## Listed captures -/

theorem map_fst_namedCaptures_sublist (names : List String) (b : Bindings) :
    ((namedCaptures names b).map Prod.fst).Sublist names := by
  induction names generalizing b with
  | nil => simp [namedCaptures]
  | cons name names ih =>
      cases b with
      | nil => simp [namedCaptures]
      | cons bound b =>
          cases bound with
          | none => exact (ih b).cons name
          | some node => exact (ih b).cons_cons name

theorem lookup_eq_some_iff_mem {entries : List (String × Nat)}
    (once : (entries.map Prod.fst).Nodup) {name : String} {node : Nat} :
    entries.lookup name = some node ↔ (name, node) ∈ entries := by
  rw [List.lookup_eq_some_iff]
  constructor
  · rintro ⟨before, after, rfl, -⟩
    simp
  · intro mem
    obtain ⟨before, after, rfl⟩ := List.append_of_mem mem
    refine ⟨before, after, rfl, fun entry earlier => ?_⟩
    rw [List.map_append, List.nodup_append] at once
    have differ := once.2.2 entry.1 (List.mem_map_of_mem earlier) name List.mem_cons_self
    simpa using Ne.symm differ

namespace Match

theorem capture_eq_ok_iff {m : Match} (once : (m.captures.map Prod.fst).Nodup) {name : String}
    {node : Nat} : m.capture name = .ok node ↔ (name, node) ∈ m.captures := by
  rw [← lookup_eq_some_iff_mem once, capture]
  cases m.captures.lookup name <;> simp

theorem capture_eq_error_iff {m : Match} {name : String} :
    m.capture name = .error (.captureNotFound name) ↔ name ∉ m.captures.map Prod.fst := by
  have listed : m.captures.lookup name = none ↔ name ∉ m.captures.map Prod.fst := by
    rw [List.lookup_eq_none_iff]
    constructor
    · intro others mem
      obtain ⟨entry, found, rfl⟩ := List.mem_map.1 mem
      simpa using others entry found
    · intro absent entry found
      refine bne_iff_ne.2 ?_
      rintro rfl
      exact absent (List.mem_map_of_mem found)
  rw [← listed, capture]
  cases m.captures.lookup name <;> simp

structure CapturesSound (m : Match) (a : Arena) (p : Pattern) : Prop where
  ordered : (m.captures.map Prod.fst).Sublist p.captureNames
  once : (m.captures.map Prod.fst).Nodup
  below : ∀ entry ∈ m.captures, entry.2 ∈ a.descendants m.node
  within : ∀ entry ∈ m.captures, (a.range m.node).start ≤ (a.range entry.2).start ∧
    (a.range entry.2).stop ≤ (a.range m.node).stop
  needed : ∀ e, p.root.Needs e → ∀ slot ∈ e.mark.captures,
    ∃ name node, p.captureNames[slot]? = some name ∧ m.capture name = .ok node
  rivals : ∀ slot other, p.root.Rivals slot other →
    ∀ name ∈ p.captureNames[slot]?, ∀ name' ∈ p.captureNames[other]?,
      name ∈ m.captures.map Prod.fst → name' ∉ m.captures.map Prod.fst
  found : ∀ name node, m.capture name = .ok node ↔ (name, node) ∈ m.captures
  unlisted : ∀ name,
    m.capture name = .error (.captureNotFound name) ↔ name ∉ m.captures.map Prod.fst

end Match

theorem capturesSound_of_matchAt {v : Vocabulary} {source : Text} {patterns : List Pattern}
    (compiled : compile v source = .ok patterns) {p : Pattern} (mem : p ∈ patterns)
    (wellFormed : p.WellFormed v) {a : Arena} {text : Text} (geometry : a.Geometry text)
    {m : Match} (inside : m.node < a.size) {b : Bindings}
    (matched : p.matchAt a (a.textOf text) m.node = some b)
    (captures : m.captures = namedCaptures p.captureNames b) : m.CapturesSound a p := by
  obtain ⟨x, fits, binds, -⟩ := Pattern.exists_embedding_of_matchAt compiled mem matched
  have ordered : (m.captures.map Prod.fst).Sublist p.captureNames :=
    captures ▸ map_fst_namedCaptures_sublist p.captureNames b
  have once := ordered.nodup wellFormed.distinct
  have listed : ∀ {name : String} {node : Nat}, (name, node) ∈ m.captures ↔
      ∃ slot, p.captureNames[slot]? = some name ∧ (slot, node) ∈ p.root.captured m.node x := by
    intro name node
    rw [captures, mem_namedCaptures_iff]
    simp only [binds.2]
  have captured : ∀ {slot : Nat} {name : String}, p.captureNames[slot]? = some name →
      name ∈ m.captures.map Prod.fst → ∃ node, (slot, node) ∈ p.root.captured m.node x := by
    intro slot name named mem
    obtain ⟨⟨_, node⟩, entry, rfl⟩ := List.mem_map.1 mem
    obtain ⟨slot', named', bound⟩ := listed.1 entry
    obtain ⟨inside, -⟩ := List.getElem?_eq_some_iff.1 named
    obtain rfl := (List.getElem?_inj inside wellFormed.distinct).1 (named.trans named'.symm)
    exact ⟨node, bound⟩
  have distinct : p.root.slots.Nodup := by
    rw [wellFormed.numbered]
    exact List.nodup_range
  have below : ∀ entry ∈ m.captures, entry.2 ∈ a.descendants m.node := by
    rintro ⟨name, node⟩ entry
    obtain ⟨slot, -, captured⟩ := listed.1 entry
    exact p.root.mem_descendants_of_captured fits captured
  constructor
  case ordered => exact ordered
  case once => exact once
  case below => exact below
  case within =>
    intro entry mem
    exact geometry.within_of_mem_descendants inside (below entry mem)
  case needed =>
    intro e needs slot own
    obtain ⟨node, inner, fits', captured⟩ := needs.exists_fits fits
    have bound := captured _ (e.mem_captured_of_mark fits' own)
    have numbered : slot ∈ List.range p.captureNames.length :=
      wellFormed.numbered ▸
        (p.root.captured_slots_sublist m.node x).subset (List.mem_map_of_mem bound)
    have named := List.getElem?_eq_getElem (List.mem_range.1 numbered)
    exact ⟨_, node, named, (Match.capture_eq_ok_iff once).2 (listed.2 ⟨slot, named, bound⟩)⟩
  case rivals =>
    intro slot other rivals name named name' named' first second
    obtain ⟨node, bound⟩ := captured named first
    obtain ⟨node', bound'⟩ := captured named' second
    exact rivals.not_both distinct bound bound'
  case found => exact fun name node => Match.capture_eq_ok_iff once
  case unlisted => exact fun name => Match.capture_eq_error_iff

/-- Every match of a query lists its captures in the order in which the tokens of its
pattern declare them.  Each is bound at or below the node of the match; those that are
needed are bound, and of two rivals at most one is. -/
theorem captures_of_matchesAt {source : Text} {q : Query} (h : ofSource .math source = .ok q) :
    ∃ pieces : List (List Token), Token.significant source = pieces.flatten ∧
      (∀ piece ∈ pieces, IsPattern Vocabulary.math piece) ∧
      q.patterns.map Pattern.captureNames = pieces.map (writtenCaptures false) ∧
      ∀ (text : Text) (id : Nat), id < (Arith.arena text).size → ∀ settings : QuerySettings,
        let a := Arith.arena text
        let found := q.matchesAt a text id settings
        ∀ (index : Nat) (m : Match), found[index]? = some m →
          (∃ p, q.patterns[m.pattern]? = some p ∧ m.CapturesSound a p) ∧
            ∀ name, dig found index name = m.capture name := by
  obtain ⟨compiled, -⟩ := ofSource_eq_ok_iff.1 h
  have unnamed : Vocabulary.math.hasField "" = false := by decide
  obtain ⟨pieces, split, patterns, names⟩ :=
    ((compile_eq_ok_iff unnamed).1 compiled).1.exists_declaring_pieces unnamed
  refine ⟨pieces, split, patterns, names, ?_⟩
  intro text id inside settings a found index m here
  obtain ⟨sound, whole⟩ := Arith.sound_parse text
  obtain ⟨p, pattern, b, below, matched, captures⟩ :=
    exists_matchAt_of_mem_matchesAt (List.mem_of_getElem? here)
  have mem := List.mem_of_getElem? pattern
  refine ⟨⟨p, pattern, ?_⟩, ?_⟩
  · exact capturesSound_of_matchAt compiled mem (wellFormed_of_compile unnamed compiled mem)
      (sound.geometry whole) (Arena.lt_size_of_mem_descendants inside below) matched captures
  · intro name
    rw [dig, here]

/-- The second branch of the choice is taken.  The optional element behind it takes the
right operand first and has to be left out in the end. -/
theorem captures_of_matchesAt_choice :
    let right : Element := .node .anyNamed [] [] { field := some "right", captures := [5] }
    let p : Pattern :=
      { root := .node (.named "sum")
          [.choice
              [.node (.named "number") [] [] { captures := [0] },
                .node (.named "product")
                  [.node (.named "number") [] [] { optional := true, captures := [1] }] []
                  { captures := [2] }]
              { field := some "left", captures := [3] },
            .node .anyNamed [] [] { optional := true, captures := [4] }, right]
          [] { captures := [6] }
        captureNames := ["n", "f", "p", "l", "o", "r", "s"]
        predicates := []
        start := 0 }
    let q : Query :=
      { language := .math
        source := Text.ofString
          "(sum left: [(number) @n (product (number)? @f) @p] @l (_)? @o right: (_) @r) @s"
        patterns := [p] }
    let text := Text.ofString "2*3+4"
    let a := Arith.arena text
    let found := q.matchesAt a text 0 {}
    let m : Match := ⟨0, 1, [("f", 3), ("p", 2), ("l", 2), ("r", 7), ("s", 1)]⟩
    ofSource .math q.source = .ok q ∧ 0 < a.size ∧ found[0]? = some m ∧
      p.root.Needs right ∧ p.root.Rivals 0 1 ∧ m.CapturesSound a p ∧
      dig found 0 "r" = .ok 7 ∧ dig found 0 "n" = .error (.captureNotFound "n") := by
  intro right p q text a found m
  have compiled : ofSource .math q.source = .ok q := rfl
  have inside : 0 < a.size := a.nonempty
  have first : found[0]? = some m := by decide +kernel
  have needs : p.root.Needs right := .child (by simp) rfl .self
  have rivals : p.root.Rivals 0 1 :=
    ⟨_, _, List.mem_cons_of_mem _ List.mem_cons_self, 0, 1, _, _, Nat.zero_ne_one, rfl, rfl,
      by decide, by decide⟩
  obtain ⟨pieces, -, -, -, sound⟩ := captures_of_matchesAt compiled
  obtain ⟨⟨p', listed, captures⟩, digs⟩ := sound text 0 inside {} 0 m first
  obtain rfl : p = p' := Option.some.inj listed
  refine ⟨compiled, inside, first, needs, rivals, captures, ?_, ?_⟩
  · exact (digs "r").trans ((captures.found "r" 7).2 (by simp [m]))
  · exact (digs "n").trans ((captures.unlisted "n").2 (by simp [m]))

end Query

end ParseTree
