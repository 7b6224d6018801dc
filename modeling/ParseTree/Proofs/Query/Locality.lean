import Mathlib.Data.List.Basic
import Mathlib.Data.List.Find
import ParseTree.Proofs.Query.Captures
import ParseTree.Proofs.Query.Selection

/-!
# Matches in a subtree

A query that is run from a node finds there what it finds in the whole tree: its matches
are a block of those found from the root.  What lies above or beside the node has no part
in this.  Two trees that agree at and below a node give the same matches from there.
-/

namespace ParseTree

namespace Arena

/-- At and below the node the two arenas, each over its text, cannot be told apart. -/
def AgreesBelow (a : Arena) (text : Text) (b : Arena) (other : Text) (id : Nat) : Prop :=
  ∀ node ∈ a.descendants id, b.label node = a.label node ∧ b.children node = a.children node ∧
    b.textOf other node = a.textOf text node

variable {a b : Arena} {text other : Text} {id : Nat}

theorem AgreesBelow.label (h : a.AgreesBelow text b other id) : b.label id = a.label id :=
  (h id (a.self_mem_descendants id)).1

theorem AgreesBelow.children (h : a.AgreesBelow text b other id) : b.children id = a.children id :=
  (h id (a.self_mem_descendants id)).2.1

theorem AgreesBelow.of_child (h : a.AgreesBelow text b other id) {child : Nat}
    (isChild : child ∈ a.children id) : a.AgreesBelow text b other child :=
  fun node below => h node (mem_descendants_of_child isChild below)

theorem AgreesBelow.of_mem (h : a.AgreesBelow text b other id) {node : Nat}
    (below : node ∈ a.descendants id) : a.AgreesBelow text b other node :=
  descendants_induction (P := a.AgreesBelow text b other)
    (fun _ agrees _ isChild => agrees.of_child isChild) h below

theorem AgreesBelow.descendants_eq (h : a.AgreesBelow text b other id) :
    b.descendants id = a.descendants id := by
  induction id using children_induction (a := a) with
  | step id ih =>
      rw [b.descendants_eq, a.descendants_eq, h.children]
      congr 1
      apply List.flatMap_congr
      intro child isChild
      exact ih child isChild (h.of_child isChild)

end Arena

namespace Query

variable {a b : Arena} {text other : Text}

theorem mem_of_mem_splits {x : α} {xs rest : List α} (h : (x, rest) ∈ splits xs) :
    x ∈ xs ∧ rest ⊆ xs := by
  induction xs with
  | nil => cases h
  | cons y xs ih =>
      rcases List.mem_cons.1 h with here | later
      · cases here
        exact ⟨List.mem_cons_self, List.subset_cons_self _ _⟩
      · obtain ⟨mem, inside⟩ := ih later
        exact ⟨List.mem_cons_of_mem _ mem, fun z found => List.mem_cons_of_mem _ (inside found)⟩

theorem lacksFields_congr {id : Nat} (agrees : a.AgreesBelow text b other id)
    (fields : List String) : lacksFields b id fields = lacksFields a id fields := by
  unfold lacksFields Arena.childrenByField
  rw [agrees.children]
  refine List.all_congr rfl fun field => congrArg List.isEmpty (List.filter_congr ?_)
  intro child isChild
  rw [(agrees.of_child isChild).label]

mutual

theorem Element.embeddings_congr : ∀ (e : Element) {id : Nat},
    a.AgreesBelow text b other id → e.embeddings b id = e.embeddings a id
  | .node test children absent mark, id, agrees => by
      rw [Element.embeddings, Element.embeddings, agrees.label, agrees.children,
        lacksFields_congr agrees, placements_congr children fun child => agrees.of_child]
  | .choice branches mark, id, agrees => by
      rw [Element.embeddings, Element.embeddings, agrees.label,
        branchEmbeddings_congr branches agrees]

theorem placements_congr : ∀ (es : List Element) {ids : List Nat},
    (∀ id ∈ ids, a.AgreesBelow text b other id) → placements b es ids = placements a es ids
  | [], ids, agree => by rw [placements, placements]
  | e :: es, ids, agree => by
      rw [placements, placements, placements_congr es agree]
      congr 1
      apply List.flatMap_congr
      rintro ⟨child, rest⟩ split
      obtain ⟨mem, inside⟩ := mem_of_mem_splits split
      dsimp only
      rw [e.embeddings_congr (agree child mem),
        placements_congr es fun id found => agree id (inside found)]

theorem branchEmbeddings_congr : ∀ (es : List Element) {id : Nat},
    a.AgreesBelow text b other id → branchEmbeddings b id es = branchEmbeddings a id es
  | [], id, agrees => by rw [branchEmbeddings, branchEmbeddings]
  | e :: es, id, agrees => by
      rw [branchEmbeddings, branchEmbeddings, e.embeddings_congr agrees,
        branchEmbeddings_congr es agrees]

end

theorem Predicate.holds_congr (p : Predicate) {f g : Nat → Text} {bound : Bindings}
    (same : ∀ slot node, bound.get? slot = some node → f node = g node) :
    p.holds f bound = p.holds g bound := by
  unfold Predicate.holds
  cases first : bound.get? p.capture with
  | none => rfl
  | some node =>
      cases p.operand with
      | text t => simp only [same _ _ first]
      | capture slot =>
          cases second : bound.get? slot with
          | none => simp only [second]
          | some compared => simp only [second, same _ _ first, same _ _ second]

theorem Pattern.mem_descendants_of_mem_bindings {p : Pattern} {id : Nat} {bound : Bindings}
    (listed : bound ∈ p.bindings a id) {slot node : Nat} (binds : bound.get? slot = some node) :
    node ∈ a.descendants id := by
  obtain ⟨x, mem, rfl⟩ := List.mem_map.1 listed
  rcases Bindings.mem_of_get?_write binds with captured | unbound
  · exact p.root.mem_descendants_of_captured ((p.root.mem_embeddings_iff a id x).1 mem) captured
  · rw [p.get?_unbound] at unbound
    cases unbound

/-- Predicates compare the texts of captured nodes only, and these are not above the node. -/
theorem Pattern.matchAt_congr (p : Pattern) {id : Nat} (agrees : a.AgreesBelow text b other id) :
    p.matchAt b (b.textOf other) id = p.matchAt a (a.textOf text) id := by
  have same : p.bindings b id = p.bindings a id := by
    rw [bindings, bindings, p.root.embeddings_congr agrees]
  rw [matchAt_eq_find?, matchAt_eq_find?, same]
  apply List.find?_congr
  intro bound listed
  refine List.all_congr rfl fun predicate => predicate.holds_congr ?_
  intro slot node binds
  exact (agrees node (p.mem_descendants_of_mem_bindings listed binds)).2.2

theorem matchesAt_congr (q : Query) {id : Nat} (agrees : a.AgreesBelow text b other id) :
    q.matchesAt b other id {} = q.matchesAt a text id {} := by
  rw [matchesAt_unrestricted, matchesAt_unrestricted, agrees.descendants_eq]
  apply List.flatMap_congr
  intro node below
  simp only [matchesOn, Pattern.matchAt_congr _ (agrees.of_mem below)]

theorem node_mem_descendants_of_mem_matchesAt {q : Query} {id : Nat} {m : Match}
    (mem : m ∈ q.matchesAt a text id {}) : m.node ∈ a.descendants id := by
  rw [matchesAt_unrestricted] at mem
  obtain ⟨node, below, found⟩ := List.mem_flatMap.1 mem
  rwa [node_of_mem_matchesOn found]

theorem exists_block_of_mem_descendants (q : Query) {top id : Nat}
    (distinct : (a.descendants top).Nodup) (below : id ∈ a.descendants top) :
    ∃ before after,
      q.matchesAt a text top {} = before ++ q.matchesAt a text id {} ++ after ∧
        ∀ m ∈ before ++ after, m.node ∉ a.descendants id := by
  obtain ⟨before, after, split⟩ := Arena.descendants_infix below
  refine ⟨before.flatMap (q.matchesOn a text), after.flatMap (q.matchesOn a text), ?_, ?_⟩
  · rw [matchesAt_unrestricted, matchesAt_unrestricted, ← split, List.flatMap_append,
      List.flatMap_append]
  · rw [← split, List.append_assoc, List.nodup_append] at distinct
    obtain ⟨-, rest, apart⟩ := distinct
    intro m mem inside
    rcases List.mem_append.1 mem with front | back
    · obtain ⟨node, listed, found⟩ := List.mem_flatMap.1 front
      rw [node_of_mem_matchesOn found] at inside
      exact apart node listed node (List.mem_append_left _ inside) rfl
    · obtain ⟨node, listed, found⟩ := List.mem_flatMap.1 back
      rw [node_of_mem_matchesOn found] at inside
      exact (List.nodup_append.1 rest).2.2 node inside node listed rfl

/-- The matches found from a node are those of the matches in the whole tree that lie at
or below the node, as one block and with the same captures; and they depend on nothing
else than what is there. -/
theorem matchesAt_local (q : Query) (text : Text) {id : Nat}
    (inside : id < (Arith.arena text).size) :
    let a := Arith.arena text
    (∃ before after,
      q.matchesAt a text 0 {} = before ++ q.matchesAt a text id {} ++ after ∧
        (∀ m ∈ q.matchesAt a text id {}, m.node ∈ a.descendants id) ∧
        ∀ m ∈ before ++ after, m.node ∉ a.descendants id) ∧
      ∀ (b : Arena) (other : Text), a.AgreesBelow text b other id →
        q.matchesAt b other id {} = q.matchesAt a text id {} := by
  intro a
  have numbers : a.descendants 0 = List.range a.size := Arith.descendants_arena text
  have below : id ∈ a.descendants 0 := by
    rw [numbers]
    exact List.mem_range.2 inside
  have distinct : (a.descendants 0).Nodup := by
    rw [numbers]
    exact List.nodup_range
  obtain ⟨before, after, split, elsewhere⟩ := q.exists_block_of_mem_descendants distinct below
  refine ⟨⟨before, after, split, ?_, elsewhere⟩, ?_⟩
  · intro m mem
    exact node_mem_descendants_of_mem_matchesAt mem
  · intro b other agrees
    exact q.matchesAt_congr agrees

/-- The number in front of the product is left out; the operator between them is not seen
from the product. -/
theorem matchesAt_local_product :
    let q : Query :=
      { language := .math
        source := Text.ofString "(number) @n (product left: (_) @l (#eq? @l \"2\")) @p"
        patterns := [
          { root := .node (.named "number") [] [] { captures := [0] }
            captureNames := ["n"]
            predicates := []
            start := 0 },
          { root := .node (.named "product")
              [.node .anyNamed [] [] { field := some "left", captures := [0] }] []
              { captures := [1] }
            captureNames := ["l", "p"]
            predicates := [⟨false, 0, .text ['2']⟩]
            start := 12 }] }
    let text := Text.ofString "1+2*3"
    let other := Text.ofString "1-2*3"
    let a := Arith.arena text
    let b := Arith.arena other
    ofSource .math q.source = .ok q ∧ 4 < a.size ∧ a.AgreesBelow text b other 4 ∧
      q.matchesAt a text 4 {} =
        [⟨1, 4, [("l", 5), ("p", 4)]⟩, ⟨0, 5, [("n", 5)]⟩, ⟨0, 7, [("n", 7)]⟩] ∧
      (∃ before after,
        q.matchesAt a text 0 {} = before ++ q.matchesAt a text 4 {} ++ after) ∧
      q.matchesAt b other 4 {} = q.matchesAt a text 4 {} := by
  intro q text other a b
  have inside : 4 < a.size := by decide +kernel
  have agrees : a.AgreesBelow text b other 4 := by
    unfold Arena.AgreesBelow
    decide +kernel
  obtain ⟨⟨before, after, split, -⟩, elsewhere⟩ := q.matchesAt_local text inside
  exact ⟨rfl, inside, agrees, by decide +kernel, ⟨before, after, split⟩,
    elsewhere b other agrees⟩

end Query

end ParseTree
