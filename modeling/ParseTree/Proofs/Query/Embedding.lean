import ParseTree.Query.Match

/-!
# Embeddings of patterns

An embedding says how an element lies over a node, without any search: which
branch of a choice is taken, which child elements are left out and over which
children the others lie.  `Element.Fits` is the condition that an embedding has
to meet, and `Element.captured` lists what it captures.  `Element.embeddings`
enumerates, in the order of the search, exactly the embeddings that fit.
-/

namespace ParseTree.Query

mutual

inductive Embedding where
  | node (places : List Placement)
  | choice (index : Nat) (branch : Embedding)

inductive Placement where
  | skipped
  | over (child : Nat) (inner : Embedding)

end

def Placement.child? : Placement → Option Nat
  | .skipped => none
  | .over child _ => some child

def takenChildren (places : List Placement) : List Nat := places.filterMap Placement.child?

mutual

/-- The embedding lays the element over the node `id`: the field is the node's
own, and either the node passes the test, has no child under an absent field
and its children are taken in order, or the chosen branch lies over the same
node. -/
def Element.Fits (a : Arena) (id : Nat) : Element → Embedding → Prop
  | .node test children absent mark, .node places =>
      (∀ field ∈ mark.field, (a.label id).field = some field) ∧
        test.accepts (a.label id) ∧
        (∀ field ∈ absent, ∀ child ∈ a.children id, (a.label child).field ≠ some field) ∧
        (takenChildren places).Sublist (a.children id) ∧
        ChildrenFit a children places
  | .choice branches mark, .choice index branch =>
      (∀ field ∈ mark.field, (a.label id).field = some field) ∧
        BranchFits a id branches index branch
  | _, _ => False

def ChildrenFit (a : Arena) : List Element → List Placement → Prop
  | [], [] => True
  | e :: es, .skipped :: places => e.mark.optional ∧ ChildrenFit a es places
  | e :: es, .over child inner :: places =>
      e.Fits a child inner ∧ ChildrenFit a es places
  | _, _ => False

def BranchFits (a : Arena) (id : Nat) : List Element → Nat → Embedding → Prop
  | [], _, _ => False
  | e :: _, 0, branch => e.Fits a id branch
  | _ :: es, index + 1, branch => BranchFits a id es index branch

end

mutual

/-- The capture slots of the elements in use, each with the node that its
element lies over; inner elements come first. -/
def Element.captured (id : Nat) : Element → Embedding → List (Nat × Nat)
  | .node _ children _ mark, .node places =>
      childrenCaptured children places ++ mark.captures.map fun slot => (slot, id)
  | .choice branches mark, .choice index branch =>
      branchCaptured id branches index branch ++ mark.captures.map fun slot => (slot, id)
  | _, _ => []

def childrenCaptured : List Element → List Placement → List (Nat × Nat)
  | e :: es, .over child inner :: places =>
      e.captured child inner ++ childrenCaptured es places
  | _ :: es, .skipped :: places => childrenCaptured es places
  | _, _ => []

def branchCaptured (id : Nat) : List Element → Nat → Embedding → List (Nat × Nat)
  | [], _, _ => []
  | e :: _, 0, branch => e.captured id branch
  | _ :: es, index + 1, branch => branchCaptured id es index branch

end

/-- `b` binds the captures of the elements in use to the nodes that these lie
over, and nothing else. -/
def Pattern.Binds (p : Pattern) (id : Nat) (embedding : Embedding) (b : Bindings) : Prop :=
  b.length = p.captureNames.length ∧
    ∀ slot node, b.get? slot = some node ↔ (slot, node) ∈ p.root.captured id embedding

def Operand.text? (textOf : Nat → Text) (b : Bindings) : Operand → Option Text
  | .text t => some t
  | .capture slot => (b.get? slot).map textOf

/-- If all captures that the predicate mentions are bound, the texts are equal
exactly if equality is what it asks for. -/
def Predicate.Satisfied (p : Predicate) (textOf : Nat → Text) (b : Bindings) : Prop :=
  ∀ id ∈ b.get? p.capture, ∀ t ∈ p.operand.text? textOf b,
    textOf id = t ↔ p.negated = false

theorem Predicate.holds_iff_satisfied (p : Predicate) (textOf : Nat → Text) (b : Bindings) :
    p.holds textOf b = true ↔ p.Satisfied textOf b := by
  unfold Predicate.holds Predicate.Satisfied
  cases bound : b.get? p.capture with
  | none => simp
  | some id =>
      cases operand : p.operand with
      | text t => cases p.negated <;> simp [Operand.text?]
      | capture slot =>
          cases other : b.get? slot with
          | none => simp [Operand.text?, other]
          | some node => cases p.negated <;> simp [Operand.text?, other]

theorem Pattern.predicatesHold_iff (p : Pattern) (textOf : Nat → Text) (b : Bindings) :
    p.predicatesHold textOf b = true ↔
      ∀ predicate ∈ p.predicates, predicate.Satisfied textOf b := by
  simp only [predicatesHold, List.all_eq_true, Predicate.holds_iff_satisfied]

/-! ## Enumeration -/

def splits : List α → List (α × List α)
  | [] => []
  | x :: rest => (x, rest) :: splits rest

mutual

def Element.embeddings (a : Arena) (id : Nat) : Element → List Embedding
  | .node test children absent mark =>
      if mark.allows (a.label id) && test.accepts (a.label id) && lacksFields a id absent then
        (placements a children (a.children id)).map .node
      else []
  | .choice branches mark =>
      if mark.allows (a.label id) then
        (branchEmbeddings a id branches).map fun (index, branch) => .choice index branch
      else []

/-- All placements of the elements among the children `ids`.  The first element
takes each child from left to right and, if it is optional, none at last; for
each of its choices the later elements go through all of theirs. -/
def placements (a : Arena) : List Element → List Nat → List (List Placement)
  | [], _ => [[]]
  | e :: es, ids =>
      ((splits ids).flatMap fun (child, rest) =>
        (e.embeddings a child).flatMap fun inner =>
          (placements a es rest).map fun places => .over child inner :: places) ++
      if e.mark.optional then (placements a es ids).map fun places => .skipped :: places
      else []

def branchEmbeddings (a : Arena) (id : Nat) : List Element → List (Nat × Embedding)
  | [] => []
  | e :: es =>
      ((e.embeddings a id).map fun branch => (0, branch)) ++
        (branchEmbeddings a id es).map fun (index, branch) => (index + 1, branch)

end

theorem exists_mem_splits_iff {x : α} {taken ids : List α} :
    (∃ rest, (x, rest) ∈ splits ids ∧ taken.Sublist rest) ↔ (x :: taken).Sublist ids := by
  induction ids with
  | nil => simp [splits]
  | cons y ids ih =>
      constructor
      · rintro ⟨rest, found, sub⟩
        rcases List.mem_cons.1 found with here | later
        · obtain ⟨rfl, rfl⟩ := Prod.mk.inj here
          exact sub.cons_cons x
        · exact (ih.1 ⟨rest, later, sub⟩).cons y
      · intro sub
        cases sub with
        | cons _ later =>
            obtain ⟨rest, found, behind⟩ := ih.2 later
            exact ⟨rest, List.mem_cons_of_mem _ found, behind⟩
        | cons_cons _ behind => exact ⟨ids, List.mem_cons_self, behind⟩

theorem Mark.allows_iff (mark : Mark) (label : Label) :
    mark.allows label = true ↔ ∀ field ∈ mark.field, label.field = some field := by
  cases wanted : mark.field <;> simp [allows, wanted]

theorem lacksFields_iff (a : Arena) (id : Nat) (fields : List String) :
    lacksFields a id fields = true ↔
      ∀ field ∈ fields, ∀ child ∈ a.children id, (a.label child).field ≠ some field := by
  simp [lacksFields, Arena.childrenByField]

mutual

theorem Element.mem_embeddings_iff (a : Arena) : ∀ (e : Element) (id : Nat) (x : Embedding),
    x ∈ e.embeddings a id ↔ e.Fits a id x
  | .node test children absent mark, id, .node places => by
      simp only [Element.embeddings, Element.Fits]
      split
      · rename_i passes
        simp only [Bool.and_eq_true, Mark.allows_iff, lacksFields_iff] at passes
        obtain ⟨⟨allowed, accepted⟩, lacking⟩ := passes
        simp only [List.mem_map, Embedding.node.injEq, exists_eq_right]
        rw [mem_placements_iff a children]
        exact ⟨fun placed => ⟨allowed, accepted, lacking, placed⟩, fun fits => fits.2.2.2⟩
      · rename_i fails
        simp only [Bool.and_eq_true, Mark.allows_iff, lacksFields_iff] at fails
        simp only [List.not_mem_nil, false_iff]
        exact fun fits => fails ⟨⟨fits.1, fits.2.1⟩, fits.2.2.1⟩
  | .node test children absent mark, id, .choice index branch => by
      simp only [Element.embeddings, Element.Fits]
      split <;> simp
  | .choice branches mark, id, .node places => by
      simp only [Element.embeddings, Element.Fits]
      split <;> simp
  | .choice branches mark, id, .choice index branch => by
      simp only [Element.embeddings, Element.Fits, ← Mark.allows_iff]
      split
      · rename_i allowed
        simp [allowed, mem_branchEmbeddings_iff a branches]
      · rename_i refused
        simp [refused]

theorem mem_placements_iff (a : Arena) : ∀ (es : List Element) (ids : List Nat)
    (places : List Placement),
    places ∈ placements a es ids ↔
      (takenChildren places).Sublist ids ∧ ChildrenFit a es places
  | [], ids, [] => by simp [placements, takenChildren, ChildrenFit]
  | [], ids, _ :: _ => by simp [placements, ChildrenFit]
  | e :: es, ids, [] => by
      simp only [placements, ChildrenFit]
      split <;> simp
  | e :: es, ids, .skipped :: places => by
      have others := mem_placements_iff a es ids places
      have same : takenChildren (.skipped :: places) = takenChildren places := rfl
      simp only [placements, ChildrenFit, same]
      split
      · rename_i optional
        simp [optional, others]
      · rename_i required
        simp [required]
  | e :: es, ids, .over child inner :: places => by
      have inside := e.mem_embeddings_iff a child inner
      have behind := fun rest => mem_placements_iff a es rest places
      have taken : takenChildren (.over child inner :: places) =
          child :: takenChildren places := rfl
      have first : .over child inner :: places ∈ placements a (e :: es) ids ↔
          ∃ rest, (child, rest) ∈ splits ids ∧ inner ∈ e.embeddings a child ∧
            places ∈ placements a es rest := by
        rw [placements, List.mem_append]
        constructor
        · rintro (placed | skipped)
          · simp only [List.mem_flatMap, List.mem_map, Prod.exists, List.cons.injEq,
              Placement.over.injEq] at placed
            obtain ⟨_, rest, split, _, fits, _, others, ⟨rfl, rfl⟩, rfl⟩ := placed
            exact ⟨rest, split, fits, others⟩
          · split at skipped <;> simp at skipped
        · rintro ⟨rest, split, fits, others⟩
          refine Or.inl (List.mem_flatMap.2 ⟨(child, rest), split, ?_⟩)
          exact List.mem_flatMap.2 ⟨inner, fits, List.mem_map_of_mem others⟩
      rw [first, taken, ← exists_mem_splits_iff, ChildrenFit]
      simp only [inside, behind]
      constructor
      · rintro ⟨rest, split, fits, sub, others⟩
        exact ⟨⟨rest, split, sub⟩, fits, others⟩
      · rintro ⟨⟨rest, split, sub⟩, fits, others⟩
        exact ⟨rest, split, fits, sub, others⟩

theorem mem_branchEmbeddings_iff (a : Arena) : ∀ (es : List Element) (id index : Nat)
    (branch : Embedding),
    (index, branch) ∈ branchEmbeddings a id es ↔ BranchFits a id es index branch
  | [], id, index, branch => by simp [branchEmbeddings, BranchFits]
  | e :: es, id, 0, branch => by
      simp [branchEmbeddings, BranchFits, e.mem_embeddings_iff a id branch]
  | e :: es, id, index + 1, branch => by
      simp [branchEmbeddings, BranchFits, mem_branchEmbeddings_iff a es id index branch]

end

end ParseTree.Query
