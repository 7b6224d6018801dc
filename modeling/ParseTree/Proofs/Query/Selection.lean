import ParseTree.Proofs.Arith.Leaves
import ParseTree.Query.Run

/-!
# Selections of matches

A run of a query passes over nodes that the settings leave out, and stops as soon as the
limit is reached.  Nothing else depends on the settings: the result is what a selection
from the run without settings gives, and that run lists the matches node by node and
pattern by pattern.
-/

namespace ParseTree

namespace QuerySettings

theorem covers_iff_of_lt {settings : QuerySettings} {range node : ByteRange}
    (restricted : settings.byteRange = some range) (proper : range.start < range.stop)
    (solid : node.start < node.stop) :
    settings.covers node = true ↔
      ∃ offset, (node.start ≤ offset ∧ offset < node.stop) ∧
        range.start ≤ offset ∧ offset < range.stop := by
  simp only [covers, restricted, if_neg (Nat.ne_of_lt solid), Bool.and_eq_true, decide_eq_true_eq]
  constructor
  · intro overlap
    exact ⟨max node.start range.start, by omega⟩
  · rintro ⟨offset, inNode, inRange⟩
    omega

theorem covers_iff_of_eq {settings : QuerySettings} {range node : ByteRange}
    (restricted : settings.byteRange = some range) (empty : node.start = node.stop) :
    settings.covers node = true ↔ range.start ≤ node.start ∧ node.start ≤ range.stop := by
  simp only [covers, restricted, if_pos empty, Bool.and_eq_true, decide_eq_true_eq]

end QuerySettings

namespace Query

def matchesOn (q : Query) (a : Arena) (text : Text) (node : Nat) : List Match :=
  q.patterns.zipIdx.filterMap fun (p, index) =>
    (p.matchAt a (a.textOf text) node).map fun b => ⟨index, node, namedCaptures p.captureNames b⟩

theorem node_of_mem_matchesOn {q : Query} {a : Arena} {text : Text} {node : Nat} {m : Match}
    (mem : m ∈ q.matchesOn a text node) : m.node = node := by
  obtain ⟨⟨p, index⟩, -, found⟩ := List.mem_filterMap.1 mem
  obtain ⟨b, -, rfl⟩ := Option.map_eq_some_iff.1 found
  rfl

theorem matchesAt_eq_atMost (q : Query) (a : Arena) (text : Text) (id : Nat)
    (settings : QuerySettings) :
    q.matchesAt a text id settings =
      atMost settings.matchLimit
        (((a.descendants id).filter fun node => settings.covers (a.range node)).flatMap
          (q.matchesOn a text)) := by
  rw [matchesAt_eq, collect_eq_atMost, candidates, List.filterMap_flatMap]
  congr 2
  funext node
  rw [List.mapIdx_eq_zipIdx_map, List.filterMap_map]
  rfl

theorem flatMap_filter_matchesOn (q : Query) (a : Arena) (text : Text) (admits : Nat → Bool)
    (nodes : List Nat) :
    (nodes.filter admits).flatMap (q.matchesOn a text) =
      (nodes.flatMap (q.matchesOn a text)).filter fun m => admits m.node := by
  induction nodes with
  | nil => rfl
  | cons node nodes ih =>
      have here : (q.matchesOn a text node).filter (fun m => admits m.node) =
          if admits node then q.matchesOn a text node else [] := by
        split
        · rename_i admitted
          exact List.filter_eq_self.2 fun m mem => by rw [node_of_mem_matchesOn mem, admitted]
        · rename_i refused
          exact List.filter_eq_nil_iff.2 fun m mem => by rwa [node_of_mem_matchesOn mem]
      rw [List.flatMap_cons, List.filter_append, here, ← ih, List.filter_cons]
      split
      · rw [List.flatMap_cons]
      · rfl

theorem matchesAt_unrestricted (q : Query) (a : Arena) (text : Text) (id : Nat) :
    q.matchesAt a text id {} = (a.descendants id).flatMap (q.matchesOn a text) := by
  have all : ((a.descendants id).filter fun node => QuerySettings.covers {} (a.range node)) =
      a.descendants id :=
    List.filter_eq_self.2 fun _ _ => rfl
  rw [matchesAt_eq_atMost, all]
  rfl

/-- Settings select from the matches without settings: those at nodes that are covered, in
the same order, and as many as the limit allows.  Without settings there is one match for
each node in pre-order and each pattern that matches there. -/
theorem matchesAt_selects (q : Query) (text : Text) {id : Nat}
    (inside : id < (Arith.arena text).size) (settings : QuerySettings) :
    let a := Arith.arena text
    q.matchesAt a text id settings =
      atMost settings.matchLimit
        ((q.matchesAt a text id {}).filter fun m => settings.covers (a.range m.node)) ∧
    q.matchesAt a text id {} = (a.descendants id).flatMap (q.matchesOn a text) ∧
    ∀ node ∈ a.descendants id,
      (settings.byteRange = none → settings.covers (a.range node) = true) ∧
      ∀ range, settings.byteRange = some range → range.start < range.stop →
        (settings.covers (a.range node) = true ↔
          if (a.range node).start = (a.range node).stop then
            range.start ≤ (a.range node).start ∧ (a.range node).start ≤ range.stop
          else ∃ offset, a.Holds node offset ∧ range.start ≤ offset ∧ offset < range.stop) := by
  intro a
  have unrestricted := q.matchesAt_unrestricted a text id
  refine ⟨?_, unrestricted, ?_⟩
  · rw [unrestricted, matchesAt_eq_atMost, flatMap_filter_matchesOn q a text
      fun node => settings.covers (a.range node)]
  · intro node below
    obtain ⟨sound, whole⟩ := Arith.sound_parse text
    have ordered := (sound.geometry whole).ordered node
      (Arena.lt_size_of_mem_descendants inside below)
    refine ⟨fun free => by simp [QuerySettings.covers, free], ?_⟩
    intro range restricted proper
    split
    · rename_i empty
      exact QuerySettings.covers_iff_of_eq restricted empty
    · rename_i solid
      exact QuerySettings.covers_iff_of_lt restricted proper (Nat.lt_of_le_of_ne ordered solid)

/-- The range leaves out the number, touches the missing operand, and the limit falls
between the two patterns that match there. -/
theorem matchesAt_selects_missing :
    let q : Query :=
      { language := .math
        source := Text.ofString "(_) @a (MISSING) @m"
        patterns := [
          { root := .node .anyNamed [] [] { captures := [0] }
            captureNames := ["a"]
            predicates := []
            start := 0 },
          { root := .node (.missing none) [] [] { captures := [0] }
            captureNames := ["m"]
            predicates := []
            start := 7 }] }
    let text := Text.ofString "1+"
    let a := Arith.arena text
    let settings : QuerySettings := { byteRange := some ⟨1, 2⟩, matchLimit := some 3 }
    ofSource .math q.source = .ok q ∧ 0 < a.size ∧
      q.matchesAt a text 0 settings =
        [⟨0, 0, [("a", 0)]⟩, ⟨0, 1, [("a", 1)]⟩, ⟨0, 4, [("a", 4)]⟩] ∧
      q.matchesAt a text 0 settings =
        atMost (some 3)
          ((q.matchesAt a text 0 {}).filter fun m => settings.covers (a.range m.node)) := by
  intro q text a settings
  have inside : 0 < a.size := a.nonempty
  exact ⟨rfl, inside, by decide +kernel, (q.matchesAt_selects text inside settings).1⟩

end Query

end ParseTree
