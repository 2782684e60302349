import ModelServer.Diagnostics.Diagnostic
import Mathlib.Data.Option.Basic

namespace ModelServer.Diagnostic

open Js

mutual

/-- The number that is returned, and the diagnostic with the severities that are assigned in place. -/
def recomputeSeverity : Diagnostic → Rat × Diagnostic
  | ⟨severity, message, source, code, exception, data, children, id⟩ =>
    if 0 < children.length then
      let (severity, children) := recomputeChildren OK children
      (severity, ⟨severity, message, source, code, exception, data, children, id⟩)
    else (severity, ⟨severity, message, source, code, exception, data, children, id⟩)

def recomputeChildren : Rat → List Diagnostic → Rat × List Diagnostic
  | severity, [] => (severity, [])
  | severity, child :: rest =>
    let (childSeverity, child) := recomputeSeverity child
    let (severity, rest) := recomputeChildren (bitOr severity childSeverity) rest
    (severity, child :: rest)

end

def recomputed (d : Diagnostic) : Diagnostic := (recomputeSeverity d).2

theorem recomputeChildren_eq (severity : Rat) (children : List Diagnostic) :
    recomputeChildren severity children =
      ((children.map fun child => (recomputeSeverity child).1).foldl bitOr severity, children.map recomputed) := by
  induction children generalizing severity with
  | nil => rfl
  | cons child rest ih => simp only [recomputeChildren, ih, List.map_cons, List.foldl_cons, recomputed]

theorem recomputeSeverity_leaf {d : Diagnostic} (leaf : d.children = []) : recomputeSeverity d = (d.severity, d) := by
  cases d
  subst leaf
  rfl

theorem recomputeSeverity_inner {d : Diagnostic} (inner : d.children ≠ []) :
    recomputeSeverity d =
      ((d.children.map fun child => (recomputeSeverity child).1).foldl bitOr OK,
        { d with
          severity := (d.children.map fun child => (recomputeSeverity child).1).foldl bitOr OK
          children := d.children.map recomputed }) := by
  cases d
  simp only [recomputeSeverity, if_pos (List.length_pos_of_ne_nil inner), recomputeChildren_eq]

theorem mk_fields (d : Diagnostic) :
    mk d.severity d.message d.source d.code d.exception d.data d.children d.id = d := by
  cases d
  rfl

theorem recomputed_leaf {d : Diagnostic} (leaf : d.children = []) : recomputed d = d := by
  rw [recomputed, recomputeSeverity_leaf leaf]

theorem recomputed_children (d : Diagnostic) : (recomputed d).children = d.children.map recomputed := by
  by_cases leaf : d.children = []
  · rw [recomputed_leaf leaf, leaf, List.map_nil]
  · rw [recomputed, recomputeSeverity_inner leaf]

theorem recomputeSeverity_returns (d : Diagnostic) : (recomputeSeverity d).1 = (recomputed d).severity := by
  by_cases leaf : d.children = []
  · rw [recomputed, recomputeSeverity_leaf leaf]
  · rw [recomputed, recomputeSeverity_inner leaf]

def leafSeverities (d : Diagnostic) : BitVec 32 := Bits.orAll (d.childless.map fun leaf => toInt32 leaf.severity)

theorem leafSeverities_inner {d : Diagnostic} (inner : d.children ≠ []) :
    d.leafSeverities = Bits.orAll (d.children.map leafSeverities) := by
  have blocks : (d.children.map leafSeverities) =
      (d.children.map fun child => child.childless.map fun leaf => toInt32 leaf.severity).map Bits.orAll := by
    rw [List.map_map]
    rfl
  rw [leafSeverities, childless_inner inner, List.map_flatMap, List.flatMap, Bits.orAll_flatten, blocks]

theorem returned_inner {d : Diagnostic} (inner : d.children ≠ [])
    (below : ∀ child ∈ d.children, toInt32 (recomputeSeverity child).1 = child.leafSeverities) :
    (recomputeSeverity d).1 = ofInt32 d.leafSeverities := by
  have start : OK = ofInt32 0#32 := by decide
  have words : (d.children.map fun child => (recomputeSeverity child).1).map toInt32 =
      d.children.map leafSeverities := by
    rw [List.map_map]
    exact List.map_congr_left below
  rw [recomputeSeverity_inner inner, start, foldl_bitOr, words, BitVec.zero_or, leafSeverities_inner inner]

theorem toInt32_returned (d : Diagnostic) : toInt32 (recomputeSeverity d).1 = d.leafSeverities := by
  induction d using child_induct with
  | step d ih =>
    by_cases leaf : d.children = []
    · rw [recomputeSeverity_leaf leaf, leafSeverities, childless_leaf leaf]
      simp
    · rw [returned_inner leaf ih, toInt32_ofInt32]

theorem recomputed_severity {d : Diagnostic} (inner : d.children ≠ []) :
    (recomputed d).severity = ofInt32 d.leafSeverities := by
  rw [← recomputeSeverity_returns, returned_inner inner fun child _ => toInt32_returned child]

theorem childless_recomputed (d : Diagnostic) : (recomputed d).childless = d.childless := by
  induction d using child_induct with
  | step d ih =>
    by_cases leaf : d.children = []
    · rw [recomputed_leaf leaf]
    · have inner : (recomputed d).children ≠ [] := by simpa [recomputed_children] using leaf
      rw [childless_inner inner, childless_inner leaf, recomputed_children, List.flatMap_map]
      exact List.flatMap_congr ih

theorem recomputeSeverity_again (d : Diagnostic) :
    recomputeSeverity (recomputed d) = ((recomputeSeverity d).1, recomputed d) := by
  induction d using child_induct with
  | step d ih =>
    by_cases leaf : d.children = []
    · rw [recomputed_leaf leaf, recomputeSeverity_leaf leaf]
    · have inner : (recomputed d).children ≠ [] := by simpa [recomputed_children] using leaf
      have children : (recomputed d).children.map recomputed = (recomputed d).children := by
        rw [recomputed_children, List.map_map]
        exact List.map_congr_left fun child member => congrArg Prod.snd (ih child member)
      have severity : ((recomputed d).children.map fun child => (recomputeSeverity child).1).foldl bitOr OK =
          (recomputed d).severity := by
        rw [recomputed_children, List.map_map, ← recomputeSeverity_returns, recomputeSeverity_inner leaf]
        exact congrArg (List.foldl bitOr OK) (List.map_congr_left fun child member => congrArg Prod.fst (ih child member))
      rw [recomputeSeverity_inner inner, children, severity, mk_fields, recomputeSeverity_returns]

theorem rank_recomputed (d : Diagnostic) :
    (recomputed d).getSeverityLabel.rank = Bits.level 4 d.leafSeverities := by
  rw [getSeverityLabel, ← recomputeSeverity_returns, rank_severityLabel, toInt32_returned]

theorem label_le_recomputed {d leaf : Diagnostic} (member : leaf ∈ d.childless) :
    leaf.getSeverityLabel ≤ (recomputed d).getSeverityLabel := by
  rw [SeverityLabel.le_iff, rank_recomputed, getSeverityLabel, rank_severityLabel]
  exact Bits.le_level_orAll 4 (List.mem_map_of_mem member)

theorem childless_ne_nil (d : Diagnostic) : d.childless ≠ [] := by
  induction d using child_induct with
  | step d ih =>
    by_cases leaf : d.children = []
    · rw [childless_leaf leaf]
      simp
    · rw [childless_inner leaf]
      intro empty
      rcases List.exists_mem_of_ne_nil _ leaf with ⟨child, member⟩
      exact ih child member (List.flatMap_eq_nil_iff.mp empty child member)

theorem label_recomputed_mem (d : Diagnostic) :
    ∃ leaf ∈ d.childless, (recomputed d).getSeverityLabel = leaf.getSeverityLabel := by
  have some : (d.childless.map fun leaf => toInt32 leaf.severity) ≠ [] := by simpa using childless_ne_nil d
  rcases Bits.level_orAll_mem 4 some with ⟨word, member, same⟩
  rcases List.mem_map.mp member with ⟨leaf, inside, rfl⟩
  refine ⟨leaf, inside, ?_⟩
  apply SeverityLabel.rank_injective
  rw [rank_recomputed, leafSeverities, same, getSeverityLabel, rank_severityLabel]

def node? : Diagnostic → List Nat → Option Diagnostic
  | d, [] => some d
  | d, i :: path => d.children[i]?.bind (node? · path)

structure Recomputed (node node' : Diagnostic) : Prop where
  leaf : node.children = [] → node' = node
  inner : node.children ≠ [] → node'.severity = ofInt32 node.leafSeverities
  fields : node' = { node with severity := node'.severity, children := node'.children }
  arity : node'.children.length = node.children.length

theorem recomputed_spec (d : Diagnostic) : Recomputed d (recomputed d) where
  leaf := recomputed_leaf
  inner := recomputed_severity
  fields := by
    by_cases leaf : d.children = []
    · rw [recomputed_leaf leaf, mk_fields]
    · rw [recomputed, recomputeSeverity_inner leaf]
  arity := by rw [recomputed_children, List.length_map]

theorem recomputed_node (d : Diagnostic) (path : List Nat) :
    Option.Rel Recomputed (d.node? path) ((recomputed d).node? path) := by
  induction path generalizing d with
  | nil => exact .some (recomputed_spec d)
  | cons i path ih =>
    simp only [node?, recomputed_children, List.getElem?_map]
    cases d.children[i]? with
    | none => exact .none
    | some child => exact ih child

/-- All nodes are recomputed from the childless nodes, whose worst label the root gets, and doing it
    again changes nothing. -/
theorem recomputeSeverity_spec (d : Diagnostic) :
    (∀ path, Option.Rel Recomputed (d.node? path) ((recomputeSeverity d).2.node? path)) ∧
      (recomputeSeverity d).1 = (recomputeSeverity d).2.severity ∧
      ((∀ leaf ∈ d.childless, leaf.getSeverityLabel ≤ (recomputeSeverity d).2.getSeverityLabel) ∧
        ∃ leaf ∈ d.childless, (recomputeSeverity d).2.getSeverityLabel = leaf.getSeverityLabel) ∧
      recomputeSeverity (recomputeSeverity d).2 = recomputeSeverity d ∧
      (recomputeSeverity d).2.collectLeaves = d.collectLeaves := by
  refine ⟨recomputed_node d, recomputeSeverity_returns d, ⟨?_, label_recomputed_mem d⟩, recomputeSeverity_again d, ?_⟩
  · intro leaf member
    exact label_le_recomputed member
  · have leaves := childless_recomputed d
    rw [recomputed] at leaves
    rw [collectLeaves_eq, leaves, ← collectLeaves_eq]

end ModelServer.Diagnostic
