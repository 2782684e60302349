import ModelServer.Diagnostics.Diagnostic
import ModelServer.Library.Lists
import Mathlib.Algebra.Order.Ring.Rat
import Mathlib.Data.List.ReduceOption

namespace ModelServer.Diagnostic

open Js Lists

def present : Option Diagnostic → Except String Diagnostic
  | some d => .ok d
  | none => .error "TypeError"

/-- The loop of `worstOf`, which ends at a diagnostic whose severity is `CANCEL`. -/
def worstLoop : List (Option Diagnostic) → Diagnostic → Except String Diagnostic
  | [], result => .ok result
  | entry :: rest, result => do
    let d ← present entry
    let result := if result.severity < d.severity then d else result
    if d.severity = CANCEL then .ok result else worstLoop rest result

def worstOf : List (Option Diagnostic) → Except String Diagnostic
  | [] => .ok ok
  | first :: rest => do
    let result ← present first
    worstLoop (first :: rest) result

def merge (diagnostics : List (Option Diagnostic)) : Except String Diagnostic :=
  match diagnostics.reduceOption.filter fun d => OK < d.severity with
  | [] => .ok ok
  | [only] => .ok only
  | nonOK => do
    let max ← worstOf diagnostics
    .ok {
      severity := max.severity
      message := "Diagnosis of " ++ toString nonOK.length ++ " problems."
      source := max.source
      code := max.code
      exception := none
      data := []
      children := nonOK
      id := "/" }

def looked : List Diagnostic → List Diagnostic
  | [] => []
  | d :: rest => if d.severity = CANCEL then [d] else d :: looked rest

theorem worstLoop_eq (ds : List Diagnostic) (result : Diagnostic) :
    worstLoop (ds.map some) result =
      .ok ((looked ds).foldl (fun worst d => if worst.severity < d.severity then d else worst) result) := by
  induction ds generalizing result with
  | nil => rfl
  | cons d rest ih =>
    simp only [List.map_cons, worstLoop, present, bind, Except.bind, looked, ih]
    split <;> rfl

theorem looked_cons (first : Diagnostic) (rest : List Diagnostic) :
    ∃ more, looked (first :: rest) = first :: more := by
  simp only [looked]
  split
  · exact ⟨[], rfl⟩
  · exact ⟨looked rest, rfl⟩

/-- `worstOf` returns the first of the greatest severity among the diagnostics it looks at. -/
theorem worstOf_looked (first : Diagnostic) (rest : List Diagnostic) :
    ∃ worst, worstOf ((first :: rest).map some) = .ok worst ∧ FirstGreatest severity (looked (first :: rest)) worst := by
  refine ⟨_, worstLoop_eq (first :: rest) first, ?_⟩
  rcases looked_cons first rest with ⟨more, same⟩
  rw [same]
  exact firstGreatest_foldl severity first more

theorem looked_cases (ds : List Diagnostic) :
    (looked ds = ds ∧ ∀ d ∈ ds, d.severity ≠ CANCEL) ∨
      ∃ before d after, ds = before ++ d :: after ∧ looked ds = before ++ [d] ∧ d.severity = CANCEL ∧
        ∀ b ∈ before, b.severity ≠ CANCEL := by
  induction ds with
  | nil => exact .inl ⟨rfl, by simp⟩
  | cons d rest ih =>
    by_cases cancelled : d.severity = CANCEL
    · exact .inr ⟨[], d, rest, rfl, by simp [looked, cancelled], cancelled, by simp⟩
    · simp only [looked, if_neg cancelled]
      rcases ih with ⟨same, plain⟩ | ⟨before, c, after, rfl, same, found, plain⟩
      · exact .inl ⟨by rw [same], List.forall_mem_cons.mpr ⟨cancelled, plain⟩⟩
      · exact .inr ⟨d :: before, c, after, rfl, by rw [same]; rfl, found, List.forall_mem_cons.mpr ⟨cancelled, plain⟩⟩

theorem looked_split {before after : List Diagnostic} {d : Diagnostic} (plain : ∀ b ∈ before, b.severity ≠ CANCEL)
    (cancelled : d.severity = CANCEL) : looked (before ++ d :: after) = before ++ [d] := by
  induction before with
  | nil => simp [looked, cancelled]
  | cons b before ih =>
    rcases List.forall_mem_cons.mp plain with ⟨here, later⟩
    simp [looked, here, ih later]

/-- The scan ends too early just where something worse comes after the first diagnostic with severity `CANCEL`. -/
theorem worstOf_first_greatest_iff (first : Diagnostic) (rest : List Diagnostic) :
    (∃ worst, worstOf ((first :: rest).map some) = .ok worst ∧ FirstGreatest severity (first :: rest) worst) ↔
      ∀ before d after, first :: rest = before ++ d :: after → d.severity = CANCEL →
        (∀ b ∈ before, b.severity ≠ CANCEL) → ∀ a ∈ after, ∃ e ∈ before ++ [d], a.severity ≤ e.severity := by
  rcases worstOf_looked first rest with ⟨worst, result, greatest⟩
  constructor
  · intro given before d after split cancelled plain a member
    rcases given with ⟨worst', result', greatest'⟩
    cases result.symm.trans result'
    rw [split, looked_split plain cancelled] at greatest
    refine ⟨worst, greatest.mem, greatest'.le ?_⟩
    rw [split]
    exact List.mem_append_right _ (List.mem_cons_of_mem _ member)
  · intro bounded
    refine ⟨worst, result, ?_⟩
    rcases looked_cases (first :: rest) with ⟨all, -⟩ | ⟨before, d, after, split, some, cancelled, plain⟩
    · rwa [all] at greatest
    · rw [split, List.append_cons]
      rw [some] at greatest
      apply greatest.append
      intro a member
      rcases bounded before d after split cancelled plain a member with ⟨e, inside, le⟩
      exact le.trans (greatest.le inside)

def cancelled : Diagnostic := { ok with severity := CANCEL, message := "Cancelled." }

def cancelledWithErrors : Diagnostic := { ok with severity := bitOr CANCEL ERROR, message := "Cancelled after errors." }

/-- A cancelled diagnosis hides one that was cancelled after errors. -/
theorem worstOf_misses_combined :
    worstOf [some cancelled, some cancelledWithErrors] = .ok cancelled ∧
      ¬ ∃ worst, worstOf ([cancelled, cancelledWithErrors].map some) = .ok worst ∧
        FirstGreatest severity [cancelled, cancelledWithErrors] worst := by
  have result : worstOf [some cancelled, some cancelledWithErrors] = .ok cancelled := by
    rw [worstOf, present]
    exact worstLoop_eq [cancelled, cancelledWithErrors] cancelled
  refine ⟨result, ?_⟩
  intro given
  rcases given with ⟨worst, result', greatest⟩
  cases result.symm.trans result'
  have le := greatest.le (show cancelledWithErrors ∈ [cancelled, cancelledWithErrors] by simp)
  revert le
  decide

section Merged

/-- The severities are combinations of the four masks, and an inner one is non-zero just where a child's is. -/
structure Consistent (d : Diagnostic) : Prop where
  masks : ∀ node ∈ d.nodes, ∃ m : Nat, m < 2 ^ 4 ∧ node.severity = m
  inner : ∀ node ∈ d.nodes, node.children ≠ [] → (node.severity ≠ OK ↔ ∃ child ∈ node.children, child.severity ≠ OK)

theorem mem_nodes_self (d : Diagnostic) : d ∈ d.nodes := by
  rw [nodes_eq]
  exact List.mem_cons_self

theorem mem_nodes_child {d child node : Diagnostic} (member : child ∈ d.children) (below : node ∈ child.nodes) :
    node ∈ d.nodes := by
  rw [nodes_eq]
  exact List.mem_cons_of_mem _ (List.mem_flatMap.mpr ⟨child, member, below⟩)

theorem Consistent.child {d child : Diagnostic} (c : d.Consistent) (member : child ∈ d.children) : child.Consistent where
  masks node below := c.masks node (mem_nodes_child member below)
  inner node below := c.inner node (mem_nodes_child member below)

theorem Consistent.collectLeaves_of_ok {d : Diagnostic} (c : d.Consistent) (isOK : d.severity = OK) :
    d.collectLeaves = [] := by
  induction d using child_induct with
  | step d ih =>
    by_cases leaf : d.children = []
    · rw [collectLeaves_leaf leaf, isOK]
      rfl
    · rw [collectLeaves_inner leaf, List.flatMap_eq_nil_iff]
      intro child member
      apply ih child member (c.child member)
      by_contra nonOK
      exact (c.inner d (mem_nodes_self d) leaf).mpr ⟨child, member, nonOK⟩ isOK

theorem Consistent.mask {d : Diagnostic} (c : d.Consistent) : ∃ m : Nat, m < 2 ^ 4 ∧ d.severity = m :=
  c.masks d (mem_nodes_self d)

theorem Consistent.ok_of_not_pos {d : Diagnostic} (c : d.Consistent) (notPositive : ¬ OK < d.severity) :
    d.severity = OK := by
  rcases c.mask with ⟨m, -, same⟩
  rw [same] at notPositive ⊢
  apply le_antisymm (not_lt.mp notPositive)
  exact Rat.natCast_nonneg

def level (d : Diagnostic) : Nat := Bits.level 4 (toInt32 d.severity)

theorem toNat_toInt32 {n : Rat} {m : Nat} (bound : m < 2 ^ 4) (same : n = m) : (toInt32 n).toNat = m := by
  have whole : n = ((m : Int) : Rat) := by rw [same, Rat.intCast_natCast]
  rw [whole, toInt32_intCast, BitVec.ofInt_natCast, BitVec.toNat_ofNat, Nat.mod_eq_of_lt]
  omega

theorem level_ok {d : Diagnostic} (isOK : d.severity = OK) : d.level = 0 := by
  rw [level, isOK]
  decide

theorem level_cancel {d : Diagnostic} (c : d.Consistent) (cancelled : CANCEL ≤ d.severity) : d.level = 4 := by
  rcases c.mask with ⟨m, bound, same⟩
  have least : 2 ^ 3 ≤ m := by
    rw [same] at cancelled
    exact Rat.natCast_le_natCast.mp cancelled
  have above : 4 ≤ ((toInt32 d.severity).toNat % 2 ^ 4).size := by
    rw [toNat_toInt32 bound same, Nat.mod_eq_of_lt bound]
    exact Nat.lt_size.mpr least
  exact le_antisymm (Bits.level_le 4 _) above

theorem Consistent.level_le {d worst : Diagnostic} (c : d.Consistent) (c' : worst.Consistent)
    (le : d.severity ≤ worst.severity) : d.level ≤ worst.level := by
  rcases c.mask with ⟨m, bound, same⟩
  rcases c'.mask with ⟨m', bound', same'⟩
  have ordered : m ≤ m' := by
    rw [same, same'] at le
    exact_mod_cast le
  apply Bits.level_mono
  · rw [toNat_toInt32 bound same, toNat_toInt32 bound' same']
    exact ordered
  · rwa [toNat_toInt32 bound' same']

def severities (ds : List Diagnostic) : BitVec 32 := Bits.orAll (ds.map fun d => toInt32 d.severity)

theorem level_severities_le_iff (ds : List Diagnostic) (k : Nat) :
    Bits.level 4 (severities ds) ≤ k ↔ ∀ d ∈ ds, d.level ≤ k := by
  rw [severities, Bits.level_orAll_le_iff, List.forall_mem_map]
  rfl

theorem label_eq_of_level {ds : List Diagnostic} {d : Diagnostic} (le : d.level ≤ Bits.level 4 (severities ds))
    (bound : ∀ d' ∈ ds, d'.level ≤ d.level) :
    d.getSeverityLabel = severityLabel ((ds.map severity).foldl bitOr OK) := by
  have start : OK = ofInt32 0#32 := by decide
  apply SeverityLabel.rank_injective
  rw [getSeverityLabel, rank_severityLabel, rank_severityLabel, start, foldl_bitOr, toInt32_ofInt32, List.map_map,
    BitVec.zero_or]
  exact le_antisymm le ((level_severities_le_iff ds _).mpr bound)

/-- However early its scan ends, `worstOf` finds a diagnostic of the worst level. -/
theorem worstOf_level {first : Diagnostic} {rest : List Diagnostic} (consistent : ∀ d ∈ first :: rest, d.Consistent) :
    ∃ worst ∈ first :: rest, worstOf ((first :: rest).map some) = .ok worst ∧
      ∀ d ∈ first :: rest, d.level ≤ worst.level := by
  rcases worstOf_looked first rest with ⟨worst, result, greatest⟩
  rcases looked_cases (first :: rest) with ⟨all, -⟩ | ⟨before, c, after, split, some, cancelled, -⟩
  · rw [all] at greatest
    refine ⟨worst, greatest.mem, result, ?_⟩
    intro d member
    exact (consistent d member).level_le (consistent worst greatest.mem) (greatest.le member)
  · rw [some] at greatest
    have member : worst ∈ first :: rest := by
      rw [split, List.append_cons]
      exact List.mem_append_left _ greatest.mem
    have top : worst.level = 4 := by
      apply level_cancel (consistent worst member)
      rw [← cancelled]
      exact greatest.le (by simp)
    refine ⟨worst, member, result, ?_⟩
    intro d _
    rw [top]
    exact Bits.level_le 4 _

theorem collectLeaves_nonOK {ds : List Diagnostic} (consistent : ∀ d ∈ ds, d.Consistent) :
    (ds.filter fun d => OK < d.severity).flatMap collectLeaves = ds.flatMap collectLeaves := by
  induction ds with
  | nil => rfl
  | cons d rest ih =>
    rcases List.forall_mem_cons.mp consistent with ⟨here, later⟩
    by_cases positive : OK < d.severity
    · rw [List.filter_cons_of_pos (by simpa using positive), List.flatMap_cons, List.flatMap_cons, ih later]
    · rw [List.filter_cons_of_neg (by simpa using positive), List.flatMap_cons, ih later,
        here.collectLeaves_of_ok (here.ok_of_not_pos positive), List.nil_append]

theorem level_nonOK {ds : List Diagnostic} (consistent : ∀ d ∈ ds, d.Consistent) {d : Diagnostic} (member : d ∈ ds) :
    d ∈ (ds.filter fun d => OK < d.severity) ∨ d.level = 0 := by
  by_cases positive : OK < d.severity
  · exact .inl (List.mem_filter.mpr ⟨member, by simpa using positive⟩)
  · exact .inr (level_ok ((consistent d member).ok_of_not_pos positive))

theorem level_le_severities {ds : List Diagnostic} {d : Diagnostic} (member : d ∈ ds) :
    d.level ≤ Bits.level 4 (severities ds) :=
  (level_severities_le_iff ds _).mp le_rfl d member

theorem reduceOption_some (ds : List Diagnostic) : (ds.map some).reduceOption = ds := by
  rw [List.reduceOption, List.filterMap_map]
  exact List.filterMap_some

theorem merge_spec {ds : List Diagnostic} (consistent : ∀ d ∈ ds, d.Consistent) :
    ∃ merged, merge (ds.map some) = .ok merged ∧ merged.collectLeaves = ds.flatMap collectLeaves ∧
      merged.getSeverityLabel = severityLabel ((ds.map severity).foldl bitOr OK) := by
  have leaves := collectLeaves_nonOK consistent
  have levels := fun d => @level_nonOK ds consistent d
  have kept : ∀ d ∈ (ds.filter fun d => OK < d.severity), d ∈ ds := fun d member => (List.mem_filter.mp member).1
  simp only [merge, reduceOption_some]
  rcases nonOK : ds.filter fun d => OK < d.severity with _ | ⟨first, _ | ⟨second, rest⟩⟩
  · rw [nonOK] at leaves levels
    simp only [nonOK]
    refine ⟨ok, rfl, by rw [← leaves]; rfl, ?_⟩
    apply label_eq_of_level
    · rw [level_ok rfl]
      exact Nat.zero_le _
    · intro d member
      rcases levels d member with impossible | zero
      · simp at impossible
      · rw [zero]
        exact Nat.zero_le _
  · rw [nonOK] at leaves levels kept
    simp only [nonOK]
    refine ⟨first, rfl, by rw [← leaves]; simp, ?_⟩
    apply label_eq_of_level (level_le_severities (kept first (by simp)))
    intro d member
    rcases levels d member with same | zero
    · rw [List.mem_singleton.mp same]
    · rw [zero]
      exact Nat.zero_le _
  · cases ds with
    | nil => cases nonOK
    | cons head tail =>
      rcases worstOf_level consistent with ⟨worst, inside, result, worstLevel⟩
      rw [nonOK] at leaves
      simp only [nonOK, result, bind, Except.bind]
      refine ⟨_, rfl, ?_, ?_⟩
      · rw [collectLeaves_inner (by simp), ← leaves]
      · change worst.getSeverityLabel = _
        exact label_eq_of_level (level_le_severities inside) worstLevel

theorem severityLabel_perm {ds ds' : List Diagnostic} (same : ds'.Perm ds) :
    severityLabel ((ds'.map severity).foldl bitOr OK) = severityLabel ((ds.map severity).foldl bitOr OK) := by
  have start : OK = ofInt32 0#32 := by decide
  rw [start, foldl_bitOr, foldl_bitOr, Bits.orAll_perm ((same.map severity).map toInt32)]

/-- Merging keeps every problem, in order, and gives the label of all severities together, in whatever
    order the diagnostics are given. -/
theorem merge_keeps_problems {ds : List Diagnostic} (consistent : ∀ d ∈ ds, d.Consistent) :
    ∃ merged, merge (ds.map some) = .ok merged ∧ merged.collectLeaves = ds.flatMap collectLeaves ∧
      merged.getSeverityLabel = severityLabel ((ds.map severity).foldl bitOr OK) ∧
      ∀ ds' : List Diagnostic, ds'.Perm ds →
        ∃ merged', merge (ds'.map some) = .ok merged' ∧ merged'.getSeverityLabel = merged.getSeverityLabel := by
  rcases merge_spec consistent with ⟨merged, result, leaves, label⟩
  refine ⟨merged, result, leaves, label, ?_⟩
  intro ds' same
  rcases merge_spec fun d member => consistent d (same.mem_iff.mp member) with ⟨merged', result', -, label'⟩
  exact ⟨merged', result', by rw [label', label, severityLabel_perm same]⟩

def unusedImport : Diagnostic := { ok with severity := WARNING, message := "Unused import." }

def missingName : Diagnostic := { ok with severity := ERROR, message := "The name is missing.", id := "//@nodes.0" }

def namedNodes : Diagnostic := { ok with severity := ERROR, message := "Diagnosis of 2 nodes.", children := [missingName, ok] }

theorem merge_keeps_two_problems :
    ∃ merged, merge ([unusedImport, ok, namedNodes].map some) = .ok merged ∧
      merged.collectLeaves = [unusedImport, missingName] ∧ merged.getSeverityLabel = .ERROR ∧
      ∀ ds' : List Diagnostic, ds'.Perm [unusedImport, ok, namedNodes] →
        ∃ merged', merge (ds'.map some) = .ok merged' ∧ merged'.getSeverityLabel = merged.getSeverityLabel := by
  have single : ∀ (d : Diagnostic) (m : Nat), d.children = [] → m < 2 ^ 4 → d.severity = m → d.Consistent := by
    intro d m leaf bound same
    have alone : d.nodes = [d] := by rw [nodes_eq, leaf]; rfl
    constructor
    · rw [alone]
      simpa using ⟨m, bound, same⟩
    · rw [alone]
      simp [leaf]
  have warning := single unusedImport 2 rfl (by decide) (by decide)
  have okay := single ok 0 rfl (by decide) (by decide)
  have composed : namedNodes.Consistent := by
    have all : namedNodes.nodes = [namedNodes, missingName, ok] := by rfl
    constructor
    · rw [all]
      simp only [List.forall_mem_cons, List.not_mem_nil, false_implies, implies_true, and_true]
      exact ⟨⟨4, by decide, by decide⟩, ⟨4, by decide, by decide⟩, ⟨0, by decide, by decide⟩⟩
    · rw [all]
      simp only [List.forall_mem_cons, List.not_mem_nil, false_implies, implies_true, and_true]
      refine ⟨fun _ => ⟨fun _ => ⟨missingName, by simp [namedNodes], by decide⟩, fun _ => by decide⟩, ?_, ?_⟩
      · intro inner
        exact absurd rfl inner
      · intro inner
        exact absurd rfl inner
  have merged := @merge_keeps_problems [unusedImport, ok, namedNodes] (by simp [warning, okay, composed])
  have leaves : [unusedImport, ok, namedNodes].flatMap collectLeaves = [unusedImport, missingName] := by rfl
  have label : severityLabel (([unusedImport, ok, namedNodes].map severity).foldl bitOr OK) = .ERROR := by decide
  rwa [leaves, label] at merged

end Merged

section Missing

/-- Every missing entry comes after a diagnostic at which the scan of `worstOf` ends. -/
def Shielded (entries : List (Option Diagnostic)) : Prop :=
  ∀ before after, entries = before ++ none :: after → ∃ d, some d ∈ before ∧ d.severity = CANCEL

theorem not_shielded_none (rest : List (Option Diagnostic)) : ¬ Shielded (none :: rest) := by
  intro shielded
  rcases shielded [] rest rfl with ⟨d, member, -⟩
  cases member

theorem shielded_some {d : Diagnostic} {rest : List (Option Diagnostic)} :
    Shielded (some d :: rest) ↔ d.severity = CANCEL ∨ Shielded rest := by
  constructor
  · intro shielded
    by_cases cancelled : d.severity = CANCEL
    · exact .inl cancelled
    · refine .inr fun before after split => ?_
      rcases shielded (some d :: before) after (by rw [split]; rfl) with ⟨e, member, stops⟩
      rcases List.mem_cons.mp member with same | member
      · cases same
        exact absurd stops cancelled
      · exact ⟨e, member, stops⟩
  · intro given before after split
    cases before with
    | nil => cases split
    | cons first before =>
      rcases List.cons.inj split with ⟨rfl, later⟩
      rcases given with cancelled | shielded
      · exact ⟨d, List.mem_cons_self, cancelled⟩
      · rcases shielded before after later with ⟨e, member, stops⟩
        exact ⟨e, List.mem_cons_of_mem _ member, stops⟩

theorem worstLoop_shielded {entries : List (Option Diagnostic)} (shielded : Shielded entries) (result : Diagnostic) :
    worstLoop entries result = worstLoop (entries.reduceOption.map some) result := by
  induction entries generalizing result with
  | nil => rfl
  | cons entry rest ih =>
    cases entry with
    | none => exact absurd shielded (not_shielded_none rest)
    | some d =>
      simp only [List.reduceOption_cons_of_some, List.map_cons, worstLoop, present, bind, Except.bind]
      by_cases cancelled : d.severity = CANCEL
      · rw [if_pos cancelled, if_pos cancelled]
      · rw [if_neg cancelled, if_neg cancelled]
        exact ih ((shielded_some.mp shielded).resolve_left cancelled) _

theorem worstLoop_throws {entries : List (Option Diagnostic)} (exposed : ¬ Shielded entries) (result : Diagnostic) :
    worstLoop entries result = .error "TypeError" := by
  induction entries generalizing result with
  | nil => exact absurd (fun before after split => by cases before <;> cases split) exposed
  | cons entry rest ih =>
    cases entry with
    | none => rfl
    | some d =>
      rw [shielded_some, not_or] at exposed
      simp only [worstLoop, present, bind, Except.bind, if_neg exposed.1]
      exact ih exposed.2 _

theorem worstOf_shielded {entries : List (Option Diagnostic)} (shielded : Shielded entries) :
    worstOf entries = worstOf (entries.reduceOption.map some) := by
  cases entries with
  | nil => rfl
  | cons entry rest =>
    cases entry with
    | none => exact absurd shielded (not_shielded_none rest)
    | some first => exact worstLoop_shielded shielded first

theorem worstOf_throws {entries : List (Option Diagnostic)} (exposed : ¬ Shielded entries) :
    worstOf entries = .error "TypeError" := by
  cases entries with
  | nil => exact absurd (fun before after split => by cases before <;> cases split) exposed
  | cons entry rest =>
    cases entry with
    | none => rfl
    | some first => exact worstLoop_throws exposed first

theorem worstOf_returns {ds : List Diagnostic} : ∃ worst, worstOf (ds.map some) = .ok worst := by
  cases ds with
  | nil => exact ⟨ok, rfl⟩
  | cons first rest =>
    rcases worstOf_looked first rest with ⟨worst, result, -⟩
    exact ⟨worst, result⟩

/-- Missing entries do no harm while there are fewer than two problems, or once the scan has ended. -/
theorem merge_missing_iff (diagnostics : List (Option Diagnostic)) :
    (∃ merged, merge diagnostics = .ok merged ∧ merge (diagnostics.reduceOption.map some) = .ok merged) ↔
      (diagnostics.reduceOption.filter fun d => OK < d.severity).length < 2 ∨ Shielded diagnostics := by
  simp only [merge, reduceOption_some]
  rcases nonOK : diagnostics.reduceOption.filter fun d => OK < d.severity with _ | ⟨first, _ | ⟨second, rest⟩⟩
  · simp [nonOK]
  · simp [nonOK]
  · have many : ¬ (first :: second :: rest).length < 2 := by simp
    simp only [nonOK, many, false_or]
    constructor
    · intro given
      rcases given with ⟨merged, result, -⟩
      by_contra exposed
      rw [worstOf_throws exposed] at result
      cases result
    · intro shielded
      rcases @worstOf_returns diagnostics.reduceOption with ⟨worst, result⟩
      rw [worstOf_shielded shielded, result]
      exact ⟨_, rfl, rfl⟩

/-- A missing entry in front of two problems. -/
theorem merge_throws_on_missing :
    merge [none, some unusedImport, some missingName] = .error "TypeError" ∧
      (∃ merged, merge [some unusedImport, some missingName] = .ok merged) ∧
      ¬ ∃ merged, merge [none, some unusedImport, some missingName] = .ok merged ∧
        merge ([none, some unusedImport, some missingName].reduceOption.map some) = .ok merged := by
  have throws : merge [none, some unusedImport, some missingName] = .error "TypeError" := by rfl
  refine ⟨throws, ⟨_, rfl⟩, ?_⟩
  intro given
  rcases given with ⟨merged, result, -⟩
  cases throws.symm.trans result

end Missing

end ModelServer.Diagnostic
