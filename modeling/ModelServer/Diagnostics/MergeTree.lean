import ModelServer.Diagnostics.Manager
import ModelServer.Diagnostics.Merge
import ModelServer.Diagnostics.Severity
import ModelServer.Js.Conversion

namespace ModelServer.Diagnostic

open Js Lists

inductive MergeTree
  | given (d : Diagnostic)
  | merged (parts : List MergeTree)

namespace MergeTree

mutual

def eval : MergeTree → Except String Diagnostic
  | given d => .ok d
  | merged parts => do
    let results ← evalAll parts
    merge (results.map some)

def evalAll : List MergeTree → Except String (List Diagnostic)
  | [] => .ok []
  | part :: rest => do
    let result ← eval part
    let results ← evalAll rest
    return result :: results

end

mutual

def diagnostics : MergeTree → List Diagnostic
  | given d => [d]
  | merged parts => diagnosticsAll parts

def diagnosticsAll : List MergeTree → List Diagnostic
  | [] => []
  | part :: rest => diagnostics part ++ diagnosticsAll rest

end

mutual

def map (f : Diagnostic → Diagnostic) : MergeTree → MergeTree
  | given d => given (f d)
  | merged parts => merged (mapAll f parts)

def mapAll (f : Diagnostic → Diagnostic) : List MergeTree → List MergeTree
  | [] => []
  | part :: rest => map f part :: mapAll f rest

end

mutual

theorem diagnostics_map (f : Diagnostic → Diagnostic) : ∀ t : MergeTree, (t.map f).diagnostics = t.diagnostics.map f
  | given d => by simp [map, diagnostics]
  | merged parts => by rw [map, diagnostics, diagnostics, diagnosticsAll_mapAll f parts]

theorem diagnosticsAll_mapAll (f : Diagnostic → Diagnostic) :
    ∀ parts : List MergeTree, diagnosticsAll (mapAll f parts) = (diagnosticsAll parts).map f
  | [] => by simp [mapAll, diagnosticsAll]
  | part :: rest => by
    rw [mapAll, diagnosticsAll, diagnosticsAll, List.map_append, diagnostics_map f part, diagnosticsAll_mapAll f rest]

end

end MergeTree

section Once

theorem Consistent.of_children {d : Diagnostic} (mask : ∃ m : Nat, m < 2 ^ 4 ∧ d.severity = m)
    (children : ∀ child ∈ d.children, child.Consistent)
    (inner : d.children ≠ [] → (d.severity ≠ OK ↔ ∃ child ∈ d.children, child.severity ≠ OK)) : d.Consistent := by
  have below {node : Diagnostic} (member : node ∈ d.nodes) : node = d ∨ ∃ child ∈ d.children, node ∈ child.nodes := by
    rw [nodes_eq] at member
    exact (List.mem_cons.mp member).imp_right List.mem_flatMap.mp
  constructor
  · intro node member
    rcases below member with rfl | ⟨child, inside, member⟩
    · exact mask
    · exact (children child inside).masks node member
  · intro node member
    rcases below member with rfl | ⟨child, inside, member⟩
    · exact inner
    · exact (children child inside).inner node member

theorem worstOf_positive {ds : List Diagnostic} {d worst : Diagnostic} (member : d ∈ ds) (positive : OK < d.severity)
    (result : worstOf (ds.map some) = .ok worst) : worst ∈ ds ∧ OK < worst.severity := by
  cases ds with
  | nil => cases member
  | cons first rest =>
    rcases worstOf_looked first rest with ⟨found, result', greatest⟩
    cases result.symm.trans result'
    rcases looked_cases (first :: rest) with ⟨all, -⟩ | ⟨before, c, after, split, seen, cancelled, -⟩
    · rw [all] at greatest
      exact ⟨greatest.mem, lt_of_lt_of_le positive (greatest.le member)⟩
    · rw [seen] at greatest
      constructor
      · rw [split, List.append_cons]
        exact List.mem_append_left _ greatest.mem
      · have least : c.severity ≤ worst.severity := greatest.le (by simp)
        rw [cancelled] at least
        exact lt_of_lt_of_le (by decide) least

theorem Consistent.of_leaf {d : Diagnostic} (leaf : d.children = []) (m : Nat) (bound : m < 2 ^ 4)
    (same : d.severity = m) : d.Consistent := by
  apply Consistent.of_children ⟨m, bound, same⟩
  · intro child member
    rw [leaf] at member
    cases member
  · intro inner
    exact absurd leaf inner

theorem consistent_ok : ok.Consistent := .of_leaf rfl 0 (by decide) (by decide)

theorem consistent_merge {ds : List Diagnostic} (consistent : ∀ d ∈ ds, d.Consistent) {merged : Diagnostic}
    (result : merge (ds.map some) = .ok merged) : merged.Consistent := by
  have kept : ∀ d ∈ (ds.filter fun d => OK < d.severity), d ∈ ds ∧ OK < d.severity := by
    intro d member
    exact ⟨(List.mem_filter.mp member).1, by simpa using (List.mem_filter.mp member).2⟩
  simp only [merge, reduceOption_some] at result
  rcases nonOK : ds.filter fun d => OK < d.severity with _ | ⟨first, _ | ⟨second, rest⟩⟩
  · simp only [nonOK] at result
    cases result
    exact consistent_ok
  · simp only [nonOK] at result
    cases result
    rw [nonOK] at kept
    exact consistent merged (kept merged List.mem_cons_self).1
  · simp only [nonOK] at result
    rw [nonOK] at kept
    rcases bind_eq_ok.mp result with ⟨worst, found, same⟩
    cases same
    have problem := kept first List.mem_cons_self
    rcases worstOf_positive problem.1 problem.2 found with ⟨inside, positive⟩
    apply Consistent.of_children
    · exact (consistent worst inside).mask
    · exact fun child member => consistent child (kept child member).1
    · intro _
      exact ⟨fun _ => ⟨first, List.mem_cons_self, problem.2.ne'⟩, fun _ => positive.ne'⟩

theorem rank_getSeverityLabel (d : Diagnostic) : d.getSeverityLabel.rank = d.level := rank_severityLabel d.severity

theorem rank_severities (ds : List Diagnostic) :
    (severityLabel ((ds.map severity).foldl bitOr OK)).rank = Bits.level 4 (severities ds) := by
  have start : OK = ofInt32 0#32 := by decide
  rw [rank_severityLabel, start, foldl_bitOr, toInt32_ofInt32, List.map_map, BitVec.zero_or]
  rfl

/-- What one diagnostic keeps of others: all their problems, in order, and the worst of their levels. -/
structure Gathers (d : Diagnostic) (ds : List Diagnostic) : Prop where
  consistent : d.Consistent
  leaves : d.collectLeaves = ds.flatMap collectLeaves
  level : d.level = Bits.level 4 (severities ds)

theorem merge_gathers {ds : List Diagnostic} (consistent : ∀ d ∈ ds, d.Consistent) :
    ∃ merged, merge (ds.map some) = .ok merged ∧ merged.Gathers ds := by
  rcases merge_spec consistent with ⟨merged, result, leaves, label⟩
  refine ⟨merged, result, consistent_merge consistent result, leaves, ?_⟩
  rw [← rank_getSeverityLabel, label, rank_severities]

theorem Gathers.label {d : Diagnostic} {ds : List Diagnostic} (g : d.Gathers ds) :
    d.getSeverityLabel = severityLabel ((ds.map severity).foldl bitOr OK) := by
  apply SeverityLabel.rank_injective
  rw [rank_getSeverityLabel, g.level, rank_severities]

theorem severities_append (left right : List Diagnostic) :
    severities (left ++ right) = severities left ||| severities right := by
  rw [severities, List.map_append, Bits.orAll_append]
  rfl

end Once

namespace MergeTree

mutual

theorem eval_gathers : ∀ t : MergeTree, (∀ d ∈ t.diagnostics, d.Consistent) →
    ∃ merged, t.eval = .ok merged ∧ merged.Gathers t.diagnostics
  | given d, consistent => by
    refine ⟨d, rfl, consistent d List.mem_cons_self, ?_, ?_⟩
    · rw [diagnostics, List.flatMap_singleton]
    · rw [diagnostics, severities, List.map_cons, List.map_nil, Bits.orAll_cons, Bits.orAll_nil, BitVec.or_zero]
      rfl
  | merged parts, consistent => by
    rw [diagnostics] at consistent ⊢
    rcases evalAll_gathers parts consistent with ⟨results, evaluated, each, leaves, level⟩
    rcases merge_gathers each with ⟨merged, result, gathers⟩
    refine ⟨merged, ?_, gathers.consistent, gathers.leaves.trans leaves, gathers.level.trans level⟩
    rw [eval, evaluated]
    exact result

theorem evalAll_gathers : ∀ parts : List MergeTree, (∀ d ∈ diagnosticsAll parts, d.Consistent) →
    ∃ results, evalAll parts = .ok results ∧ (∀ d ∈ results, d.Consistent) ∧
      results.flatMap collectLeaves = (diagnosticsAll parts).flatMap collectLeaves ∧
      Bits.level 4 (severities results) = Bits.level 4 (severities (diagnosticsAll parts))
  | [], _ => ⟨[], rfl, nofun, rfl, rfl⟩
  | part :: rest, consistent => by
    rw [diagnosticsAll] at consistent ⊢
    rcases List.forall_mem_append.mp consistent with ⟨here, later⟩
    rcases eval_gathers part here with ⟨first, evaluated, gathers⟩
    rcases evalAll_gathers rest later with ⟨results, following, each, leaves, level⟩
    refine ⟨first :: results, ?_, List.forall_mem_cons.mpr ⟨gathers.consistent, each⟩, ?_, ?_⟩
    · rw [evalAll, evaluated, following]
      rfl
    · rw [List.flatMap_cons, List.flatMap_append, gathers.leaves, leaves]
    · have joined : severities (first :: results) = toInt32 first.severity ||| severities results := rfl
      have own : Bits.level 4 (toInt32 first.severity) = Bits.level 4 (severities part.diagnostics) := gathers.level
      rw [joined, severities_append, Bits.level_or, Bits.level_or, level, own]

end

open DiagnosticManager in
/-- However the calls of `merge` are nested, the result keeps every problem in order, has the label of all
    severities together and sets the markers that the diagnostics set by themselves. -/
theorem eval_spec {t : MergeTree} (consistent : ∀ d ∈ t.diagnostics, d.Consistent) :
    ∃ merged, t.eval = .ok merged ∧ merged.Consistent ∧
      merged.collectLeaves = t.diagnostics.flatMap collectLeaves ∧
      merged.getSeverityLabel = severityLabel ((t.diagnostics.map severity).foldl bitOr OK) ∧
      ∀ {S U : Type} (manager : ProblemManager S U) (isLangServerDiagnostic : LangServerDiagnostic → Bool) (s : S)
        (uri : U), setDiagnostic manager isLangServerDiagnostic s uri merged =
          setDiagnostics manager isLangServerDiagnostic s uri t.diagnostics := by
  rcases eval_gathers t consistent with ⟨merged, result, gathers⟩
  refine ⟨merged, result, gathers.consistent, gathers.leaves, gathers.label, ?_⟩
  intro S U manager isLangServerDiagnostic s uri
  have joined : (t.diagnostics.map collectLeaves).foldl (· ++ ·) [] = t.diagnostics.flatMap collectLeaves :=
    foldl_concat _
  rw [setDiagnostic, setDiagnostics, gathers.leaves, joined]

def twoChecks : MergeTree := merged [given unusedImport, merged [given ok, given missingName]]

theorem consistent_twoChecks : ∀ d ∈ twoChecks.diagnostics, d.Consistent := by
  have warning : unusedImport.Consistent := .of_leaf rfl 2 (by decide) (by decide)
  have error : missingName.Consistent := .of_leaf rfl 4 (by decide) (by decide)
  have all : twoChecks.diagnostics = [unusedImport, ok, missingName] := rfl
  rw [all]
  exact List.forall_mem_cons.mpr ⟨warning, List.forall_mem_cons.mpr ⟨consistent_ok, List.forall_mem_singleton.mpr error⟩⟩

open DiagnosticManager in
theorem eval_twoChecks :
    ∃ merged, twoChecks.eval = .ok merged ∧ merged.Consistent ∧
      merged.collectLeaves = twoChecks.diagnostics.flatMap collectLeaves ∧
      merged.getSeverityLabel = severityLabel ((twoChecks.diagnostics.map severity).foldl bitOr OK) ∧
      ∀ {S U : Type} (manager : ProblemManager S U) (isLangServerDiagnostic : LangServerDiagnostic → Bool) (s : S)
        (uri : U), setDiagnostic manager isLangServerDiagnostic s uri merged =
          setDiagnostics manager isLangServerDiagnostic s uri twoChecks.diagnostics :=
  eval_spec consistent_twoChecks

end MergeTree

section Settled

/-- The leaves have combinations of the four masks for their severities. -/
def Masked (d : Diagnostic) : Prop := ∀ leaf ∈ d.childless, ∃ m : Nat, m < 2 ^ 4 ∧ leaf.severity = m

theorem Masked.child {d child : Diagnostic} (masked : d.Masked) (member : child ∈ d.children) : child.Masked := by
  intro leaf below
  apply masked leaf
  rw [childless_inner (List.ne_nil_of_mem member)]
  exact List.mem_flatMap.mpr ⟨child, member, below⟩

theorem Consistent.masked {d : Diagnostic} (c : d.Consistent) : d.Masked :=
  fun leaf member => c.masks leaf (List.mem_filter.mp member).1

theorem Masked.leafSeverities_lt {d : Diagnostic} (masked : d.Masked) : d.leafSeverities.toNat < 2 ^ 4 := by
  rw [leafSeverities, Bits.orAll_lt_iff]
  intro word member
  rcases List.mem_map.mp member with ⟨leaf, inside, rfl⟩
  rcases masked leaf inside with ⟨m, bound, same⟩
  rwa [toNat_toInt32 bound same]

theorem ofInt32_small {x : BitVec 32} (small : x.toNat < 2 ^ 4) : ofInt32 x = (x.toNat : Nat) := by
  rw [ofInt32, BitVec.toInt_eq_toNat_of_lt (by omega), Rat.intCast_natCast]

theorem Masked.severity_recomputed {d : Diagnostic} (masked : d.Masked) :
    (recomputed d).severity = d.leafSeverities.toNat := by
  rw [← ofInt32_small masked.leafSeverities_lt]
  by_cases leaf : d.children = []
  · have alone := childless_leaf leaf
    rcases masked d (by rw [alone]; exact List.mem_singleton_self d) with ⟨m, bound, same⟩
    have own : d.leafSeverities = toInt32 d.severity := by
      rw [leafSeverities, alone, List.map_singleton, Bits.orAll_cons, Bits.orAll_nil, BitVec.or_zero]
    have small : (toInt32 d.severity).toNat < 2 ^ 4 := by rwa [toNat_toInt32 bound same]
    rw [recomputed_leaf leaf, own, ofInt32_small small, toNat_toInt32 bound same, same]
  · exact recomputed_severity leaf

theorem Masked.recomputed_nonOK {d : Diagnostic} (masked : d.Masked) :
    (recomputed d).severity ≠ OK ↔ d.leafSeverities ≠ 0#32 := by
  have zero : OK = ((0 : Nat) : Rat) := by decide
  rw [masked.severity_recomputed, zero, ne_eq, Rat.natCast_inj, ne_eq, ← BitVec.toNat_inj, BitVec.toNat_ofNat,
    Nat.zero_mod]

theorem consistent_recomputed (d : Diagnostic) (masked : d.Masked) : (recomputed d).Consistent := by
  induction d using child_induct with
  | step d ih =>
    apply Consistent.of_children
    · exact ⟨_, masked.leafSeverities_lt, masked.severity_recomputed⟩
    · intro child' member
      rw [recomputed_children] at member
      rcases List.mem_map.mp member with ⟨child, inside, rfl⟩
      exact ih child inside (masked.child inside)
    · intro inner'
      have inner : d.children ≠ [] := by simpa [recomputed_children] using inner'
      rw [masked.recomputed_nonOK, leafSeverities_inner inner, recomputed_children, ne_eq, Bits.orAll_eq_zero_iff]
      constructor
      · intro some
        by_contra none
        apply some
        intro word member
        rcases List.mem_map.mp member with ⟨child, inside, rfl⟩
        by_contra nonzero
        exact none ⟨_, List.mem_map_of_mem inside, (masked.child inside).recomputed_nonOK.mpr nonzero⟩
      · intro given all
        rcases given with ⟨child', member, nonOK⟩
        rcases List.mem_map.mp member with ⟨child, inside, rfl⟩
        exact (masked.child inside).recomputed_nonOK.mp nonOK (all _ (List.mem_map_of_mem inside))

theorem level_recomputed (d : Diagnostic) : (recomputed d).level = Bits.level 4 (severities d.childless) := by
  rw [← rank_getSeverityLabel, rank_recomputed]
  rfl

theorem Masked.level_childless_le_iff {d : Diagnostic} (masked : d.Masked) (k : Nat) :
    (∀ leaf ∈ d.childless, leaf.level ≤ k) ↔ ∀ leaf ∈ d.collectLeaves, leaf.level ≤ k := by
  rw [collectLeaves_eq]
  constructor
  · intro all leaf member
    exact all leaf (List.mem_filter.mp member).1
  · intro problems leaf member
    by_cases positive : 0 < leaf.severity
    · exact problems leaf (List.mem_filter.mpr ⟨member, by simpa using positive⟩)
    · rcases masked leaf member with ⟨m, -, same⟩
      have isOK : leaf.severity = OK := by
        rw [same] at positive ⊢
        exact le_antisymm (not_lt.mp positive) Rat.natCast_nonneg
      rw [level_ok isOK]
      exact Nat.zero_le k

theorem collectLeaves_recomputed (d : Diagnostic) : (recomputed d).collectLeaves = d.collectLeaves := by
  rw [collectLeaves_eq, childless_recomputed, ← collectLeaves_eq]

theorem Gathers.recomputed_level_le_iff {merged : Diagnostic} {ds : List Diagnostic}
    (g : merged.Gathers (ds.map recomputed)) (k : Nat) :
    merged.level ≤ k ↔ ∀ leaf ∈ ds.flatMap childless, leaf.level ≤ k := by
  rw [g.level, level_severities_le_iff, List.forall_mem_map]
  simp only [level_recomputed, level_severities_le_iff, List.mem_flatMap]
  constructor
  · intro each leaf member
    rcases member with ⟨d, inside, below⟩
    exact each d inside leaf below
  · intro each d inside leaf below
    exact each leaf ⟨d, inside, below⟩

theorem Gathers.collectLeaves_recomputed {merged : Diagnostic} {ds : List Diagnostic}
    (g : merged.Gathers (ds.map recomputed)) : merged.collectLeaves = ds.flatMap collectLeaves := by
  rw [g.leaves, List.flatMap_map]
  exact List.flatMap_congr fun d _ => Diagnostic.collectLeaves_recomputed d

theorem Gathers.level_again {merged : Diagnostic} {ds : List Diagnostic} (masked : ∀ d ∈ ds, d.Masked)
    (g : merged.Gathers (ds.map recomputed)) : (recomputed merged).level = merged.level := by
  apply eq_of_forall_ge_iff
  intro k
  rw [level_recomputed, level_severities_le_iff, g.consistent.masked.level_childless_le_iff,
    g.recomputed_level_le_iff, g.collectLeaves_recomputed]
  simp only [List.forall_mem_flatMap]
  exact forall₂_congr fun d inside => ((masked d inside).level_childless_le_iff k).symm

/-- Recomputing before the merges leaves nothing to recompute after them: every problem is kept, and the label is the
    worst one of the childless nodes. -/
theorem MergeTree.eval_recomputed_spec {t : MergeTree} (masked : ∀ d ∈ t.diagnostics, d.Masked) :
    ∃ merged, (t.map recomputed).eval = .ok merged ∧
      merged.collectLeaves = t.diagnostics.flatMap collectLeaves ∧
      (∀ leaf ∈ t.diagnostics.flatMap childless, leaf.getSeverityLabel ≤ merged.getSeverityLabel) ∧
      (t.diagnostics ≠ [] →
        ∃ leaf ∈ t.diagnostics.flatMap childless, merged.getSeverityLabel = leaf.getSeverityLabel) ∧
      (recomputed merged).getSeverityLabel = merged.getSeverityLabel ∧
      (recomputed merged).collectLeaves = merged.collectLeaves := by
  have consistent : ∀ d ∈ (t.map recomputed).diagnostics, d.Consistent := by
    rw [diagnostics_map]
    exact List.forall_mem_map.mpr fun d inside => consistent_recomputed d (masked d inside)
  rcases eval_gathers _ consistent with ⟨merged, result, gathers⟩
  rw [diagnostics_map] at gathers
  have level : merged.level = Bits.level 4 (severities (t.diagnostics.flatMap childless)) := by
    apply eq_of_forall_ge_iff
    intro k
    rw [gathers.recomputed_level_le_iff, level_severities_le_iff]
  refine ⟨merged, result, gathers.collectLeaves_recomputed, ?_, ?_, ?_, collectLeaves_recomputed merged⟩
  · intro leaf member
    rw [SeverityLabel.le_iff, rank_getSeverityLabel, rank_getSeverityLabel]
    exact (gathers.recomputed_level_le_iff _).mp le_rfl leaf member
  · intro some
    rcases List.exists_mem_of_ne_nil _ some with ⟨d, inside⟩
    rcases List.exists_mem_of_ne_nil _ (childless_ne_nil d) with ⟨leaf, below⟩
    have words : ((t.diagnostics.flatMap childless).map fun leaf => toInt32 leaf.severity) ≠ [] :=
      List.ne_nil_of_mem (List.mem_map_of_mem (List.mem_flatMap.mpr ⟨d, inside, below⟩))
    rcases Bits.level_orAll_mem 4 words with ⟨word, member, same⟩
    rcases List.mem_map.mp member with ⟨worst, worstInside, rfl⟩
    refine ⟨worst, worstInside, ?_⟩
    apply SeverityLabel.rank_injective
    rw [rank_getSeverityLabel, rank_getSeverityLabel, level]
    exact same
  · apply SeverityLabel.rank_injective
    rw [rank_getSeverityLabel, rank_getSeverityLabel, gathers.level_again masked]

theorem MergeTree.eval_recomputed_twoChecks :
    ∃ merged, (twoChecks.map recomputed).eval = .ok merged ∧
      merged.collectLeaves = twoChecks.diagnostics.flatMap collectLeaves ∧
      (∀ leaf ∈ twoChecks.diagnostics.flatMap childless, leaf.getSeverityLabel ≤ merged.getSeverityLabel) ∧
      (twoChecks.diagnostics ≠ [] →
        ∃ leaf ∈ twoChecks.diagnostics.flatMap childless, merged.getSeverityLabel = leaf.getSeverityLabel) ∧
      (recomputed merged).getSeverityLabel = merged.getSeverityLabel ∧
      (recomputed merged).collectLeaves = merged.collectLeaves :=
  eval_recomputed_spec fun d inside => (consistent_twoChecks d inside).masked

end Settled

end ModelServer.Diagnostic
