import ModelServer.Diagnostics.Diagnostic

namespace ModelServer

open Js

inductive DiagnosticSeverity
  | Error
  | Warning
  | Information
  | Hint
  deriving DecidableEq, Repr

structure Position where
  line : Nat
  character : Nat
  deriving DecidableEq, Repr

structure ModelElementRange where
  uriFragment : String
  start : Position
  «end» : Position
  deriving DecidableEq, Repr

def ModelElementRange.create (uriFragment : String) : ModelElementRange :=
  { uriFragment, start := ⟨0, 0⟩, «end» := ⟨0, 0⟩ }

/-- A diagnostic of the language server, with the properties that are spread into it. -/
structure LangServerDiagnostic where
  severity : DiagnosticSeverity
  message : String
  source : String
  code : Rat
  exception : Option Json
  data : List Json
  children : List Diagnostic
  id : String
  range : ModelElementRange
  relatedInformation : List Json

namespace DiagnosticAdapter

def emfToLangServerDiagnostic (diagnostic : Diagnostic) : Option LangServerDiagnostic :=
  let converted (severity : DiagnosticSeverity) : LangServerDiagnostic :=
    { severity
      message := diagnostic.message
      source := diagnostic.source
      code := diagnostic.code
      exception := diagnostic.exception
      data := diagnostic.data
      children := diagnostic.children
      id := diagnostic.id
      range := ModelElementRange.create diagnostic.id
      relatedInformation := [] }
  match diagnostic.getSeverityLabel with
  | .ERROR => some (converted .Error)
  | .WARNING => some (converted .Warning)
  | .INFO => some (converted .Information)
  | .OK => some (converted .Hint)
  | .CANCEL => none

theorem emfToLangServerDiagnostic_isSome (d : Diagnostic) :
    (emfToLangServerDiagnostic d).isSome = true ↔ d.getSeverityLabel ≠ .CANCEL := by
  unfold emfToLangServerDiagnostic
  cases d.getSeverityLabel <;> simp

end DiagnosticAdapter

open DiagnosticAdapter

/-- The problem manager of Theia: its markers are kept by URI and owner. -/
structure ProblemManager (S U : Type) where
  markers : S → U → String → List LangServerDiagnostic
  cleanAllMarkers : S → U → S
  setMarkers : S → U → String → List LangServerDiagnostic → S

structure ProblemManager.Lawful {S U : Type} (manager : ProblemManager S U) : Prop where
  cleaned : ∀ s uri owner, manager.markers (manager.cleanAllMarkers s uri) uri owner = []
  clean_other : ∀ s uri uri' owner, uri' ≠ uri →
    manager.markers (manager.cleanAllMarkers s uri) uri' owner = manager.markers s uri' owner
  replaced : ∀ s uri owner list, manager.markers (manager.setMarkers s uri owner list) uri owner = list
  set_other : ∀ s uri uri' owner owner' list, ¬ (uri' = uri ∧ owner' = owner) →
    manager.markers (manager.setMarkers s uri owner list) uri' owner' = manager.markers s uri' owner'

def Diagnostic.HasIntegerCode (d : Diagnostic) : Prop := ∃ k : Int, d.code = k

/-- The guard of the language server takes what is converted from a diagnostic with an integer code. -/
def TakesConverted (isLangServerDiagnostic : LangServerDiagnostic → Bool) : Prop :=
  ∀ (d : Diagnostic) converted, d.HasIntegerCode → emfToLangServerDiagnostic d = some converted →
    isLangServerDiagnostic converted = true

namespace DiagnosticManager

abbrev Groups := List (String × List LangServerDiagnostic)

def fileUnder (groups : Groups) (id : String) (converted : LangServerDiagnostic) : Groups :=
  let groups := if (groups.lookup id).isSome then groups else put id [] groups
  put id ((groups.lookup id).getD [] ++ [converted]) groups

/-- A round of the loop over the leaves. The guard refuses undefined. -/
def convertLeaf (isLangServerDiagnostic : LangServerDiagnostic → Bool) (groups : Groups) (d : Diagnostic) : Groups :=
  match emfToLangServerDiagnostic d with
  | some converted => if isLangServerDiagnostic converted then fileUnder groups d.id converted else groups
  | none => groups

section Manager

variable {S U : Type} (manager : ProblemManager S U) (isLangServerDiagnostic : LangServerDiagnostic → Bool)

def setDiagnosticLeaves (s : S) (modeluri : U) (diagnostics : List Diagnostic) : S :=
  let s := manager.cleanAllMarkers s modeluri
  let convertedDiagnosticsPerElementId := diagnostics.foldl (convertLeaf isLangServerDiagnostic) []
  convertedDiagnosticsPerElementId.foldl (fun s entry => manager.setMarkers s modeluri entry.1 entry.2) s

def setDiagnostic (s : S) (modeluri : U) (diagnostic : Diagnostic) : S :=
  setDiagnosticLeaves manager isLangServerDiagnostic s modeluri diagnostic.collectLeaves

def setDiagnostics (s : S) (modeluri : U) (diagnostics : List Diagnostic) : S :=
  let leavesPerDiagnostic := diagnostics.map Diagnostic.collectLeaves
  setDiagnosticLeaves manager isLangServerDiagnostic s modeluri (leavesPerDiagnostic.foldl (· ++ ·) [])

end Manager

section Groups

def group (groups : Groups) (owner : String) : List LangServerDiagnostic := (groups.lookup owner).getD []

theorem group_fileUnder (groups : Groups) (id owner : String) (converted : LangServerDiagnostic) :
    group (fileUnder groups id converted) owner =
      if owner = id then group groups owner ++ [converted] else group groups owner := by
  simp only [group, fileUnder, lookup_put]
  by_cases here : owner = id
  · subst here
    cases present : groups.lookup owner <;> simp [present, lookup_put]
  · cases present : groups.lookup id <;> simp [here, lookup_put]

theorem nodup_fileUnder {groups : Groups} (nodup : (groups.map Prod.fst).Nodup) (id : String)
    (converted : LangServerDiagnostic) : ((fileUnder groups id converted).map Prod.fst).Nodup := by
  unfold fileUnder
  apply nodup_put
  split
  · exact nodup
  · exact nodup_put nodup id []

variable {isLangServerDiagnostic : LangServerDiagnostic → Bool}

theorem convertLeaf_eq (takes : TakesConverted isLangServerDiagnostic) (groups : Groups) {d : Diagnostic}
    (code : d.HasIntegerCode) : convertLeaf isLangServerDiagnostic groups d =
      match emfToLangServerDiagnostic d with
      | some converted => fileUnder groups d.id converted
      | none => groups := by
  unfold convertLeaf
  cases result : emfToLangServerDiagnostic d with
  | none => rfl
  | some converted => simp [takes d converted code result]

/-- The leaves of an owner are filed in their order, whatever leaves of others stand between them. -/
theorem group_foldl (takes : TakesConverted isLangServerDiagnostic) (owner : String) {leaves : List Diagnostic}
    (codes : ∀ d ∈ leaves, d.HasIntegerCode) (groups : Groups) :
    group (leaves.foldl (convertLeaf isLangServerDiagnostic) groups) owner =
      group groups owner ++ (leaves.filter fun d => d.id = owner).filterMap emfToLangServerDiagnostic := by
  induction leaves generalizing groups with
  | nil => simp
  | cons d rest ih =>
    rcases List.forall_mem_cons.mp codes with ⟨here, later⟩
    rw [List.foldl_cons, ih later, convertLeaf_eq takes groups here]
    cases result : emfToLangServerDiagnostic d with
    | none =>
      by_cases own : d.id = owner
      · rw [List.filter_cons_of_pos (by simpa using own), List.filterMap_cons_none result]
      · rw [List.filter_cons_of_neg (by simpa using own)]
    | some converted =>
      simp only [group_fileUnder]
      by_cases own : d.id = owner
      · rw [List.filter_cons_of_pos (by simpa using own), List.filterMap_cons_some result, if_pos own.symm,
          List.append_assoc, List.singleton_append]
      · rw [List.filter_cons_of_neg (by simpa using own), if_neg (Ne.symm own)]

theorem nodup_foldl (leaves : List Diagnostic) {groups : Groups} (nodup : (groups.map Prod.fst).Nodup) :
    ((leaves.foldl (convertLeaf isLangServerDiagnostic) groups).map Prod.fst).Nodup := by
  induction leaves generalizing groups with
  | nil => exact nodup
  | cons d rest ih =>
    apply ih
    unfold convertLeaf
    split
    · split
      · exact nodup_fileUnder nodup d.id _
      · exact nodup
    · exact nodup

end Groups

section Markers

variable {S U : Type} {manager : ProblemManager S U} {isLangServerDiagnostic : LangServerDiagnostic → Bool}

theorem markers_loop_other (lawful : manager.Lawful) {uri uri' : U} (other : uri' ≠ uri) (owner : String)
    (groups : Groups) (s : S) :
    manager.markers (groups.foldl (fun s entry => manager.setMarkers s uri entry.1 entry.2) s) uri' owner =
      manager.markers s uri' owner := by
  induction groups generalizing s with
  | nil => rfl
  | cons entry rest ih => rw [List.foldl_cons, ih, lawful.set_other _ _ _ _ _ _ fun same => other same.1]

theorem markers_loop (lawful : manager.Lawful) (uri : U) (owner : String) {groups : Groups}
    (nodup : (groups.map Prod.fst).Nodup) (s : S) :
    manager.markers (groups.foldl (fun s entry => manager.setMarkers s uri entry.1 entry.2) s) uri owner =
      (groups.lookup owner).getD (manager.markers s uri owner) := by
  induction groups generalizing s with
  | nil => rfl
  | cons entry rest ih =>
    rcases entry with ⟨key, list⟩
    rcases List.nodup_cons.mp nodup with ⟨fresh, distinct⟩
    rw [List.foldl_cons, ih distinct, lookup_entry]
    by_cases here : owner = key
    · subst here
      have absent : rest.lookup owner = none := by
        rw [List.lookup_eq_none_iff]
        intro entry member
        by_contra same
        exact fresh (List.mem_map.mpr ⟨entry, member, by simpa using (Eq.symm (by simpa using same))⟩)
      rw [absent, if_pos rfl, Option.getD_none, Option.getD_some, lawful.replaced]
    · rw [if_neg here, lawful.set_other _ _ _ _ _ _ fun same => here same.2]

theorem markers_setDiagnosticLeaves (lawful : manager.Lawful) (takes : TakesConverted isLangServerDiagnostic) (s : S)
    (uri : U) {leaves : List Diagnostic} (codes : ∀ d ∈ leaves, d.HasIntegerCode) (owner : String) :
    manager.markers (setDiagnosticLeaves manager isLangServerDiagnostic s uri leaves) uri owner =
      (leaves.filter fun d => d.id = owner).filterMap emfToLangServerDiagnostic := by
  have grouped := group_foldl takes owner codes []
  rw [setDiagnosticLeaves, markers_loop lawful uri owner (nodup_foldl leaves (by simp)), lawful.cleaned]
  simpa [group] using grouped

theorem markers_setDiagnosticLeaves_other (lawful : manager.Lawful) (s : S) {uri uri' : U} (other : uri' ≠ uri)
    (leaves : List Diagnostic) (owner : String) :
    manager.markers (setDiagnosticLeaves manager isLangServerDiagnostic s uri leaves) uri' owner =
      manager.markers s uri' owner := by
  rw [setDiagnosticLeaves, markers_loop_other lawful other, lawful.clean_other _ _ _ _ other]

theorem map_some_filterMap (nodes : List Diagnostic) :
    (nodes.filterMap emfToLangServerDiagnostic).map some =
      (nodes.filter fun node => node.getSeverityLabel ≠ .CANCEL).map emfToLangServerDiagnostic := by
  induction nodes with
  | nil => rfl
  | cons node rest ih =>
    have converts := emfToLangServerDiagnostic_isSome node
    cases result : emfToLangServerDiagnostic node with
    | none =>
      rw [result] at converts
      rw [List.filterMap_cons_none result, List.filter_cons_of_neg (by simpa using converts), ih]
    | some converted =>
      rw [result] at converts
      rw [List.filterMap_cons_some result, List.filter_cons_of_pos (by simpa using converts), List.map_cons, ih,
        List.map_cons, result]

def shown (owner : String) (node : Diagnostic) : Bool :=
  node.children.isEmpty && decide (0 < node.severity) && decide (node.getSeverityLabel ≠ .CANCEL) &&
    decide (node.id = owner)

theorem leaves_shown (ds : List Diagnostic) (owner : String) :
    ((ds.flatMap Diagnostic.collectLeaves).filter fun d => d.id = owner).filter
        (fun node => node.getSeverityLabel ≠ .CANCEL) =
      (ds.flatMap Diagnostic.nodes).filter (shown owner) := by
  have leaves : Diagnostic.collectLeaves =
      fun d => (d.nodes.filter (·.children.isEmpty)).filter fun node => 0 < node.severity := by
    funext d
    exact d.collectLeaves_eq
  rw [leaves, ← List.filter_flatMap, ← List.filter_flatMap, List.filter_filter, List.filter_filter, List.filter_filter]
  apply List.filter_congr
  intro node _
  simp only [shown]
  cases node.children.isEmpty <;> grind

theorem codes_collectLeaves {d : Diagnostic} (codes : ∀ node ∈ d.nodes, node.HasIntegerCode) :
    ∀ leaf ∈ d.collectLeaves, leaf.HasIntegerCode := by
  intro leaf member
  rw [Diagnostic.collectLeaves_eq] at member
  exact codes leaf (List.mem_filter.mp (List.mem_filter.mp member).1).1

theorem markers_setDiagnostics (lawful : manager.Lawful) (takes : TakesConverted isLangServerDiagnostic) (s : S) (uri : U)
    {ds : List Diagnostic} (codes : ∀ d ∈ ds, ∀ node ∈ d.nodes, node.HasIntegerCode) (owner : String) :
    (manager.markers (setDiagnostics manager isLangServerDiagnostic s uri ds) uri owner).map some =
      ((ds.flatMap Diagnostic.nodes).filter (shown owner)).map emfToLangServerDiagnostic := by
  have leaves : (ds.map Diagnostic.collectLeaves).foldl (· ++ ·) [] = ds.flatMap Diagnostic.collectLeaves :=
    Diagnostic.foldl_concat _
  have leafCodes : ∀ leaf ∈ ds.flatMap Diagnostic.collectLeaves, leaf.HasIntegerCode := by
    intro leaf member
    rcases List.mem_flatMap.mp member with ⟨d, inside, below⟩
    exact codes_collectLeaves (codes d inside) leaf below
  rw [setDiagnostics, leaves, markers_setDiagnosticLeaves lawful takes s uri leafCodes, map_some_filterMap, leaves_shown]

/-- After the diagnostics of a model are set, its markers are the converted leaves, each under its id. -/
theorem setDiagnostics_spec (lawful : manager.Lawful) (takes : TakesConverted isLangServerDiagnostic) (s : S) (uri : U)
    {ds : List Diagnostic} (codes : ∀ d ∈ ds, ∀ node ∈ d.nodes, node.HasIntegerCode) :
    (∀ owner, (manager.markers (setDiagnostics manager isLangServerDiagnostic s uri ds) uri owner).map some =
        ((ds.flatMap Diagnostic.nodes).filter (shown owner)).map emfToLangServerDiagnostic) ∧
      (∀ uri' owner, uri' ≠ uri →
        manager.markers (setDiagnostics manager isLangServerDiagnostic s uri ds) uri' owner =
          manager.markers s uri' owner) ∧
      ∀ d, setDiagnostic manager isLangServerDiagnostic s uri d =
        setDiagnostics manager isLangServerDiagnostic s uri [d] := by
  refine ⟨markers_setDiagnostics lawful takes s uri codes, ?_, ?_⟩
  · intro uri' owner other
    exact markers_setDiagnosticLeaves_other lawful s other _ owner
  · intro d
    rfl

end Markers

section Store

def store : ProblemManager (String → String → List LangServerDiagnostic) String where
  markers s := s
  cleanAllMarkers s uri := fun uri' owner => if uri' = uri then [] else s uri' owner
  setMarkers s uri owner list := fun uri' owner' => if uri' = uri ∧ owner' = owner then list else s uri' owner'

theorem store_lawful : store.Lawful where
  cleaned s uri owner := by simp [store]
  clean_other s uri uri' owner other := by simp [store, other]
  replaced s uri owner list := by simp [store]
  set_other s uri uri' owner owner' list other := by simp [store, other]

def hasIntegerCode (converted : LangServerDiagnostic) : Bool := converted.code.isInt

theorem hasIntegerCode_takes : TakesConverted hasIntegerCode := by
  intro d converted code result
  have kept : converted.code = d.code := by
    unfold emfToLangServerDiagnostic at result
    cases label : d.getSeverityLabel <;> simp only [label, Option.some.injEq, reduceCtorEq] at result
    all_goals rw [← result]
  rcases code with ⟨k, same⟩
  rw [hasIntegerCode, kept, same]
  rfl

def emptyName : Diagnostic := { Diagnostic.ok with severity := ERROR, message := "The name is empty.", id := "//@nodes.0" }

def cancelledCheck : Diagnostic := { Diagnostic.ok with severity := CANCEL, message := "Cancelled.", id := "//@nodes.0" }

def longName : Diagnostic := { Diagnostic.ok with severity := WARNING, message := "The name is long.", id := "//@nodes.0" }

def checkedNodes : Diagnostic := { Diagnostic.ok with severity := ERROR, children := [emptyName, cancelledCheck, longName] }

theorem setDiagnostics_of_nodes :
    (store.markers (setDiagnostics store hasIntegerCode (fun _ _ => []) "a.tree" [checkedNodes]) "a.tree"
      "//@nodes.0").map some = [emfToLangServerDiagnostic emptyName, emfToLangServerDiagnostic longName] := by
  have codes : ∀ d ∈ [checkedNodes], ∀ node ∈ d.nodes, node.HasIntegerCode := by
    intro d member node below
    have all : checkedNodes.nodes = [checkedNodes, emptyName, cancelledCheck, longName] := by rfl
    rw [List.mem_singleton.mp member, all] at below
    refine ⟨0, ?_⟩
    simp only [List.mem_cons, List.not_mem_nil, or_false] at below
    rcases below with rfl | rfl | rfl | rfl <;> rfl
  have markers := (setDiagnostics_spec store_lawful hasIntegerCode_takes (fun _ _ => []) "a.tree" codes).1 "//@nodes.0"
  rw [markers]
  rfl

end Store

end DiagnosticManager

end ModelServer
