import ModelServer.Diagnostics.Manager
import ModelServer.Library.Runs

namespace ModelServer.DiagnosticManager

open Js DiagnosticAdapter Runs

/-- What can happen to the markers: the two methods of the diagnostic manager, and another party that sets markers
    of its own. -/
inductive MarkerAction (U : Type)
  | setDiagnostic (modeluri : U) (diagnostic : Diagnostic)
  | setDiagnostics (modeluri : U) (diagnostics : List Diagnostic)
  | setMarkers (uri : U) (owner : String) (list : List LangServerDiagnostic)

namespace MarkerAction

variable {S U : Type}

def run (manager : ProblemManager S U) (isLangServerDiagnostic : LangServerDiagnostic → Bool) (s : S) :
    MarkerAction U → S
  | setDiagnostic modeluri diagnostic =>
    DiagnosticManager.setDiagnostic manager isLangServerDiagnostic s modeluri diagnostic
  | setDiagnostics modeluri diagnostics =>
    DiagnosticManager.setDiagnostics manager isLangServerDiagnostic s modeluri diagnostics
  | setMarkers uri owner list => manager.setMarkers s uri owner list

/-- A result of a validation replaces the markers of its model under every owner. -/
def touches [DecidableEq U] : MarkerAction U → U × String → Bool
  | setDiagnostic modeluri _, key => key.1 = modeluri
  | setDiagnostics modeluri _, key => key.1 = modeluri
  | setMarkers uri owner _, key => key = (uri, owner)

def shownMarkers (diagnostics : List Diagnostic) (owner : String) : List (Option LangServerDiagnostic) :=
  ((diagnostics.flatMap Diagnostic.nodes).filter (shown owner)).map emfToLangServerDiagnostic

def written : MarkerAction U → U × String → List (Option LangServerDiagnostic)
  | setDiagnostic _ diagnostic, key => shownMarkers [diagnostic] key.2
  | setDiagnostics _ diagnostics, key => shownMarkers diagnostics key.2
  | setMarkers _ _ list, _ => list.map some

def diagnostics : MarkerAction U → List Diagnostic
  | setDiagnostic _ diagnostic => [diagnostic]
  | setDiagnostics _ diagnostics => diagnostics
  | setMarkers _ _ _ => []

def HasIntegerCodes (action : MarkerAction U) : Prop :=
  ∀ d ∈ action.diagnostics, ∀ node ∈ d.nodes, node.HasIntegerCode

variable [DecidableEq U] {manager : ProblemManager S U} {isLangServerDiagnostic : LangServerDiagnostic → Bool}

theorem run_overwrites (lawful : manager.Lawful) (takes : TakesConverted isLangServerDiagnostic) :
    Overwrites (run manager isLangServerDiagnostic) (fun s key => (manager.markers s key.1 key.2).map some) touches
      written HasIntegerCodes := by
  constructor
  · intro s action key codes touched
    cases action with
    | setDiagnostic modeluri d =>
      have here : key.1 = modeluri := by simpa [touches] using touched
      subst here
      exact markers_setDiagnostics lawful takes s key.1 codes key.2
    | setDiagnostics modeluri ds =>
      have here : key.1 = modeluri := by simpa [touches] using touched
      subst here
      exact markers_setDiagnostics lawful takes s key.1 codes key.2
    | setMarkers uri owner list =>
      have here : key = (uri, owner) := by simpa [touches] using touched
      subst here
      rw [run, lawful.replaced]
      rfl
  · intro s action key codes untouched
    cases action with
    | setDiagnostic modeluri d =>
      have other : key.1 ≠ modeluri := by simpa [touches] using untouched
      exact congrArg (List.map some) (markers_setDiagnosticLeaves_other lawful s other _ key.2)
    | setDiagnostics modeluri ds =>
      have other : key.1 ≠ modeluri := by simpa [touches] using untouched
      exact congrArg (List.map some) (markers_setDiagnosticLeaves_other lawful s other _ key.2)
    | setMarkers uri owner list =>
      have other : key ≠ (uri, owner) := by simpa [touches] using untouched
      rw [run, lawful.set_other _ _ _ _ _ _ fun same => other (Prod.ext same.1 same.2)]

/-- After any calls the markers of a model and an owner are those of the last call that concerned them: a newer result
    leaves nothing of an older one, and nothing that others had set for the model. -/
theorem markers_run (lawful : manager.Lawful) (takes : TakesConverted isLangServerDiagnostic)
    {actions : List (MarkerAction U)} (codes : ∀ action ∈ actions, action.HasIntegerCodes) (s : S) (modeluri : U)
    (owner : String) :
    (manager.markers (actions.foldl (run manager isLangServerDiagnostic) s) modeluri owner).map some =
      ((lastTouching touches actions (modeluri, owner)).map (written · (modeluri, owner))).getD
        ((manager.markers s modeluri owner).map some) :=
  (run_overwrites lawful takes).read_run codes s (modeluri, owner)

def nodesChecked : List (MarkerAction String) :=
  [setDiagnostics "a.tree" [checkedNodes], setMarkers "a.tree" "spelling" [], setDiagnostic "a.tree" longName,
    setDiagnostic "b.tree" emptyName]

theorem markers_run_nodesChecked :
    (store.markers (nodesChecked.foldl (run store hasIntegerCode) fun _ _ => []) "a.tree" "//@nodes.0").map some =
      [emfToLangServerDiagnostic longName] := by
  have coded : ∀ d ∈ [checkedNodes, emptyName, cancelledCheck, longName], d.HasIntegerCode := by
    intro d member
    simp only [List.mem_cons, List.not_mem_nil, or_false] at member
    rcases member with rfl | rfl | rfl | rfl <;> exact ⟨0, rfl⟩
  have codes : ∀ action ∈ nodesChecked, action.HasIntegerCodes := by
    intro action member d given node below
    apply coded
    simp only [nodesChecked, List.mem_cons, List.not_mem_nil, or_false] at member
    rcases member with rfl | rfl | rfl | rfl
    · rw [List.mem_singleton.mp given] at below
      exact below
    · cases given
    · rw [List.mem_singleton.mp given] at below
      rw [List.mem_singleton.mp (show node ∈ [longName] from below)]
      simp
    · rw [List.mem_singleton.mp given] at below
      rw [List.mem_singleton.mp (show node ∈ [emptyName] from below)]
      simp
  rw [markers_run store_lawful hasIntegerCode_takes codes]
  rfl

end MarkerAction

end ModelServer.DiagnosticManager
