import ModelServer.Js.Conversion
import ModelServer.Message.Guards
import ModelServer.Diagnostics.Severity

namespace ModelServer.Message.Diagnostic
open Js

section Calls

def utf16Length (s : String) : Nat := (s.toList.map fun c => if c.toNat < 0x10000 then 1 else 2).sum

def noLength : String := "Cannot read properties of undefined (reading 'length')"

def lengthOf : Json → Except String (Option Json)
  | .prim .null => .error "Cannot read properties of null (reading 'length')"
  | .prim (.string s) => .ok (some (.prim (.number (utf16Length s))))
  | .prim _ => .ok none
  | .arr elems => .ok (some (.prim (.number elems.length)))
  | .obj props => .ok (props.lookup "length")

variable (convert : Conversions)

def hasElements (children : Json) : Except String Bool := do
  let length ← lengthOf children
  isPositive convert length

def ofLeaf (diagnostic : Json) : Except String (List Json) := do
  let positive ← isPositive convert (diagnostic.child "severity")
  .ok (if positive then [diagnostic] else [])

mutual

/-- `collectLeaves` on a value that was received: what the guard did not look at may be anything. -/
def collectLeaves : Json → Except String (List Json)
  | .prim .null => .error "Cannot read properties of null (reading 'children')"
  | .prim _ | .arr _ => .error noLength
  | .obj props => leavesBelow (.obj props) props

def leavesBelow (diagnostic : Json) : List (String × Json) → Except String (List Json)
  | [] => .error noLength
  | (name, children) :: rest =>
    if name = "children" then leavesOf diagnostic children else leavesBelow diagnostic rest

def leavesOf (diagnostic : Json) : Json → Except String (List Json)
  | .arr [] => ofLeaf convert diagnostic
  | .arr (first :: rest) => do
    let leavesByChild ← collectEach (first :: rest)
    .ok (leavesByChild.foldl (· ++ ·) [])
  | children => do
    let inner ← hasElements convert children
    if inner then .error "diagnostic.children.map is not a function" else ofLeaf convert diagnostic

def collectEach : List Json → Except String (List (List Json))
  | [] => .ok []
  | child :: rest => do
    let leaves ← collectLeaves child
    let others ← collectEach rest
    .ok (leaves :: others)

end

mutual

/-- The value that is returned, which may be undefined, and the diagnostic with the severities that are
    assigned in place. -/
def recomputeSeverity : Json → Except String (Option Json × Json)
  | .prim .null => .error "Cannot read properties of null (reading 'children')"
  | .prim _ | .arr _ => .error noLength
  | .obj props => recomputeBelow props props

def recomputeBelow (own : List (String × Json)) : List (String × Json) → Except String (Option Json × Json)
  | [] => .error noLength
  | (name, children) :: rest => if name = "children" then recomputeOf own children else recomputeBelow own rest

def recomputeOf (own : List (String × Json)) : Json → Except String (Option Json × Json)
  | .arr [] => .ok (own.lookup "severity", .obj own)
  | .arr (first :: rest) => do
    let recomputed ← recomputeEach OK (first :: rest)
    let severity := Json.prim (.number recomputed.1)
    .ok (some severity, .obj (put "severity" severity (put "children" (.arr recomputed.2) own)))
  | children => do
    let inner ← hasElements convert children
    if inner then .error "diagnostic.children.forEach is not a function" else .ok (own.lookup "severity", .obj own)

def recomputeEach : Rat → List Json → Except String (Rat × List Json)
  | severity, [] => .ok (severity, [])
  | severity, child :: rest => do
    let childSeverity ← recomputeSeverity child
    let severity ← orInto convert severity childSeverity.1
    let others ← recomputeEach severity rest
    .ok (others.1, childSeverity.2 :: others.2)

end

end Calls

section Nodes

/-- The values that are taken for diagnostics below a received one. -/
inductive Below (x : Json) : Json → Prop
  | root : Below x x
  | child {node child : Json} {elems : List Json} (above : Below x node)
      (children : node.child "children" = some (.arr elems)) (member : child ∈ elems) : Below x child

theorem Below.under {x y node : Json} {elems : List Json} (children : x.child "children" = some (.arr elems))
    (member : y ∈ elems) (below : Below y node) : Below x node := by
  induction below with
  | root => exact .child .root children member
  | child _ children' member' ih => exact .child ih children' member'

theorem below_cases {x node : Json} (below : Below x node) :
    node = x ∨ ∃ elems child, x.child "children" = some (.arr elems) ∧ child ∈ elems ∧ Below child node := by
  induction below with
  | root => exact .inl rfl
  | @child node child elems above children member ih =>
    refine .inr ?_
    rcases ih with rfl | ⟨elems', child', children', member', below⟩
    · exact ⟨elems, child, children, member, .root⟩
    · exact ⟨elems', child', children', member', .child below children member⟩

theorem node_induct {P : Json → Prop}
    (step : ∀ node, (∀ elems child, node.child "children" = some (.arr elems) → child ∈ elems → P child) → P node)
    (x : Json) : P x := by
  suffices both : P x ∧ ∀ elems, x = .arr elems → ∀ e ∈ elems, P e from both.1
  induction x using Json.child_induct with
  | step x ih =>
    constructor
    · apply step
      intro elems child children member
      exact (ih "children" (.arr elems) children).2 elems rfl child member
    · intro elems same e member
      subst same
      rcases List.getElem?_of_mem member with ⟨i, at_i⟩
      exact (ih (indexName i) e (by simp [Json.child, at_i])).1

variable (convert : Conversions)

/-- What both functions need of a node: an array of children that is not empty, or children without a positive
    length and a severity that can be compared, and where it is positive a node that the guard accepts. -/
def Visitable (node : Json) : Prop :=
  ∃ children, node.child "children" = some children ∧
    ((∃ first rest, children = .arr (first :: rest)) ∨
      (hasElements convert children = .ok false ∧
        ∃ positive, isPositive convert (node.child "severity") = .ok positive ∧ (positive = true → is node = true)))

def Collects (node : Json) : Prop :=
  ∃ leaves, collectLeaves convert node = .ok leaves ∧ ∀ leaf ∈ leaves, is leaf = true

variable {convert}

theorem leavesBelow_eq (diagnostic : Json) (props : List (String × Json)) :
    leavesBelow convert diagnostic props =
      ((props.lookup "children").map (leavesOf convert diagnostic)).getD (.error noLength) := by
  induction props with
  | nil => rfl
  | cons entry rest ih =>
    rw [leavesBelow, lookup_entry]
    by_cases here : entry.1 = "children"
    · rw [if_pos here, if_pos here.symm]
      rfl
    · rw [if_neg here, if_neg (Ne.symm here), ih]

theorem collectLeaves_some {node children : Json} (found : node.child "children" = some children) :
    collectLeaves convert node = leavesOf convert node children := by
  cases node with
  | prim p => cases found
  | arr elems =>
    have word : indexOf? "children" = none := by decide
    simp [Json.child, word] at found
  | obj props =>
    rw [Json.child] at found
    rw [collectLeaves, leavesBelow_eq, found]
    rfl

theorem collectLeaves_none {node : Json} (missing : node.child "children" = none) :
    ∃ e, collectLeaves convert node = .error e := by
  cases node with
  | prim p => cases p <;> exact ⟨_, rfl⟩
  | arr elems => exact ⟨_, rfl⟩
  | obj props =>
    rw [Json.child] at missing
    rw [collectLeaves, leavesBelow_eq, missing]
    exact ⟨_, rfl⟩

theorem hasElements_nil : hasElements convert (.arr []) = .ok false := by
  rfl

theorem leavesOf_leaf {children : Json} (leaf : ∀ first rest, children ≠ .arr (first :: rest)) (node : Json)
    (leaves : List Json) : leavesOf convert node children = .ok leaves ↔
      hasElements convert children = .ok false ∧ ofLeaf convert node = .ok leaves := by
  have called : (do
      let inner ← hasElements convert children
      if inner then .error "diagnostic.children.map is not a function" else ofLeaf convert node) = .ok leaves ↔
      hasElements convert children = .ok false ∧ ofLeaf convert node = .ok leaves := by
    rw [bind_eq_ok]
    constructor
    · intro given
      rcases given with ⟨inner, elements, result⟩
      cases inner with
      | true => cases result
      | false => exact ⟨elements, result⟩
    · intro given
      exact ⟨false, given.1, given.2⟩
  cases children with
  | prim p => exact called
  | obj props => exact called
  | arr elems =>
    cases elems with
    | nil => simp [leavesOf, hasElements_nil]
    | cons first rest => exact absurd rfl (leaf first rest)

theorem ofLeaf_ok (node : Json) :
    (∃ leaves, ofLeaf convert node = .ok leaves ∧ ∀ leaf ∈ leaves, is leaf = true) ↔
      ∃ positive, isPositive convert (node.child "severity") = .ok positive ∧ (positive = true → is node = true) := by
  constructor
  · intro given
    rcases given with ⟨leaves, result, accepted⟩
    rcases bind_eq_ok.mp result with ⟨positive, compared, same⟩
    refine ⟨positive, compared, ?_⟩
    intro isTrue
    subst isTrue
    cases same
    exact accepted node (by simp)
  · intro given
    rcases given with ⟨positive, compared, accepted⟩
    refine ⟨_, bind_eq_ok.mpr ⟨positive, compared, rfl⟩, ?_⟩
    cases positive with
    | false => simp
    | true => simpa using accepted rfl

theorem collectEach_ok (elems : List Json) :
    (∃ blocks, collectEach convert elems = .ok blocks ∧ ∀ leaf ∈ blocks.flatten, is leaf = true) ↔
      ∀ e ∈ elems, Collects convert e := by
  induction elems with
  | nil => simp [collectEach]
  | cons e rest ih =>
    rw [List.forall_mem_cons, ← ih]
    constructor
    · intro given
      rcases given with ⟨blocks, result, accepted⟩
      rcases bind_eq_ok.mp result with ⟨leaves, first, next⟩
      rcases bind_eq_ok.mp next with ⟨others, later, same⟩
      cases same
      rw [List.flatten_cons, List.forall_mem_append] at accepted
      exact ⟨⟨leaves, first, accepted.1⟩, others, later, accepted.2⟩
    · intro given
      rcases given with ⟨⟨leaves, first, accepted⟩, others, later, accepted'⟩
      refine ⟨leaves :: others, bind_eq_ok.mpr ⟨leaves, first, bind_eq_ok.mpr ⟨others, later, rfl⟩⟩, ?_⟩
      rw [List.flatten_cons, List.forall_mem_append]
      exact ⟨accepted, accepted'⟩

theorem collects_inner {x first : Json} {rest : List Json} (found : x.child "children" = some (.arr (first :: rest))) :
    Collects convert x ↔ ∀ e ∈ first :: rest, Collects convert e := by
  rw [← collectEach_ok, Collects, collectLeaves_some found, leavesOf]
  constructor
  · intro given
    rcases given with ⟨leaves, result, accepted⟩
    rcases bind_eq_ok.mp result with ⟨blocks, collected, same⟩
    cases same
    exact ⟨blocks, collected, by rwa [ModelServer.Diagnostic.foldl_concat] at accepted⟩
  · intro given
    rcases given with ⟨blocks, collected, accepted⟩
    exact ⟨_, bind_eq_ok.mpr ⟨blocks, collected, rfl⟩, by rwa [ModelServer.Diagnostic.foldl_concat]⟩

theorem collects_leaf {x children : Json} (found : x.child "children" = some children)
    (leaf : ∀ first rest, children ≠ .arr (first :: rest)) : Collects convert x ↔ Visitable convert x := by
  have inner : ¬ ∃ first rest, children = .arr (first :: rest) := fun given => leaf _ _ given.choose_spec.choose_spec
  simp only [Collects, collectLeaves_some found, leavesOf_leaf leaf, Visitable, found, Option.some.injEq,
    exists_eq_left', inner, false_or, and_assoc, exists_and_left, ofLeaf_ok]

theorem visitable_below_inner {x first : Json} {rest : List Json}
    (found : x.child "children" = some (.arr (first :: rest))) :
    (∀ node, Below x node → Visitable convert node) ↔
      ∀ e ∈ first :: rest, ∀ node, Below e node → Visitable convert node := by
  constructor
  · intro visitable e member node below
    exact visitable node (.under found member below)
  · intro visitable node below
    rcases below_cases below with rfl | ⟨elems, child, found', member, below'⟩
    · exact ⟨_, found, .inl ⟨first, rest, rfl⟩⟩
    · cases found.symm.trans found'
      exact visitable child member node below'

theorem visitable_below_leaf {x children : Json} (found : x.child "children" = some children)
    (leaf : ∀ first rest, children ≠ .arr (first :: rest)) :
    (∀ node, Below x node → Visitable convert node) ↔ Visitable convert x := by
  refine ⟨fun visitable => visitable x .root, fun visitable node below => ?_⟩
  rcases below_cases below with rfl | ⟨elems, child, found', member, -⟩
  · exact visitable
  · cases found.symm.trans found'
    cases elems with
    | nil => cases member
    | cons first rest => exact absurd rfl (leaf first rest)

/-- The leaves are collected, and are diagnostics, just where every node below can be visited. -/
theorem collects_iff (x : Json) : Collects convert x ↔ ∀ node, Below x node → Visitable convert node := by
  induction x using node_induct with
  | step x ih =>
    cases found : x.child "children" with
    | none =>
      rcases @collectLeaves_none convert x found with ⟨e, failed⟩
      constructor
      · intro given
        rcases given with ⟨leaves, result, -⟩
        cases failed.symm.trans result
      · intro visitable
        rcases visitable x .root with ⟨children, found', -⟩
        cases found.symm.trans found'
    | some children =>
      by_cases inner : ∃ first rest, children = .arr (first :: rest)
      · rcases inner with ⟨first, rest, rfl⟩
        rw [collects_inner found, visitable_below_inner found]
        exact forall₂_congr fun e member => ih _ e found member
      · have leaf : ∀ first rest, children ≠ .arr (first :: rest) := fun first rest same => inner ⟨first, rest, same⟩
        rw [collects_leaf found leaf, visitable_below_leaf found leaf]

theorem recomputeBelow_eq (own props : List (String × Json)) :
    recomputeBelow convert own props =
      ((props.lookup "children").map (recomputeOf convert own)).getD (.error noLength) := by
  induction props with
  | nil => rfl
  | cons entry rest ih =>
    rw [recomputeBelow, lookup_entry]
    by_cases here : entry.1 = "children"
    · rw [if_pos here, if_pos here.symm]
      rfl
    · rw [if_neg here, if_neg (Ne.symm here), ih]

theorem recomputeEach_ok {elems : List Json}
    (each : ∀ e ∈ elems, ∃ result, recomputeSeverity convert e = .ok result ∧
      ∃ positive, isPositive convert result.1 = .ok positive) (severity : Rat) :
    ∃ result, recomputeEach convert severity elems = .ok result := by
  induction elems generalizing severity with
  | nil => exact ⟨_, rfl⟩
  | cons e rest ih =>
    rcases List.forall_mem_cons.mp each with ⟨⟨result, first, positive, compared⟩, later⟩
    rcases orInto_of_isPositive convert compared severity with ⟨severity', combined⟩
    rcases ih later severity' with ⟨others, following⟩
    exact ⟨_, bind_eq_ok.mpr ⟨result, first, bind_eq_ok.mpr ⟨severity', combined, bind_eq_ok.mpr ⟨others, following, rfl⟩⟩⟩⟩

theorem collectEach_mem {elems : List Json} {blocks : List (List Json)} (collected : collectEach convert elems = .ok blocks) :
    ∀ e ∈ elems, ∃ leaves, collectLeaves convert e = .ok leaves := by
  induction elems generalizing blocks with
  | nil => simp
  | cons e rest ih =>
    rcases bind_eq_ok.mp collected with ⟨leaves, first, next⟩
    rcases bind_eq_ok.mp next with ⟨others, later, -⟩
    exact List.forall_mem_cons.mpr ⟨⟨leaves, first⟩, ih later⟩

theorem recomputeSeverity_some {x children : Json} (found : x.child "children" = some children) :
    recomputeSeverity convert x = recomputeOf convert x.entries children := by
  cases x with
  | prim p => cases found
  | arr elems =>
    have word : indexOf? "children" = none := by decide
    simp [Json.child, word] at found
  | obj props =>
    rw [Json.child] at found
    rw [recomputeSeverity, recomputeBelow_eq, found]
    rfl

theorem recomputeOf_leaf {children : Json} (elements : hasElements convert children = .ok false)
    (leaf : ∀ first rest, children ≠ .arr (first :: rest)) (own : List (String × Json)) :
    recomputeOf convert own children = .ok (own.lookup "severity", .obj own) := by
  cases children with
  | prim p => exact bind_eq_ok.mpr ⟨false, elements, rfl⟩
  | obj props => exact bind_eq_ok.mpr ⟨false, elements, rfl⟩
  | arr elems =>
    cases elems with
    | nil => rfl
    | cons first rest => exact absurd rfl (leaf first rest)

theorem recomputes_of_collects {x : Json} {leaves : List Json} (collected : collectLeaves convert x = .ok leaves) :
    ∃ result, recomputeSeverity convert x = .ok result ∧ ∃ positive, isPositive convert result.1 = .ok positive := by
  induction x using node_induct generalizing leaves with
  | step x ih =>
    cases found : x.child "children" with
    | none =>
      rcases @collectLeaves_none convert x found with ⟨e, failed⟩
      cases failed.symm.trans collected
    | some children =>
      rw [collectLeaves_some found] at collected
      rw [recomputeSeverity_some found]
      by_cases inner : ∃ first rest, children = .arr (first :: rest)
      · rcases inner with ⟨first, rest, rfl⟩
        rcases bind_eq_ok.mp collected with ⟨blocks, each, -⟩
        have below : ∀ e ∈ first :: rest, _ := fun e member => ih _ e found member (collectEach_mem each e member).choose_spec
        rcases recomputeEach_ok below ModelServer.OK with ⟨recomputed, result⟩
        exact ⟨_, bind_eq_ok.mpr ⟨recomputed, result, rfl⟩, _, isPositive_number convert recomputed.1⟩
      · have leaf : ∀ first rest, children ≠ .arr (first :: rest) := fun first rest same => inner ⟨first, rest, same⟩
        rcases (leavesOf_leaf leaf _ leaves).mp collected with ⟨elements, kept⟩
        rcases bind_eq_ok.mp kept with ⟨positive, compared, -⟩
        refine ⟨_, recomputeOf_leaf elements leaf _, positive, ?_⟩
        rwa [Json.lookup_entries]

/-- The guard is enough for both functions just where they can visit every node below the value. -/
theorem accepted_processed_iff (convert : Conversions) (x : Json) :
    (is x = true → Collects convert x ∧ ∃ result, recomputeSeverity convert x = .ok result) ↔
      (is x = true → ∀ node, Below x node → Visitable convert node) := by
  refine imp_congr_right fun _ => ?_
  rw [← collects_iff]
  constructor
  · intro given
    exact given.1
  · intro collects
    rcases collects with ⟨leaves, collected, accepted⟩
    rcases recomputes_of_collects collected with ⟨result, recomputed, -⟩
    exact ⟨⟨leaves, collected, accepted⟩, result, recomputed⟩

/-- The guard looks at the root only: it would be enough if it accepted every node. -/
theorem visitable_of_is {node : Json} (accepted : is node = true) : Visitable convert node := by
  have whole := accepted
  simp only [is, Bool.and_eq_true] at accepted
  rcases accepted with ⟨⟨⟨⟨⟨⟨⟨-, severity⟩, -⟩, -⟩, -⟩, -⟩, children⟩, -⟩
  unfold isNumber hasProperty at severity
  unfold isArray hasProperty at children
  split at severity
  · rename_i n at_severity
    split at children
    · rename_i array at_children
      refine ⟨array, at_children, ?_⟩
      cases array with
      | prim p => cases children
      | obj props => cases children
      | arr elems =>
        cases elems with
        | cons first rest => exact .inl ⟨first, rest, rfl⟩
        | nil =>
          cases n with
          | arr elems => cases severity
          | obj props => cases severity
          | prim p =>
            cases p with
            | number n => exact .inr ⟨hasElements_nil, _, by rw [at_severity]; exact isPositive_number convert n, fun _ => whole⟩
            | null => cases severity
            | bool b => cases severity
            | string s => cases severity
    · cases children
  · cases severity

def someConversions : Conversions where
  stringToNumber s := (s.toInt?.map fun n => Number.finite n).getD .nan
  numberToString n := toString n

def withNull : Json :=
  .obj [("severity", .prim (.number 4)), ("message", .prim (.string "Diagnosis of 1 problem.")),
    ("source", .prim (.string "org.eclipse.emf.ecore")), ("code", .prim (.number 0)), ("data", .arr []),
    ("children", .arr [.prim .null]), ("id", .prim (.string "/"))]

theorem accepted_not_processed :
    is withNull = true ∧
      collectLeaves someConversions withNull = .error "Cannot read properties of null (reading 'children')" ∧
      recomputeSeverity someConversions withNull = .error "Cannot read properties of null (reading 'children')" ∧
      ¬ (is withNull = true →
        Collects someConversions withNull ∧ ∃ result, recomputeSeverity someConversions withNull = .ok result) := by
  have accepted : is withNull = true := by rfl
  have failed : recomputeSeverity someConversions withNull =
      .error "Cannot read properties of null (reading 'children')" := by rfl
  refine ⟨accepted, by rfl, failed, ?_⟩
  intro processed
  rcases (processed accepted).2 with ⟨result, recomputed⟩
  cases failed.symm.trans recomputed

end Nodes

section Typed

variable {convert : Conversions}

mutual

def ofDiagnostic : ModelServer.Diagnostic → Json
  | ⟨severity, message, source, code, exception, data, children, id⟩ =>
    .obj ([("severity", .prim (.number severity)), ("message", .prim (.string message)),
      ("source", .prim (.string source)), ("code", .prim (.number code)), ("data", .arr data),
      ("children", .arr (ofDiagnostics children)), ("id", .prim (.string id))] ++
      (exception.map fun e => ("exception", e)).toList)

def ofDiagnostics : List ModelServer.Diagnostic → List Json
  | [] => []
  | d :: rest => ofDiagnostic d :: ofDiagnostics rest

end

theorem ofDiagnostics_eq (ds : List ModelServer.Diagnostic) : ofDiagnostics ds = ds.map ofDiagnostic := by
  induction ds with
  | nil => rfl
  | cons d rest ih => rw [ofDiagnostics, ih, List.map_cons]

theorem is_ofDiagnostic (d : ModelServer.Diagnostic) : is (ofDiagnostic d) = true := by
  cases d
  rw [ofDiagnostic]
  rfl

theorem child_ofDiagnostic (d : ModelServer.Diagnostic) :
    (ofDiagnostic d).child "children" = some (.arr (d.children.map ofDiagnostic)) ∧
      (ofDiagnostic d).child "severity" = some (.prim (.number d.severity)) := by
  cases d
  rw [ofDiagnostic, ofDiagnostics_eq]
  exact ⟨rfl, rfl⟩

theorem collectEach_map {ds : List ModelServer.Diagnostic}
    (each : ∀ d ∈ ds, collectLeaves convert (ofDiagnostic d) = .ok (d.collectLeaves.map ofDiagnostic)) :
    collectEach convert (ds.map ofDiagnostic) = .ok (ds.map fun d => d.collectLeaves.map ofDiagnostic) := by
  induction ds with
  | nil => rfl
  | cons d rest ih =>
    rcases List.forall_mem_cons.mp each with ⟨first, later⟩
    simp only [List.map_cons, collectEach, first, ih later, bind, Except.bind]

theorem collectLeaves_ofDiagnostic (d : ModelServer.Diagnostic) :
    collectLeaves convert (ofDiagnostic d) = .ok (d.collectLeaves.map ofDiagnostic) := by
  induction d using ModelServer.Diagnostic.child_induct with
  | step d ih =>
    rcases child_ofDiagnostic d with ⟨children, severity⟩
    rw [collectLeaves_some children]
    cases below : d.children with
    | nil =>
      rw [ModelServer.Diagnostic.collectLeaves_leaf below, List.map_nil, leavesOf, ofLeaf, severity, isPositive_number]
      by_cases positive : 0 < d.severity
      · simp [bind, Except.bind, positive]
      · simp [bind, Except.bind, positive]
    | cons first rest =>
      have inner : d.children ≠ [] := by simp [below]
      have each := collectEach_map ih
      rw [below, List.map_cons] at each
      rw [ModelServer.Diagnostic.collectLeaves_inner inner, List.map_cons, leavesOf, each, below]
      have joined := ModelServer.Diagnostic.foldl_concat
        ((first :: rest).map fun d => d.collectLeaves.map ofDiagnostic)
      simp only [bind, Except.bind, joined, List.flatMap, List.map_flatten, List.map_map, Function.comp_def]

theorem recomputeEach_map {ds : List ModelServer.Diagnostic}
    (each : ∀ d ∈ ds, recomputeSeverity convert (ofDiagnostic d) =
      .ok (some (.prim (.number d.recomputeSeverity.1)), ofDiagnostic d.recomputed)) (severity : Rat) :
    recomputeEach convert severity (ds.map ofDiagnostic) =
      .ok ((ds.map fun d => d.recomputeSeverity.1).foldl bitOr severity,
        (ds.map ModelServer.Diagnostic.recomputed).map ofDiagnostic) := by
  induction ds generalizing severity with
  | nil => rfl
  | cons d rest ih =>
    rcases List.forall_mem_cons.mp each with ⟨first, later⟩
    simp only [List.map_cons, List.foldl_cons, recomputeEach, first, orInto_number, ih later, bind, Except.bind]

theorem recomputeSeverity_ofDiagnostic (d : ModelServer.Diagnostic) :
    recomputeSeverity convert (ofDiagnostic d) =
      .ok (some (.prim (.number d.recomputeSeverity.1)), ofDiagnostic d.recomputed) := by
  induction d using ModelServer.Diagnostic.child_induct with
  | step d ih =>
    cases d with
    | mk severity message source code exception data children id =>
      have found : (ModelServer.Diagnostic.mk severity message source code exception data children id).children =
          children := rfl
      cases children with
      | nil =>
        rw [ModelServer.Diagnostic.recomputed_leaf found, ModelServer.Diagnostic.recomputeSeverity_leaf found]
        rfl
      | cons first rest =>
        have inner : (ModelServer.Diagnostic.mk severity message source code exception data (first :: rest) id).children ≠
            [] := by simp
        have each := recomputeEach_map ih ModelServer.OK
        rw [found, List.map_cons] at each
        rw [ModelServer.Diagnostic.recomputed, ModelServer.Diagnostic.recomputeSeverity_inner inner, found, ofDiagnostic,
          ofDiagnostics_eq, List.map_cons, ofDiagnostic, ofDiagnostics_eq]
        simp only [recomputeSeverity, recomputeBelow_eq]
        simp [lookup_entry, recomputeOf, each, bind, Except.bind, put]

end Typed

end ModelServer.Message.Diagnostic
