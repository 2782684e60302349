import ModelServer.Js.Conversion
import ModelServer.Message.Guards

namespace ModelServer.Rpc
open Js Message

/-- What the code takes from urijs: the parts of an instance, the text it has built and whether it still has
    to build one, and `new URI(..)` of parts and of an instance. A failure carries its message. -/
structure UriLibrary (U : Type) where
  parts : U → List (String × Json)
  string : U → String
  deferredBuild : U → Bool
  ofParts : Json → Except String U
  ofInstance : U → Except String U

/-- A value that is passed to a remote method. An object without a prototype of its own here has the one of
    all objects. -/
inductive Argument (U : Type)
  | prim (p : Prim)
  | arr (elems : List (Argument U))
  | obj (prototype : Option (Argument U)) (props : List (String × Argument U))
  | uri (u : U)

namespace Argument

variable {U V : Type}

mutual

def ofJson : Json → Argument U
  | .prim p => prim p
  | .arr elems => arr (ofJsonElems elems)
  | .obj props => obj none (ofJsonProps props)

def ofJsonElems : List Json → List (Argument U)
  | [] => []
  | e :: rest => ofJson e :: ofJsonElems rest

def ofJsonProps : List (String × Json) → List (String × Argument U)
  | [] => []
  | (name, value) :: rest => (name, ofJson value) :: ofJsonProps rest

end

def uriJson (lib : UriLibrary U) (u : U) : Json :=
  .obj [("_string", .prim (.string (lib.string u))), ("_parts", .obj (lib.parts u)),
    ("_deferred_build", .prim (.bool (lib.deferredBuild u)))]

mutual

/-- What is left of an argument on the wire: own properties, and those of a URI too. -/
def wire (lib : UriLibrary U) : Argument U → Json
  | prim p => .prim p
  | arr elems => .arr (wireElems lib elems)
  | obj _ props => .obj (wireProps lib props)
  | uri u => uriJson lib u

def wireElems (lib : UriLibrary U) : List (Argument U) → List Json
  | [] => []
  | e :: rest => wire lib e :: wireElems lib rest

def wireProps (lib : UriLibrary U) : List (String × Argument U) → List (String × Json)
  | [] => []
  | (name, value) :: rest => (name, wire lib value) :: wireProps lib rest

end

theorem wireElems_eq_map (lib : UriLibrary U) (elems : List (Argument U)) : wireElems lib elems = elems.map (wire lib) := by
  induction elems with
  | nil => rfl
  | cons e rest ih => rw [wireElems, ih, List.map_cons]

theorem wireProps_eq_map (lib : UriLibrary U) (props : List (String × Argument U)) :
    wireProps lib props = props.map fun entry => (entry.1, wire lib entry.2) := by
  induction props with
  | nil => rfl
  | cons entry rest ih => rw [wireProps, ih, List.map_cons]

mutual

def view (f : U → V) : Argument U → Argument V
  | prim p => prim p
  | arr elems => arr (viewElems f elems)
  | obj none props => obj none (viewProps f props)
  | obj (some prototype) props => obj (some (view f prototype)) (viewProps f props)
  | uri u => uri (f u)

def viewElems (f : U → V) : List (Argument U) → List (Argument V)
  | [] => []
  | e :: rest => view f e :: viewElems f rest

def viewProps (f : U → V) : List (String × Argument U) → List (String × Argument V)
  | [] => []
  | (name, value) :: rest => (name, view f value) :: viewProps f rest

end

theorem viewElems_eq_map (f : U → V) (elems : List (Argument U)) : viewElems f elems = elems.map (view f) := by
  induction elems with
  | nil => rfl
  | cons e rest ih => rw [viewElems, ih, List.map_cons]

theorem viewProps_eq_map (f : U → V) (props : List (String × Argument U)) :
    viewProps f props = props.map fun entry => (entry.1, view f entry.2) := by
  induction props with
  | nil => rfl
  | cons entry rest ih => rw [viewProps, ih, List.map_cons]

mutual

def plain : Argument U → Bool
  | prim _ => true
  | arr elems => plainElems elems
  | obj none props => plainProps props
  | obj (some _) _ => false
  | uri _ => false

def plainElems : List (Argument U) → Bool
  | [] => true
  | e :: rest => plain e && plainElems rest

def plainProps : List (String × Argument U) → Bool
  | [] => true
  | (_, value) :: rest => plain value && plainProps rest

end

mutual

/-- The wire keeps the plain values, and these only. -/
theorem view_ofJson_wire (lib : UriLibrary U) (f : U → V) :
    ∀ a : Argument U, (ofJson (wire lib a)).view f = a.view f ↔ a.plain = true
  | .prim p => by simp [wire, ofJson, view, plain]
  | .arr elems => by
    simp only [wire, ofJson, view, plain, arr.injEq]
    exact viewElems_ofJson_wire lib f elems
  | .obj none props => by
    simp only [wire, ofJson, view, plain, obj.injEq, true_and]
    exact viewProps_ofJson_wire lib f props
  | .obj (some prototype) props => by simp [wire, ofJson, view, plain]
  | .uri u => by simp [wire, uriJson, ofJson, view, plain]

theorem viewElems_ofJson_wire (lib : UriLibrary U) (f : U → V) :
    ∀ elems : List (Argument U), viewElems f (ofJsonElems (wireElems lib elems)) = viewElems f elems ↔
      plainElems elems = true
  | [] => by simp [wireElems, ofJsonElems, viewElems, plainElems]
  | e :: rest => by
    simp only [wireElems, ofJsonElems, viewElems, plainElems, List.cons.injEq, Bool.and_eq_true]
    exact and_congr (view_ofJson_wire lib f e) (viewElems_ofJson_wire lib f rest)

theorem viewProps_ofJson_wire (lib : UriLibrary U) (f : U → V) :
    ∀ props : List (String × Argument U), viewProps f (ofJsonProps (wireProps lib props)) = viewProps f props ↔
      plainProps props = true
  | [] => by simp [wireProps, ofJsonProps, viewProps, plainProps]
  | (name, value) :: rest => by
    simp only [wireProps, ofJsonProps, viewProps, plainProps, List.cons.injEq, Prod.mk.injEq, true_and,
      Bool.and_eq_true]
    exact and_congr (view_ofJson_wire lib f value) (viewProps_ofJson_wire lib f rest)

end

def holdsObject : Argument U → Bool
  | prim p => p = .null
  | _ => true

end Argument

namespace TheiaModelServerJsonRpcProxyFactory

variable {U : Type}

def newURI (lib : UriLibrary U) (obj : Json) : Except String (Argument U) := do
  let parts := (obj.child "_parts").getD (.prim .null)
  let instance' ← lib.ofParts parts
  let copy ← lib.ofInstance instance'
  return .uri copy

def processValue (lib : UriLibrary U) (value : Json) : Except String (Argument U) :=
  if isURI value then newURI lib value else .ok (.ofJson value)

structure ArgObject (U : Type) where
  prototype : Option (Argument U)
  props : List (String × Argument U)

/-- `argObject[key] = value`. The name `__proto__` is a setter of all objects: it takes an object or null and
    ignores the rest. -/
def ArgObject.assign (argObject : ArgObject U) (key : String) (value : Argument U) : ArgObject U :=
  if key = "__proto__" then
    if value.holdsObject then { argObject with prototype := some value } else argObject
  else { argObject with props := put key value argObject.props }

def processEntries (lib : UriLibrary U) : List (String × Json) → ArgObject U → Except String (ArgObject U)
  | [], argObject => .ok argObject
  | (key, value) :: rest, argObject => do
    let processed ← processValue lib value
    processEntries lib rest (argObject.assign key processed)

def processArgument (lib : UriLibrary U) (arg : Json) : Except String (Argument U) :=
  if isURI arg then newURI lib arg
  else
    match arg with
    | .arr elems => do
      let argArray ← elems.mapM (processValue lib)
      return .arr argArray
    | .obj props => do
      let argObject ← processEntries lib props ⟨none, []⟩
      return .obj argObject.prototype argObject.props
    | .prim p => .ok (.prim p)

def processArguments (lib : UriLibrary U) (args : List Json) : Except String (List (Argument U)) :=
  args.mapM (processArgument lib)

def Kept (lib : UriLibrary U) (u : U) : Prop :=
  ∃ v w, lib.ofParts (.obj (lib.parts u)) = .ok v ∧ lib.ofInstance v = .ok w ∧ lib.parts w = lib.parts u

def ValueArrives (lib : UriLibrary U) (value : Argument U) : Prop :=
  match value with
  | .uri u => Kept lib u
  | _ => isURI (value.wire lib) = false ∧ value.plain = true

def ArgumentArrives (lib : UriLibrary U) (arg : Argument U) : Prop :=
  match arg with
  | .prim _ => True
  | .uri u => Kept lib u
  | .arr elems => ∀ e ∈ elems, ValueArrives lib e
  | .obj none props =>
    isURI (arg.wire lib) = false ∧ ∀ entry ∈ props, entry.1 ≠ "__proto__" ∧ ValueArrives lib entry.2
  | .obj (some _) _ => False

variable {lib : UriLibrary U}

theorem newURI_eq_ok {obj : Json} {r : Argument U} :
    newURI lib obj = .ok r ↔
      ∃ v w, lib.ofParts ((obj.child "_parts").getD (.prim .null)) = .ok v ∧ lib.ofInstance v = .ok w ∧ .uri w = r := by
  rw [newURI, bind_eq_ok]
  constructor
  · intro made
    rcases made with ⟨v, first, rest⟩
    rcases bind_eq_ok.mp rest with ⟨w, second, same⟩
    exact ⟨v, w, first, second, Except.ok.inj same⟩
  · intro made
    rcases made with ⟨v, w, first, second, rfl⟩
    exact ⟨v, first, bind_eq_ok.mpr ⟨w, second, rfl⟩⟩

theorem newURI_arrives (u : U) :
    (∃ r, newURI lib (Argument.uriJson lib u) = .ok r ∧ r.view lib.parts = (Argument.uri u).view lib.parts) ↔
      Kept lib u := by
  have parts : ((Argument.uriJson lib u).child "_parts").getD (.prim .null) = .obj (lib.parts u) := rfl
  constructor
  · intro given
    rcases given with ⟨r, made, same⟩
    rcases newURI_eq_ok.mp made with ⟨v, w, first, second, rfl⟩
    exact ⟨v, w, first, second, Argument.uri.inj same⟩
  · intro kept
    rcases kept with ⟨v, w, first, second, same⟩
    exact ⟨.uri w, newURI_eq_ok.mpr ⟨v, w, first, second, rfl⟩, congrArg Argument.uri same⟩

theorem not_uri_of_newURI {obj : Json} {r value : Argument U} (made : newURI lib obj = .ok r)
    (other : ∀ u, value ≠ .uri u) : r.view lib.parts ≠ value.view lib.parts := by
  rcases newURI_eq_ok.mp made with ⟨v, w, -, -, rfl⟩
  cases value with
  | prim p => nofun
  | arr elems => nofun
  | uri u => exact absurd rfl (other u)
  | obj prototype props => cases prototype <;> nofun

theorem processValue_arrives (value : Argument U) :
    (∃ r, processValue lib (value.wire lib) = .ok r ∧ r.view lib.parts = value.view lib.parts) ↔
      ValueArrives lib value := by
  have notURI (other : ∀ u, value ≠ .uri u) :
      (∃ r, processValue lib (value.wire lib) = .ok r ∧ r.view lib.parts = value.view lib.parts) ↔
        isURI (value.wire lib) = false ∧ value.plain = true := by
    rw [processValue]
    cases taken : isURI (value.wire lib) with
    | false =>
      constructor
      · intro given
        rcases given with ⟨r, made, same⟩
        cases made
        exact ⟨rfl, (Argument.view_ofJson_wire lib lib.parts value).mp same⟩
      · intro given
        exact ⟨_, rfl, (Argument.view_ofJson_wire lib lib.parts value).mpr given.2⟩
    | true =>
      constructor
      · intro given
        rcases given with ⟨r, made, same⟩
        exact absurd same (not_uri_of_newURI made other)
      · intro given
        cases given.1
  cases value with
  | uri u => exact newURI_arrives u
  | prim p => exact notURI nofun
  | arr elems => exact notURI nofun
  | obj prototype props => exact notURI nofun

theorem mapM_arrives {α β γ δ : Type} {send : α → δ} {process : δ → Except String β} {view : β → γ} {seen : α → γ}
    (sent : List α) :
    (∃ received, (sent.map send).mapM process = .ok received ∧ received.map view = sent.map seen) ↔
      ∀ a ∈ sent, ∃ b, process (send a) = .ok b ∧ view b = seen a := by
  induction sent with
  | nil => exact ⟨fun _ => nofun, fun _ => ⟨[], rfl, rfl⟩⟩
  | cons a rest ih =>
    rw [List.forall_mem_cons, ← ih, List.map_cons, List.mapM_cons]
    constructor
    · intro given
      rcases given with ⟨received, made, same⟩
      rcases bind_eq_ok.mp made with ⟨b, first, next⟩
      rcases bind_eq_ok.mp next with ⟨others, later, joined⟩
      cases joined
      rw [List.map_cons, List.map_cons, List.cons.injEq] at same
      exact ⟨⟨b, first, same.1⟩, others, later, same.2⟩
    · intro given
      rcases given with ⟨⟨b, first, same⟩, others, later, rest⟩
      refine ⟨b :: others, bind_eq_ok.mpr ⟨b, first, bind_eq_ok.mpr ⟨others, later, rfl⟩⟩, ?_⟩
      rw [List.map_cons, List.map_cons, same, rest]

def processEntry (lib : UriLibrary U) (entry : String × Json) : Except String (String × Argument U) := do
  let processed ← processValue lib entry.2
  return (entry.1, processed)

theorem processEntries_eq_ok {entries : List (String × Json)} {argObject result : ArgObject U} :
    processEntries lib entries argObject = .ok result ↔
      ∃ processed, entries.mapM (processEntry lib) = .ok processed ∧
        processed.foldl (fun o entry => o.assign entry.1 entry.2) argObject = result := by
  induction entries generalizing argObject with
  | nil =>
    rw [processEntries, List.mapM_nil]
    constructor
    · intro same
      cases same
      exact ⟨[], rfl, rfl⟩
    · intro given
      rcases given with ⟨processed, made, rfl⟩
      cases made
      rfl
  | cons entry rest ih =>
    obtain ⟨key, value⟩ := entry
    rw [processEntries, bind_eq_ok, List.mapM_cons]
    constructor
    · intro given
      rcases given with ⟨first, made, next⟩
      rcases ih.mp next with ⟨others, later, rfl⟩
      exact ⟨(key, first) :: others, bind_eq_ok.mpr ⟨_, bind_eq_ok.mpr ⟨first, made, rfl⟩,
        bind_eq_ok.mpr ⟨others, later, rfl⟩⟩, rfl⟩
    · intro given
      rcases given with ⟨processed, all, rfl⟩
      rcases bind_eq_ok.mp all with ⟨head, converted, next⟩
      rcases bind_eq_ok.mp converted with ⟨first, made, named⟩
      rcases bind_eq_ok.mp next with ⟨others, later, joined⟩
      cases named
      cases joined
      exact ⟨first, made, ih.mpr ⟨others, later, rfl⟩⟩

theorem keys_of_processed {entries : List (String × Json)} {processed : List (String × Argument U)}
    (made : entries.mapM (processEntry lib) = .ok processed) : processed.map Prod.fst = entries.map Prod.fst := by
  induction entries generalizing processed with
  | nil =>
    cases made
    rfl
  | cons entry rest ih =>
    rw [List.mapM_cons] at made
    rcases bind_eq_ok.mp made with ⟨head, converted, next⟩
    rcases bind_eq_ok.mp converted with ⟨first, -, named⟩
    rcases bind_eq_ok.mp next with ⟨others, later, joined⟩
    cases named
    cases joined
    rw [List.map_cons, List.map_cons, ih later]

theorem proto_not_assigned (processed : List (String × Argument U)) {argObject : ArgObject U}
    (own : "__proto__" ∉ argObject.props.map Prod.fst) :
    "__proto__" ∉ (processed.foldl (fun o entry => o.assign entry.1 entry.2) argObject).props.map Prod.fst := by
  induction processed generalizing argObject with
  | nil => exact own
  | cons entry rest ih =>
    have kept : "__proto__" ∉ (argObject.assign entry.1 entry.2).props.map Prod.fst := by
      rw [ArgObject.assign]
      split
      · split <;> exact own
      · rename_i other
        intro member
        rcases mem_keys_put member with same | before
        · exact other same.symm
        · exact own before
    exact ih kept

theorem assign_distinct (processed : List (String × Argument U)) {argObject : ArgObject U}
    (distinct : ((argObject.props ++ processed).map Prod.fst).Nodup)
    (own : "__proto__" ∉ processed.map Prod.fst) :
    processed.foldl (fun o entry => o.assign entry.1 entry.2) argObject =
      ⟨argObject.prototype, argObject.props ++ processed⟩ := by
  induction processed generalizing argObject with
  | nil => rw [List.append_nil, List.foldl_nil]
  | cons entry rest ih =>
    rw [List.map_cons, List.mem_cons, not_or] at own
    have new : entry.1 ∉ argObject.props.map Prod.fst := by
      rw [List.map_append, List.map_cons] at distinct
      intro member
      exact (List.disjoint_of_nodup_append distinct) member List.mem_cons_self
    have assigned : argObject.assign entry.1 entry.2 = ⟨argObject.prototype, argObject.props ++ [entry]⟩ := by
      rw [ArgObject.assign, if_neg (Ne.symm own.1), put_new new]
    rw [List.append_cons] at distinct
    rw [List.foldl_cons, assigned, ih distinct own.2, List.append_assoc, List.singleton_append]

theorem processEntry_arrives (entry : String × Argument U) :
    (∃ r, processEntry lib (entry.1, entry.2.wire lib) = .ok r ∧
        (r.1, r.2.view lib.parts) = (entry.1, entry.2.view lib.parts)) ↔ ValueArrives lib entry.2 := by
  rw [← processValue_arrives]
  constructor
  · intro given
    rcases given with ⟨r, made, same⟩
    rcases bind_eq_ok.mp made with ⟨processed, converted, named⟩
    cases named
    exact ⟨processed, converted, congrArg Prod.snd same⟩
  · intro given
    rcases given with ⟨r, made, same⟩
    exact ⟨(entry.1, r), bind_eq_ok.mpr ⟨r, made, rfl⟩, by rw [same]⟩

theorem view_keys {prototype prototype' : Option (Argument U)} {props props' : List (String × Argument U)}
    (same : (Argument.obj prototype props).view lib.parts = (Argument.obj prototype' props').view lib.parts) :
    props.map Prod.fst = props'.map Prod.fst := by
  have seen : Argument.viewProps lib.parts props = Argument.viewProps lib.parts props' := by
    cases prototype <;> cases prototype' <;> simp only [Argument.view, Argument.obj.injEq] at same <;> exact same.2
  rw [Argument.viewProps_eq_map, Argument.viewProps_eq_map] at seen
  simpa [List.map_map, Function.comp_def] using congrArg (List.map Prod.fst) seen

theorem keys_of_sent {props : List (String × Argument U)} {processed : List (String × Argument U)}
    (made : (props.map fun entry => (entry.1, entry.2.wire lib)).mapM (processEntry lib) = .ok processed) :
    processed.map Prod.fst = props.map Prod.fst := by
  rw [keys_of_processed made, List.map_map]
  rfl

theorem assign_sent {props processed : List (String × Argument U)} (distinct : (props.map Prod.fst).Nodup)
    (keys : processed.map Prod.fst = props.map Prod.fst) (own : "__proto__" ∉ props.map Prod.fst) :
    processed.foldl (fun o entry => o.assign entry.1 entry.2) (⟨none, []⟩ : ArgObject U) = ⟨none, processed⟩ := by
  rw [assign_distinct processed (by rwa [List.nil_append, keys]) (by rwa [keys]), List.nil_append]

theorem processEntries_kept {props : List (String × Argument U)} {o : ArgObject U} (distinct : (props.map Prod.fst).Nodup)
    (result : processEntries lib (Argument.wireProps lib props) ⟨none, []⟩ = .ok o)
    (keys : o.props.map Prod.fst = props.map Prod.fst) :
    "__proto__" ∉ props.map Prod.fst ∧ ∃ processed, (props.map fun entry => (entry.1, entry.2.wire lib)).mapM
      (processEntry lib) = .ok processed ∧ o = ⟨none, processed⟩ := by
  rw [Argument.wireProps_eq_map] at result
  rcases processEntries_eq_ok.mp result with ⟨processed, made, rfl⟩
  have own : "__proto__" ∉ props.map Prod.fst := by
    rw [← keys]
    exact proto_not_assigned processed List.not_mem_nil
  exact ⟨own, processed, made, assign_sent distinct (keys_of_sent made) own⟩

theorem processEntries_arrives {props : List (String × Argument U)} (distinct : (props.map Prod.fst).Nodup) :
    (∃ o, processEntries lib (Argument.wireProps lib props) ⟨none, []⟩ = .ok o ∧
        (Argument.obj o.prototype o.props).view lib.parts = (Argument.obj none props).view lib.parts) ↔
      ∀ entry ∈ props, entry.1 ≠ "__proto__" ∧ ValueArrives lib entry.2 := by
  have each := @mapM_arrives _ _ _ _ (fun entry : String × Argument U => (entry.1, entry.2.wire lib))
    (processEntry lib) (fun r => (r.1, r.2.view lib.parts)) (fun entry => (entry.1, entry.2.view lib.parts)) props
  simp only [processEntry_arrives] at each
  constructor
  · intro given
    rcases given with ⟨o, result, same⟩
    rcases processEntries_kept distinct result (view_keys same) with ⟨own, processed, made, rfl⟩
    rw [Argument.view, Argument.view, Argument.obj.injEq, Argument.viewProps_eq_map, Argument.viewProps_eq_map] at same
    intro entry member
    refine ⟨fun name => own (List.mem_map.mpr ⟨entry, member, name⟩), ?_⟩
    exact each.mp ⟨processed, made, same.2⟩ entry member
  · intro arrives
    have own : "__proto__" ∉ props.map Prod.fst := by
      intro member
      rcases List.mem_map.mp member with ⟨entry, inside, name⟩
      exact (arrives entry inside).1 name
    rcases each.mpr fun entry member => (arrives entry member).2 with ⟨processed, made, same⟩
    refine ⟨⟨none, processed⟩, ?_, ?_⟩
    · rw [Argument.wireProps_eq_map]
      exact processEntries_eq_ok.mpr ⟨processed, made, assign_sent distinct (keys_of_sent made) own⟩
    · rw [Argument.view, Argument.view, Argument.viewProps_eq_map, Argument.viewProps_eq_map, same]

/-- Every object of a call lists each of its own properties once. -/
def DistinctNames : Argument U → Prop
  | .obj _ props => (props.map Prod.fst).Nodup
  | _ => True

theorem processArgument_URI {arg : Json} (taken : isURI arg = true) : processArgument lib arg = newURI lib arg := by
  rw [processArgument.eq_def, if_pos taken]

theorem processArgument_arr (elems : List (Argument U)) (r : Argument U) :
    processArgument lib ((Argument.arr elems).wire lib) = .ok r ↔
      ∃ received, (elems.map (Argument.wire lib)).mapM (processValue lib) = .ok received ∧ .arr received = r := by
  rw [Argument.wire, processArgument, not_isURI_arr, Argument.wireElems_eq_map]
  simp only [Bool.false_eq_true, if_false]
  rw [bind_eq_ok]
  simp only [pure, Except.pure, Except.ok.injEq]

theorem processArgument_obj {prototype : Option (Argument U)} {props : List (String × Argument U)} {r : Argument U}
    (guarded : isURI ((Argument.obj prototype props).wire lib) = false) :
    processArgument lib ((Argument.obj prototype props).wire lib) = .ok r ↔
      ∃ o, processEntries lib (Argument.wireProps lib props) ⟨none, []⟩ = .ok o ∧ .obj o.prototype o.props = r := by
  rw [Argument.wire] at guarded ⊢
  rw [processArgument, guarded]
  simp only [Bool.false_eq_true, if_false]
  rw [bind_eq_ok]
  simp only [pure, Except.pure, Except.ok.injEq]

theorem processArgument_arrives {arg : Argument U} (distinct : DistinctNames arg) :
    (∃ r, processArgument lib (arg.wire lib) = .ok r ∧ r.view lib.parts = arg.view lib.parts) ↔
      ArgumentArrives lib arg := by
  cases arg with
  | prim p => exact ⟨fun _ => trivial, fun _ => ⟨.prim p, rfl, rfl⟩⟩
  | uri u => exact newURI_arrives u
  | arr elems =>
    have each := @mapM_arrives _ _ _ _ (Argument.wire lib) (processValue lib) (Argument.view lib.parts)
      (Argument.view lib.parts) elems
    simp only [processValue_arrives] at each
    simp only [processArgument_arr, ArgumentArrives, ← each]
    constructor
    · intro given
      rcases given with ⟨r, ⟨received, made, rfl⟩, same⟩
      rw [Argument.view, Argument.view, Argument.viewElems_eq_map, Argument.viewElems_eq_map] at same
      exact ⟨received, made, Argument.arr.inj same⟩
    · intro given
      rcases given with ⟨received, made, same⟩
      refine ⟨.arr received, ⟨received, made, rfl⟩, ?_⟩
      rw [Argument.view, Argument.view, Argument.viewElems_eq_map, Argument.viewElems_eq_map, same]
  | obj prototype props =>
    cases taken : isURI ((Argument.obj prototype props).wire lib) with
    | true =>
      constructor
      · intro given
        rcases given with ⟨r, made, same⟩
        rw [processArgument_URI taken] at made
        exact absurd same (not_uri_of_newURI made nofun)
      · intro arrives
        cases prototype with
        | some p => exact arrives.elim
        | none => exact absurd (taken.symm.trans arrives.1) nofun
    | false =>
      simp only [processArgument_obj taken]
      cases prototype with
      | none =>
        simp only [ArgumentArrives, taken, true_and]
        rw [← processEntries_arrives distinct]
        constructor
        · intro given
          rcases given with ⟨r, ⟨o, result, rfl⟩, same⟩
          exact ⟨o, result, same⟩
        · intro given
          rcases given with ⟨o, result, same⟩
          exact ⟨_, ⟨o, result, rfl⟩, same⟩
      | some p =>
        refine ⟨fun given => ?_, False.elim⟩
        rcases given with ⟨r, ⟨o, result, rfl⟩, same⟩
        rcases processEntries_kept distinct result (view_keys same) with ⟨-, processed, -, rfl⟩
        cases same

/-- The arguments of a remote call arrive as they were sent exactly when every URI is an argument, or an element or
    a property of one, and nothing else there looks like a URI. -/
theorem processArguments_restores_iff (lib : UriLibrary U) (args : List (Argument U))
    (distinct : ∀ arg ∈ args, DistinctNames arg) :
    (∃ received, processArguments lib (args.map (Argument.wire lib)) = .ok received ∧
        received.map (Argument.view lib.parts) = args.map (Argument.view lib.parts)) ↔
      ∀ arg ∈ args, ArgumentArrives lib arg := by
  rw [processArguments, mapM_arrives]
  constructor
  · intro each arg member
    exact (processArgument_arrives (distinct arg member)).mp (each arg member)
  · intro each arg member
    exact (processArgument_arrives (distinct arg member)).mpr (each arg member)

def plainUris : UriLibrary (List (String × Json)) where
  parts := id
  string := fun _ => ""
  deferredBuild := fun _ => true
  ofParts := fun
    | .obj props =>
      if (props.lookup "hostname").isSome || (props.lookup "path").isSome then .ok props else .error "invalid input"
    | _ => .error "invalid input"
  ofInstance := .ok

def workspaceRoot : List (String × Json) :=
  [("protocol", .prim (.string "file")), ("path", .prim (.string "/home/workspace"))]

def serverConfiguration : Argument (List (String × Json)) :=
  .obj none [("workspaceRoot", .uri workspaceRoot), ("uiSchemaFolder", .uri workspaceRoot)]

theorem processArguments_restores_configuration :
    ∃ received, processArguments plainUris ([serverConfiguration].map (Argument.wire plainUris)) = .ok received ∧
      received.map (Argument.view plainUris.parts) = [serverConfiguration].map (Argument.view plainUris.parts) := by
  have kept : Kept plainUris workspaceRoot := ⟨workspaceRoot, workspaceRoot, rfl, rfl, rfl⟩
  have distinct : DistinctNames serverConfiguration := by
    change (["workspaceRoot", "uiSchemaFolder"] : List String).Nodup
    decide
  refine (processArguments_restores_iff plainUris [serverConfiguration] (List.forall_mem_singleton.mpr distinct)).mpr ?_
  refine List.forall_mem_singleton.mpr ⟨rfl, fun entry member => ?_⟩
  rcases List.mem_cons.mp member with rfl | later
  · exact ⟨by decide, kept⟩
  · rcases List.mem_singleton.mp later with rfl
    exact ⟨by decide, kept⟩

end TheiaModelServerJsonRpcProxyFactory

end ModelServer.Rpc
