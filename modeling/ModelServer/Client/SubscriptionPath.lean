import Mathlib.Data.List.Perm.Basic
import Mathlib.Data.List.Nodup
import ModelServer.Js.Json

namespace ModelServer.Client
open Js

/-- What the clients take from urijs, with what is known of the query: it is a list of parameters, in some order,
    and a parameter that is there already is not added again. A parameter without a value is a key alone. -/
structure Urijs where
  URI : Type
  parameters : URI → List (String × Option String)
  protocol : URI → String → URI
  segment : URI → String → URI
  addQuery : URI → String → Option String → URI
  removeQuery : URI → String → URI
  parameters_protocol : ∀ uri name, parameters (protocol uri name) = parameters uri
  parameters_segment : ∀ uri name, parameters (segment uri name) = parameters uri
  parameters_addQuery : ∀ uri name value, (parameters (addQuery uri name value)).Perm
    (if (name, value) ∈ parameters uri then parameters uri else parameters uri ++ [(name, value)])
  parameters_removeQuery : ∀ uri name,
    (parameters (removeQuery uri name)).Perm ((parameters uri).filter fun parameter => parameter.1 ≠ name)

def SUBSCRIPTION : String := "subscribe"

/-- The own properties of an options object, each with the text of its value or undefined. -/
structure SubscriptionOptions where
  entries : List (String × Option String)
  distinct : (entries.map Prod.fst).Nodup
  foreign : ∀ entry ∈ entries, entry.1 ≠ "modeluri"

def SubscriptionOptions.formatOr (options : SubscriptionOptions) (defaultFormat : String) : String :=
  match options.entries.lookup "format" with
  | some (some format) => if format = "" then defaultFormat else format
  | _ => defaultFormat

section Paths

variable (urijs : Urijs)

def subscriptionPath (baseUrl : urijs.URI) (modeluri format : String) (paramOptions : List (String × Option String)) :
    urijs.URI :=
  let subscriptionUri := urijs.segment (urijs.protocol baseUrl "ws") SUBSCRIPTION
  let subscriptionUri := urijs.addQuery subscriptionUri "modeluri" (some modeluri)
  let subscriptionUri := urijs.addQuery subscriptionUri "format" (some format)
  let subscriptionUri := paramOptions.foldl (fun uri entry => urijs.addQuery uri entry.1 entry.2) subscriptionUri
  urijs.removeQuery subscriptionUri "errorWhenUnsuccessful"

def ModelServerClient.createSubscriptionPath (baseUrl : urijs.URI) (defaultFormat modeluri : String)
    (options : SubscriptionOptions) : urijs.URI :=
  subscriptionPath urijs baseUrl modeluri (options.formatOr defaultFormat) (remove "listener" options.entries)

def ModelServerClientV2.createSubscriptionPath (baseUrl : urijs.URI) (defaultFormat modeluri : String)
    (options : SubscriptionOptions) : urijs.URI :=
  subscriptionPath urijs baseUrl modeluri (options.formatOr defaultFormat) options.entries

end Paths

section Parameters

variable {urijs : Urijs}

theorem parameters_foldl {entries : List (String × Option String)} (distinct : entries.Nodup) (uri : urijs.URI) :
    (urijs.parameters (entries.foldl (fun uri entry => urijs.addQuery uri entry.1 entry.2) uri)).Perm
      (urijs.parameters uri ++ entries.filter fun entry => entry ∉ urijs.parameters uri) := by
  induction entries generalizing uri with
  | nil => simp
  | cons entry rest ih =>
    rcases List.nodup_cons.mp distinct with ⟨new, others⟩
    have added := urijs.parameters_addQuery uri entry.1 entry.2
    refine (ih others (urijs.addQuery uri entry.1 entry.2)).trans ?_
    by_cases there : entry ∈ urijs.parameters uri
    · rw [if_pos there] at added
      rw [List.filter_cons_of_neg (by simpa using there)]
      refine List.Perm.append added (List.Perm.of_eq (List.filter_congr fun e _ => ?_))
      simp [added.mem_iff]
    · rw [if_neg there] at added
      rw [List.filter_cons_of_pos (by simpa using there), List.append_cons]
      refine List.Perm.append added (List.Perm.of_eq (List.filter_congr fun e member => ?_))
      have other : e ≠ entry := fun same => new (same ▸ member)
      simp [added.mem_iff, other]

def named (name : String) (parameters : List (String × Option String)) : List (String × Option String) :=
  parameters.filter fun parameter => parameter.1 = name

theorem named_of_distinct {entries : List (String × Option String)} (distinct : (entries.map Prod.fst).Nodup)
    (name : String) : named name entries = ((entries.lookup name).map fun value => (name, value)).toList := by
  induction entries with
  | nil => rfl
  | cons entry rest ih =>
    rcases List.nodup_cons.mp distinct with ⟨new, others⟩
    rw [lookup_entry]
    by_cases here : name = entry.1
    · subst here
      have absent : rest.lookup entry.1 = none := by
        rw [List.lookup_eq_none_iff]
        intro other member
        simpa using fun same : entry.1 = other.1 => new (same ▸ List.mem_map_of_mem member)
      have nothing := ih others
      rw [absent] at nothing
      rw [if_pos rfl, named, List.filter_cons_of_pos (by simp), ← named, nothing]
      rfl
    · rw [if_neg here, named, List.filter_cons_of_neg (by simpa using Ne.symm here), ← named, ih others]

def fixed (modeluri format : String) : List (String × Option String) :=
  [("modeluri", some modeluri), ("format", some format)]

variable {baseUrl : urijs.URI} {modeluri format : String} {paramOptions : List (String × Option String)}

theorem parameters_subscriptionPath (plain : urijs.parameters baseUrl = []) (distinct : (paramOptions.map Prod.fst).Nodup) :
    (urijs.parameters (subscriptionPath urijs baseUrl modeluri format paramOptions)).Perm
      ((fixed modeluri format ++ paramOptions.filter fun entry => entry ∉ fixed modeluri format).filter
        fun parameter => parameter.1 ≠ "errorWhenUnsuccessful") := by
  have start : urijs.parameters (urijs.segment (urijs.protocol baseUrl "ws") SUBSCRIPTION) = [] := by
    rw [urijs.parameters_segment, urijs.parameters_protocol, plain]
  have first := urijs.parameters_addQuery (urijs.segment (urijs.protocol baseUrl "ws") SUBSCRIPTION) "modeluri" (some modeluri)
  rw [start, if_neg (by simp), List.nil_append, List.perm_singleton] at first
  have second := urijs.parameters_addQuery
    (urijs.addQuery (urijs.segment (urijs.protocol baseUrl "ws") SUBSCRIPTION) "modeluri" (some modeluri)) "format" (some format)
  rw [first, if_neg (by simp)] at second
  refine (urijs.parameters_removeQuery _ _).trans (List.Perm.filter _ ?_)
  refine (parameters_foldl distinct.of_map _).trans (List.Perm.append second (List.Perm.of_eq (List.filter_congr ?_)))
  intro entry _
  simp only [second.mem_iff]
  rfl

theorem named_subscriptionPath (plain : urijs.parameters baseUrl = []) (distinct : (paramOptions.map Prod.fst).Nodup)
    {name : String} (kept : name ≠ "errorWhenUnsuccessful") :
    (named name (urijs.parameters (subscriptionPath urijs baseUrl modeluri format paramOptions))).Perm
      (named name (fixed modeluri format) ++
        (((paramOptions.lookup name).map fun value => (name, value)).toList.filter
          fun entry => entry ∉ fixed modeluri format)) := by
  have all := (@parameters_subscriptionPath urijs baseUrl modeluri format paramOptions plain distinct).filter
    fun parameter => parameter.1 = name
  have same : ∀ parameters : List (String × Option String),
      (parameters.filter fun parameter => parameter.1 ≠ "errorWhenUnsuccessful").filter (fun parameter => parameter.1 = name) =
        named name parameters := by
    intro parameters
    rw [named, List.filter_filter]
    refine List.filter_congr fun parameter _ => ?_
    by_cases here : parameter.1 = name
    · simp [here, kept]
    · simp [here]
  have own := named_of_distinct distinct name
  rw [named] at own
  rw [same, named, List.filter_append, ← named, List.filter_comm, own] at all
  exact all

end Parameters

section Subscriptions

/-- What a subscription asks for: each parameter once, and none that is meant for the client only. -/
structure Asks (parameters : List (String × Option String)) (modeluri format : String) (options : SubscriptionOptions) :
    Prop where
  modeluri : named "modeluri" parameters = [("modeluri", some modeluri)]
  format : named "format" parameters = [("format", some format)]
  others : ∀ name text, options.entries.lookup name = some (some text) →
    name ∉ ["format", "listener", "errorWhenUnsuccessful"] → named name parameters = [(name, some text)]
  hidden : ∀ parameter ∈ parameters, parameter.1 ≠ "listener" ∧ parameter.1 ≠ "errorWhenUnsuccessful"

variable {urijs : Urijs} {baseUrl : urijs.URI} {modeluri format : String} {options : SubscriptionOptions}

theorem lookup_none_iff (entries : List (String × Option String)) (name : String) :
    entries.lookup name = none ↔ ∀ entry ∈ entries, entry.1 ≠ name := by
  rw [List.lookup_eq_none_iff]
  refine forall₂_congr fun entry _ => ?_
  rw [bne_iff_ne]
  exact ne_comm

theorem lookup_modeluri (options : SubscriptionOptions) : options.entries.lookup "modeluri" = none :=
  (lookup_none_iff options.entries "modeluri").mpr options.foreign

theorem mem_subscriptionPath (plain : urijs.parameters baseUrl = []) (parameter : String × Option String) :
    parameter ∈ urijs.parameters (subscriptionPath urijs baseUrl modeluri format options.entries) ↔
      (parameter ∈ fixed modeluri format ∨ parameter ∈ options.entries) ∧ parameter.1 ≠ "errorWhenUnsuccessful" := by
  rw [(parameters_subscriptionPath plain options.distinct).mem_iff]
  by_cases there : parameter ∈ fixed modeluri format <;> simp [there]

theorem format_once_iff (plain : urijs.parameters baseUrl = []) :
    named "format" (urijs.parameters (subscriptionPath urijs baseUrl modeluri format options.entries)) =
        [("format", some format)] ↔
      ∀ value, options.entries.lookup "format" = some value → value = some format := by
  have all := @named_subscriptionPath urijs baseUrl modeluri format _ plain options.distinct "format" (by decide)
  have first : named "format" (fixed modeluri format) = [("format", some format)] := by
    simp [named, fixed]
  rw [first] at all
  cases given : options.entries.lookup "format" with
  | none =>
    rw [given] at all
    simpa using all
  | some value =>
    rw [given] at all
    by_cases same : value = some format
    · simpa [same, fixed] using all
    · have twice := all.length_eq
      simp only [Option.some.injEq, forall_eq', same, iff_false]
      intro once
      simp [once, fixed, same] at twice

theorem asks_iff (plain : urijs.parameters baseUrl = []) :
    Asks (urijs.parameters (subscriptionPath urijs baseUrl modeluri format options.entries)) modeluri format options ↔
      options.entries.lookup "listener" = none ∧
        ∀ value, options.entries.lookup "format" = some value → value = some format := by
  constructor
  · intro asks
    refine ⟨?_, (format_once_iff plain).mp asks.format⟩
    rw [lookup_none_iff]
    intro entry member listener
    have sent : entry ∈ urijs.parameters (subscriptionPath urijs baseUrl modeluri format options.entries) := by
      rw [mem_subscriptionPath plain, listener]
      exact ⟨.inr member, by decide⟩
    exact (asks.hidden entry sent).1 listener
  · intro given
    rcases given with ⟨silent, formats⟩
    refine ⟨?_, (format_once_iff plain).mpr formats, ?_, ?_⟩
    · have all := @named_subscriptionPath urijs baseUrl modeluri format _ plain options.distinct "modeluri" (by decide)
      rw [lookup_modeluri] at all
      simpa [named, fixed] using all
    · intro name text found other
      have notFixed : name ≠ "modeluri" := by
        intro same
        rw [same, lookup_modeluri] at found
        cases found
      simp only [List.mem_cons, List.not_mem_nil, or_false, not_or] at other
      have all := @named_subscriptionPath urijs baseUrl modeluri format _ plain options.distinct name other.2.2
      rw [found] at all
      simpa [named, fixed, notFixed, Ne.symm notFixed, other.1, Ne.symm other.1] using all
    · intro parameter member
      rcases (mem_subscriptionPath plain parameter).mp member with ⟨inside, kept⟩
      refine ⟨?_, kept⟩
      rcases inside with inside | inside
      · simp only [fixed, List.mem_cons, List.not_mem_nil, or_false] at inside
        rcases inside with rfl | rfl
        · exact (by decide : "modeluri" ≠ "listener")
        · exact (by decide : "format" ≠ "listener")
      · exact (lookup_none_iff _ _).mp silent parameter inside

theorem formatOr_given_iff (options : SubscriptionOptions) (defaultFormat : String) :
    (∀ value, options.entries.lookup "format" = some value → value = some (options.formatOr defaultFormat)) ↔
      ∀ value, options.entries.lookup "format" = some value → ∃ format, value = some format ∧ (format = "" → defaultFormat = "") := by
  unfold SubscriptionOptions.formatOr
  cases options.entries.lookup "format" with
  | none => simp
  | some value =>
    cases value with
    | none => simp
    | some format =>
      by_cases empty : format = ""
      · simp [empty, eq_comm]
      · simp [empty]

/-- Both clients ask for each parameter once just where no listener is among the options, and the format, if it is
    among them, is neither undefined nor empty. -/
theorem createSubscriptionPath_iff (plain : urijs.parameters baseUrl = []) (defaultFormat modeluri : String)
    (options : SubscriptionOptions) :
    (Asks (urijs.parameters (ModelServerClientV2.createSubscriptionPath urijs baseUrl defaultFormat modeluri options))
          modeluri (options.formatOr defaultFormat) options ∧
        (urijs.parameters (ModelServerClient.createSubscriptionPath urijs baseUrl defaultFormat modeluri options)).Perm
          (urijs.parameters (ModelServerClientV2.createSubscriptionPath urijs baseUrl defaultFormat modeluri options))) ↔
      options.entries.lookup "listener" = none ∧ ∀ value, options.entries.lookup "format" = some value →
        ∃ format, value = some format ∧ (format = "" → defaultFormat = "") := by
  rw [← formatOr_given_iff, ← asks_iff plain, ModelServerClientV2.createSubscriptionPath]
  refine ⟨fun given => given.1, fun asks => ⟨asks, ?_⟩⟩
  have silent := ((asks_iff plain).mp asks).1
  have kept : remove "listener" options.entries = options.entries := by
    rw [remove, List.filter_eq_self]
    intro entry member
    simpa using (lookup_none_iff _ _).mp silent entry member
  rw [ModelServerClient.createSubscriptionPath, kept]

structure PlainURI where
  protocol : String
  path : List String
  query : List (String × Option String)

def plainUrijs : Urijs where
  URI := PlainURI
  parameters uri := uri.query
  protocol uri name := { uri with protocol := name }
  segment uri name := { uri with path := uri.path ++ [name] }
  addQuery uri name value :=
    { uri with query := if (name, value) ∈ uri.query then uri.query else uri.query ++ [(name, value)] }
  removeQuery uri name := { uri with query := uri.query.filter fun parameter => parameter.1 ≠ name }
  parameters_protocol _ _ := rfl
  parameters_segment _ _ := rfl
  parameters_addQuery _ _ _ := .refl _
  parameters_removeQuery _ _ := .refl _

def apiV2 : PlainURI := ⟨"http", ["api", "v2"], []⟩

def withListener : SubscriptionOptions where
  entries := [("listener", some "[object Object]"), ("timeout", some "1000")]
  distinct := by decide
  foreign := by decide

def withEmptyFormat : SubscriptionOptions where
  entries := [("format", some "")]
  distinct := by decide
  foreign := by decide

/-- A listener among the options is sent, and an empty format is sent besides the default. -/
theorem createSubscriptionPath_sends_listener :
    (ModelServerClientV2.createSubscriptionPath plainUrijs apiV2 "json-v2" "foo" withListener).query =
        [("modeluri", some "foo"), ("format", some "json-v2"), ("listener", some "[object Object]"), ("timeout", some "1000")] ∧
      (ModelServerClientV2.createSubscriptionPath plainUrijs apiV2 "json-v2" "foo" withEmptyFormat).query =
        [("modeluri", some "foo"), ("format", some "json-v2"), ("format", some "")] ∧
      ¬ Asks (ModelServerClientV2.createSubscriptionPath plainUrijs apiV2 "json-v2" "foo" withListener).query "foo" "json-v2"
        withListener := by
  have sent : (ModelServerClientV2.createSubscriptionPath plainUrijs apiV2 "json-v2" "foo" withListener).query =
      [("modeluri", some "foo"), ("format", some "json-v2"), ("listener", some "[object Object]"), ("timeout", some "1000")] := by
    rfl
  refine ⟨sent, by rfl, ?_⟩
  intro asks
  rw [sent] at asks
  exact (asks.hidden ("listener", some "[object Object]") (by simp)).1 rfl

def withValidation : SubscriptionOptions where
  entries := [("livevalidation", some "true"), ("errorWhenUnsuccessful", some "true"), ("format", some "json")]
  distinct := by decide
  foreign := by decide

theorem createSubscriptionPath_asks :
    Asks (ModelServerClientV2.createSubscriptionPath plainUrijs apiV2 "json-v2" "foo" withValidation).query "foo" "json"
        withValidation ∧
      (ModelServerClient.createSubscriptionPath plainUrijs apiV2 "json-v2" "foo" withValidation).query.Perm
        (ModelServerClientV2.createSubscriptionPath plainUrijs apiV2 "json-v2" "foo" withValidation).query := by
  refine (@createSubscriptionPath_iff plainUrijs apiV2 rfl "json-v2" "foo" withValidation).mpr ⟨rfl, ?_⟩
  intro value given
  cases given
  exact ⟨"json", rfl, by decide⟩

end Subscriptions

end ModelServer.Client
