import ModelServer.Message.DataMapper
import ModelServer.Js.Text

namespace ModelServer.Message
open Js

/-- What is known of `JSON.parse` and `JSON.stringify`: a value that was written is read back, up to the order of
    properties, and neither the empty text nor one where a comma follows a written value is read at all. -/
structure Library.Faithful (lib : Library) : Prop where
  parse_stringify : ∀ j, ∃ j', lib.parse (lib.stringify j) = .ok j' ∧ j'.Same j
  parse_empty : ∃ e, lib.parse "" = .error e
  parse_comma : ∀ j rest, ∃ e, lib.parse (lib.stringify j ++ "," ++ rest) = .error e

def ReadsBack (lib : Library) (object : Json) : Prop :=
  ∃ text back, asString lib object = .ok text ∧ lib.parse text = .ok back ∧ back.Same object

section Printing

variable {lib : Library} {object : Json}

theorem asString_object (notText : isStringValue object = false) :
    asString lib object =
      if Model.is object then .ok (lib.stringify object)
      else if isArrayOf Model.is object then .ok (",".intercalate ((elements object).map lib.stringify))
      else if isURI object then asURI lib object
      else if isArrayOf isURI object then do
        let uriArray ← (elements object).mapM (asURI lib)
        .ok (lib.stringify (.arr (uriArray.map fun text => .prim (.string text))))
      else .ok (lib.stringify object) := by
  cases object with
  | arr elems => rfl
  | obj props => rfl
  | prim p => cases p <;> first | rfl | cases notText

theorem shape_of_model (model : Model.is object = true) : object.shape = .obj := by
  cases object with
  | prim p => cases model
  | obj props => rfl
  | arr elems =>
    have noText : isString (.arr elems) "modeluri" = false := not_hasProperty_arr _ elems (by decide)
    simp [Model.is, noText] at model

theorem readsBack_stringify (faithful : lib.Faithful) (printed : asString lib object = .ok (lib.stringify object)) :
    ReadsBack lib object := by
  rcases faithful.parse_stringify object with ⟨back, parsed, same⟩
  exact ⟨_, back, printed, parsed, same⟩

/-- Models that are joined by commas are no array any more. -/
theorem not_readsBack_models (faithful : lib.Faithful) {elems : List Json} (models : ∀ e ∈ elems, Model.is e = true) :
    ¬ ReadsBack lib (.arr elems) := by
  have joined : asString lib (.arr elems) = .ok (",".intercalate (elems.map lib.stringify)) := by
    have noModel : Model.is (.arr elems) = false := by
      cases model : Model.is (.arr elems) with
      | false => rfl
      | true => cases shape_of_model model
    have all : isArrayOf Model.is (.arr elems) = true := List.all_eq_true.mpr models
    rw [asString_object rfl, noModel, all]
    rfl
  intro given
  rcases given with ⟨text, back, printed, parsed, same⟩
  cases joined.symm.trans printed
  rcases elems with _ | ⟨first, _ | ⟨second, rest⟩⟩
  · rcases faithful.parse_empty with ⟨e, failed⟩
    cases failed.symm.trans parsed
  · rcases faithful.parse_stringify first with ⟨back', parsed', same'⟩
    rw [List.map_singleton, String.intercalate_singleton] at parsed
    cases parsed'.symm.trans parsed
    have shape := (same'.symm.trans same).shape
    rw [shape_of_model (models first (by simp))] at shape
    cases shape
  · rcases faithful.parse_comma first (",".intercalate ((second :: rest).map lib.stringify)) with ⟨e, failed⟩
    rw [List.map_cons, List.map_cons, String.intercalate_cons_cons, ← List.map_cons] at parsed
    cases failed.symm.trans parsed

/-- Every value without URIs is read back from its text but an array of models, among them the empty array. -/
theorem asString_readsBack_iff (faithful : lib.Faithful) (notText : isStringValue object = false)
    (noURI : isURI object = false) (noURIs : ∀ e ∈ elements object, isURI e = false) :
    ReadsBack lib object ↔ isArrayOf Model.is object = false := by
  by_cases models : isArrayOf Model.is object = true
  · refine iff_of_false ?_ (by simp [models])
    cases object with
    | prim p => cases models
    | obj props => cases models
    | arr elems => exact not_readsBack_models faithful (List.all_eq_true.mp models)
  · refine iff_of_true (readsBack_stringify faithful ?_) (by simpa using models)
    have plain : isArrayOf isURI object = false := by
      cases object with
      | prim p => rfl
      | obj props => rfl
      | arr elems =>
        cases elems with
        | nil => exact absurd rfl models
        | cons first rest =>
          have refused := noURIs first (by simp [elements])
          simp [isArrayOf, refused]
    rw [asString_object notText, noURI, plain, if_neg models]
    split <;> rfl

end Printing

section Texts

/-- The printer and the parser of plain texts in place of those of the runtime. -/
def textLibrary : Library where
  parse text := (plainText.parse text).elim (.error "Unexpected end of JSON input") .ok
  stringify := plainText.stringify
  uriText _ := .error "invalid input"

theorem plainText_comma (j : Json) (rest : String) : plainText.parse (plainText.stringify j ++ "," ++ rest) = none := by
  have stops : Stops (',' :: rest.toList) := by
    intro c cs same
    cases same
    decide
  have chars : (plainText.stringify j ++ "," ++ rest).toList = write j ++ ',' :: rest.toList := by
    simp [plainText]
  have read := readValue_write j ((write j ++ ',' :: rest.toList).length + 1) (',' :: rest.toList)
    (by rw [List.length_append]; omega) stops
  simp only [plainText] at chars ⊢
  rw [chars, read]

theorem faithful_textLibrary : textLibrary.Faithful where
  parse_stringify j := by
    rcases plainText.parse_stringify j with ⟨j', parsed, same⟩
    exact ⟨j', by simp [textLibrary, parsed], same⟩
  parse_empty := ⟨_, rfl⟩
  parse_comma j rest := ⟨"Unexpected end of JSON input", by simp only [textLibrary, plainText_comma, Option.elim_none]⟩

/-- The empty array is taken for an array of models and printed as the empty text. -/
theorem asString_loses_empty_array :
    asString textLibrary (.arr []) = .ok "" ∧ ¬ ReadsBack textLibrary (.arr []) :=
  ⟨rfl, not_readsBack_models faithful_textLibrary (by simp)⟩

def coffeeModel : Json :=
  .obj [("modeluri", .prim (.string "SuperBrewer3000.coffee")), ("content", .obj [("name", .prim (.string "Super Brewer 3000"))])]

theorem asString_reads_back_mixed :
    ReadsBack textLibrary coffeeModel ∧ ReadsBack textLibrary (.arr [coffeeModel, .prim (.number 1)]) := by
  constructor
  · exact (asString_readsBack_iff faithful_textLibrary rfl rfl (by decide)).mpr rfl
  · exact (asString_readsBack_iff faithful_textLibrary rfl rfl (by decide)).mpr rfl

end Texts

end ModelServer.Message
