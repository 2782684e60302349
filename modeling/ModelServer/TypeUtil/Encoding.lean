import ModelServer.TypeUtil.CopyResult

namespace ModelServer.TypeUtil

open Js

open Classical in
/-- The document that an encoder makes of a document, if it returns one. -/
noncomputable def converted (format : JsonFormat) (j : Json) : Option Json :=
  if j.HasKey format.typeKey then some j
  else match j with
    | .prim _ => none
    | _ => some (copyJson format .element j)

def ReadsAs (h : Heap) (v : Val) : Option Json → Prop
  | some j => h.Denotes v j
  | none => v = .undefined

def asJson (format : JsonFormat) (fuel : Nat) : Heap → Val → Option (Heap × Val) :=
  match format with
  | .json => asJsonV1 fuel
  | .jsonV2 => asJsonV2 fuel

theorem asJson_eq (format : JsonFormat) (fuel : Nat) (h : Heap) (v : Val) :
    asJson format fuel h v = (findProperty fuel h v format.typeKey).bind fun found =>
      if found then some (h, v) else copy fuel h v format := by
  cases format <;> rfl

theorem encode_name (text : JsonText) (fuel : Nat) (format : JsonFormat) :
    encode text fuel format.name = .ok (handleString text fuel (asJson format fuel)) := by
  cases format <;> rfl

theorem isKey_typeKey (format : JsonFormat) : IsKey format.typeKey := by
  cases format
  · exact isKey_eClass
  · exact isKey_type

theorem asJson_spec (format : JsonFormat) {h : Heap} {v : Val} {j : Json} (d : h.Denotes v j) :
    ∃ need, ∀ fuel, need < fuel → ∃ h' v', asJson format fuel h v = some (h', v') ∧ ReadsAs h' v' (converted format j) := by
  by_cases typed : j.HasKey format.typeKey
  · refine ⟨h.size, fun fuel enough => ⟨h, v, ?_, by simpa [ReadsAs, converted, typed] using d⟩⟩
    obtain ⟨found, result, spec⟩ := findProperty_denotes d (isKey_typeKey format) enough
    simp [asJson_eq, result, spec.mpr typed]
  · have untyped : ∀ fuel, h.size < fuel → findProperty fuel h v format.typeKey = some false := by
      intro fuel enough
      obtain ⟨found, result, spec⟩ := findProperty_denotes d (isKey_typeKey format) enough
      cases found with
      | true => exact absurd (spec.mp rfl) typed
      | false => exact result
    cases v with
    | undefined => cases j <;> cases d.shape
    | prim p =>
      refine ⟨h.size, fun fuel enough => ⟨h, .undefined, ?_, ?_⟩⟩
      · obtain ⟨fuel, rfl⟩ := Nat.exists_eq_succ_of_ne_zero (Nat.ne_zero_of_lt enough)
        simp [asJson_eq, untyped _ enough, copy_prim]
      · have same := Json.Same.shape (d.same (Heap.denotes_prim h p))
        cases j <;> simp_all [Json.shape, ReadsAs, converted]
    | ref a =>
      obtain ⟨need, spec⟩ := copy_denotes format d
      refine ⟨max h.size need, fun fuel enough => ?_⟩
      obtain ⟨h', b, result, denotes, -⟩ := spec fuel (lt_of_le_of_lt (le_max_right _ _) enough)
      refine ⟨h', .ref b, ?_, ?_⟩
      · simp [asJson_eq, untyped fuel (lt_of_le_of_lt (le_max_left _ _) enough), result]
      · have composite : ∀ p, j ≠ .prim p := by
          intro p same
          subst same
          cases d.eq_prim
        cases j with
        | prim p => exact absurd rfl (composite p)
        | arr elems => simpa [ReadsAs, converted, typed] using denotes
        | obj props => simpa [ReadsAs, converted, typed] using denotes

def Means (text : JsonText) (h : Heap) : Payload → Json → Prop
  | .text s, j => ∃ j', text.parse s = some j' ∧ j'.Same j
  | .value v, j => h.Denotes v j

def Payload.isText : Payload → Bool
  | .text _ => true
  | .value _ => false

def Returned (text : JsonText) (h : Heap) (object out : Payload) : Option Json → Prop
  | some j => Means text h out j ∧ out.isText = object.isText
  | none => out = .value .undefined

theorem handleString_value (text : JsonText) {fuel : Nat} {fn : Heap → Val → Option (Heap × Val)} {h h' : Heap} {v v' : Val}
    (called : fn h v = some (h', v')) : handleString text fuel fn h (.value v) = pure (h', .value v') := by
  simp only [handleString, called]
  rfl

theorem handleString_text (text : JsonText) {fuel : Nat} {fn : Heap → Val → Option (Heap × Val)} {h h' : Heap} {s : String}
    {parsed : Json} {v' : Val} {out : Payload} (parse : text.parse s = some parsed)
    (called : fn (store h parsed).1 (store h parsed).2 = some (h', v'))
    (written : stringifyValue text fuel h' v' = some out) : handleString text fuel fn h (.text s) = pure (h', out) := by
  simp only [handleString, parse, called]
  change (do let written ← (stringifyValue text fuel h' v' : Exec Payload); pure (h', written)) = _
  rw [written]
  rfl

theorem stringifyValue_spec (text : JsonText) (result : Option Json) : ∃ need, ∀ fuel, need < fuel →
    ∀ {h : Heap} {v : Val} (s : String), ReadsAs h v result →
      ∃ out, stringifyValue text fuel h v = some out ∧ Returned text h (.text s) out result := by
  cases result with
  | none =>
    refine ⟨0, fun fuel _ h v s reads => ?_⟩
    cases (show v = .undefined from reads)
    exact ⟨.value .undefined, rfl, rfl⟩
  | some j =>
    obtain ⟨need, spec⟩ := exists_read j
    refine ⟨need, fun fuel enough h v s reads => ?_⟩
    have d : h.Denotes v j := reads
    obtain ⟨j', result, d'⟩ := spec fuel enough d
    obtain ⟨back, parse, same⟩ := text.parse_stringify j'
    refine ⟨.text (text.stringify j'), ?_, ⟨back, parse, same.trans (d'.same d)⟩, rfl⟩
    cases v with
    | undefined => cases j <;> cases d.shape
    | prim p => simp [stringifyValue, result]
    | ref a => simp [stringifyValue, result]

/-- An encoder of a JSON format returns what `converted` says, for values and for texts alike. -/
theorem encode_spec (text : JsonText) (format : JsonFormat) {h : Heap} {object : Payload} {j : Json}
    (means : Means text h object j) : ∃ need, ∀ fuel, need < fuel → ∃ encoder h' out,
      encode text fuel format.name = .ok encoder ∧ encoder h object = pure (h', out) ∧
      Returned text h' object out (converted format j) := by
  cases object with
  | value v =>
    obtain ⟨need, spec⟩ := asJson_spec format means
    refine ⟨need, fun fuel enough => ?_⟩
    obtain ⟨h', v', called, reads⟩ := spec fuel enough
    refine ⟨_, h', .value v', encode_name text fuel format, handleString_value text called, ?_⟩
    cases result : converted format j with
    | none =>
      rw [result] at reads
      exact congrArg Payload.value reads
    | some j' =>
      rw [result] at reads
      exact ⟨reads, rfl⟩
  | text s =>
    obtain ⟨parsed, parse, same⟩ := means
    obtain ⟨need, spec⟩ := asJson_spec format ((store_spec parsed h).denotes.of_same same)
    obtain ⟨need', spec'⟩ := stringifyValue_spec text (converted format j)
    refine ⟨max need need', fun fuel enough => ?_⟩
    obtain ⟨h', v', called, reads⟩ := spec fuel (lt_of_le_of_lt (le_max_left _ _) enough)
    obtain ⟨out, written, returned⟩ := spec' fuel (lt_of_le_of_lt (le_max_right _ _) enough) s reads
    exact ⟨_, h', out, encode_name text fuel format, handleString_text text parse called written, returned⟩

/-- With enough fuel the encoder of the format returns the document. -/
def EncodesAs (text : JsonText) (format : JsonFormat) (h : Heap) (object : Payload) (result : Json) : Prop :=
  ∃ need, ∀ fuel, need < fuel → ∃ encoder h' out, encode text fuel format.name = .ok encoder ∧
    encoder h object = pure (h', out) ∧ Means text h' out result ∧ out.isText = object.isText

theorem Means.same {text : JsonText} {h : Heap} {object : Payload} {j j' : Json} (m : Means text h object j)
    (m' : Means text h object j') : j.Same j' := by
  cases object with
  | value v => exact Heap.Denotes.same m m'
  | text s =>
    obtain ⟨k, parse, same⟩ := m
    obtain ⟨k', parse', same'⟩ := m'
    cases parse.symm.trans parse'
    exact same.symm.trans same'

theorem Means.of_same {text : JsonText} {h : Heap} {object : Payload} {j j' : Json} (m : Means text h object j)
    (same : j.Same j') : Means text h object j' := by
  cases object with
  | value v => exact Heap.Denotes.of_same m same
  | text s =>
    obtain ⟨k, parse, same'⟩ := m
    exact ⟨k, parse, same'.trans same⟩

theorem encodesAs_iff {text : JsonText} {format : JsonFormat} {h : Heap} {object : Payload} {j : Json}
    (means : Means text h object j) (result : Json) :
    EncodesAs text format h object result ↔ ∃ j', converted format j = some j' ∧ j'.Same result := by
  obtain ⟨need, spec⟩ := encode_spec text format means
  constructor
  · intro given
    rcases given with ⟨need', encodes⟩
    obtain ⟨encoder, h', out, found, called, returned⟩ := spec (need + need' + 1) (by omega)
    obtain ⟨encoder', h'', out', found', called', means', -⟩ := encodes (need + need' + 1) (by omega)
    cases found.symm.trans found'
    cases called.symm.trans called'
    cases result' : converted format j with
    | none =>
      rw [result'] at returned
      cases (show out = .value .undefined from returned)
      cases result <;> cases Heap.Denotes.shape means'
    | some j' =>
      rw [result'] at returned
      exact ⟨j', rfl, returned.1.same means'⟩
  · intro given
    rcases given with ⟨j', result', same⟩
    refine ⟨need, fun fuel enough => ?_⟩
    obtain ⟨encoder, h', out, found, called, returned⟩ := spec fuel enough
    rw [result'] at returned
    exact ⟨encoder, h', out, found, called, returned.1.of_same same, returned.2⟩

theorem encodeRequestBody_spec (text : JsonText) (format : JsonFormat) {h : Heap} {object : Payload} {j : Json}
    (means : Means text h object j) : ∃ need, ∀ fuel, need < fuel → ∃ encoder h' data,
      encodeRequestBody text fuel format.name = .ok encoder ∧ encoder h object = pure (h', ⟨data⟩) ∧
      Returned text h' object data (converted format j) := by
  rcases encode_spec text format means with ⟨need, spec⟩
  refine ⟨need, fun fuel enough => ?_⟩
  rcases spec fuel enough with ⟨encoder, h', out, found, called, returned⟩
  refine ⟨?encoder, h', out, ?body, ?call, returned⟩
  case body =>
    rw [encodeRequestBody, found]
    rfl
  case call =>
    simp only [called]
    rfl

end ModelServer.TypeUtil
