import ModelServer.Library.Relations
import Mathlib.Data.List.Dedup
import Mathlib.Data.Rat.Defs

namespace Js

/-- The name under which JavaScript lists the element of an array at an index. -/
def indexName (i : Nat) : String := toString i

def indexOf? (name : String) : Option Nat :=
  let i := Nat.ofDigitChars 10 name.toList 0
  if indexName i = name then some i else none

@[simp] theorem indexOf_indexName (i : Nat) : indexOf? (indexName i) = some i := by
  have digits : Nat.ofDigitChars 10 (indexName i).toList 0 = i := by
    simp [indexName, toString, Nat.repr]
  simp only [indexOf?, digits, if_true]

theorem indexName_of_indexOf {name : String} {i : Nat} (h : indexOf? name = some i) : indexName i = name := by
  simp only [indexOf?] at h
  split at h
  · rename_i same
    rwa [← Option.some.inj h]
  · cases h

theorem indexOf_injective {name key : String} {i : Nat} (h : indexOf? name = some i) (k : indexOf? key = some i) :
    name = key := (indexName_of_indexOf h).symm.trans (indexName_of_indexOf k)

theorem indexName_injective {i j : Nat} (h : indexName i = indexName j) : i = j := by
  have same := congrArg indexOf? h
  simpa using same

def indexed {α : Type} (elems : List α) : List (String × α) :=
  elems.zipIdx.map fun entry => (indexName entry.2, entry.1)

theorem lookup_indexed_from {α : Type} (elems : List α) (start : Nat) (name : String) :
    ((elems.zipIdx start).map fun entry => (indexName entry.2, entry.1)).lookup name =
      (indexOf? name).bind fun i => if start ≤ i then elems[i - start]? else none := by
  induction elems generalizing start with
  | nil => cases indexOf? name <;> simp
  | cons x xs ih =>
    simp only [List.zipIdx_cons, List.map_cons, List.lookup_cons]
    by_cases here : name = indexName start
    · subst here
      simp
    · have differs : (name == indexName start) = false := by simpa using here
      simp only [differs, ih]
      cases at_name : indexOf? name with
      | none => rfl
      | some i =>
        have other : i ≠ start := by
          intro same
          subst same
          exact here (indexName_of_indexOf at_name).symm
        simp only [Option.bind_some]
        by_cases before : start + 1 ≤ i
        · have step : i - start = (i - (start + 1)) + 1 := by omega
          simp [before, show start ≤ i by omega, step]
        · simp [before, show ¬ start ≤ i by omega]

theorem lookup_indexed {α : Type} (elems : List α) (name : String) :
    (indexed elems).lookup name = (indexOf? name).bind (elems[·]?) := by
  simpa [indexed] using lookup_indexed_from elems 0 name

theorem child_set {α : Type} {elems : List α} {name : String} {i : Nat} (index : indexOf? name = some i)
    (inside : i < elems.length) (x : α) (key : String) :
    (indexOf? key).bind ((elems.set i x)[·]?) = if key = name then some x else (indexOf? key).bind (elems[·]?) := by
  by_cases same : key = name
  · subst same
    simp [index, inside]
  · rw [if_neg same]
    cases at_key : indexOf? key with
    | none => rfl
    | some k =>
      have other : i ≠ k := by
        intro at_same
        subst at_same
        exact same (indexOf_injective at_key index)
      simp [List.getElem?_set_ne other]

section Entries

variable {α : Type}

/-- Assignment to an own property: in its place when there is one, else at the end. -/
def put (name : String) (value : α) : List (String × α) → List (String × α)
  | [] => [(name, value)]
  | (key, old) :: rest => if key = name then (key, value) :: rest else (key, old) :: put name value rest

def remove (name : String) (props : List (String × α)) : List (String × α) :=
  props.filter fun entry => entry.1 ≠ name

def names (props : List (String × α)) : List String := (props.map Prod.fst).dedup

theorem lookup_entry (name key : String) (value : α) (rest : List (String × α)) :
    ((name, value) :: rest).lookup key = if key = name then some value else rest.lookup key := by
  by_cases same : key = name
  · simp [same]
  · have differs : (key == name) = false := by simpa using same
    simp [List.lookup_cons, differs, same]

theorem lookup_put (name key : String) (value : α) (props : List (String × α)) :
    (put name value props).lookup key = if key = name then some value else props.lookup key := by
  induction props with
  | nil => simp [put, lookup_entry]
  | cons entry rest ih =>
    obtain ⟨first, old⟩ := entry
    by_cases here : first = name
    · subst here
      simp only [put, if_true, lookup_entry]
      split <;> rfl
    · simp only [put, here, if_false, lookup_entry, ih]
      grind

theorem lookup_remove (name key : String) (props : List (String × α)) :
    (remove name props).lookup key = if key = name then none else props.lookup key := by
  induction props with
  | nil => simp [remove]
  | cons entry rest ih =>
    obtain ⟨first, old⟩ := entry
    by_cases here : first = name
    · subst here
      simp only [remove, ne_eq, not_true_eq_false, decide_false, Bool.false_eq_true, not_false_eq_true,
        List.filter_cons_of_neg, lookup_entry] at ih ⊢
      grind
    · have kept : remove name ((first, old) :: rest) = (first, old) :: remove name rest := by
        simp [remove, here]
      simp only [kept, lookup_entry, ih]
      grind

/-- The properties that `{ ...target }` has of its own. The build writes it as `Object.assign({}, target)`, in which the
    assignment to `__proto__` sets the prototype. -/
def spread (props : List (String × α)) : List (String × α) := remove "__proto__" props

theorem lookup_spread (props : List (String × α)) (key : String) :
    (spread props).lookup key = if key = "__proto__" then none else props.lookup key := lookup_remove "__proto__" key props

theorem put_new {name : String} {value : α} {props : List (String × α)} (new : name ∉ props.map Prod.fst) :
    put name value props = props ++ [(name, value)] := by
  induction props with
  | nil => rfl
  | cons entry rest ih =>
    obtain ⟨key, old⟩ := entry
    rw [List.map_cons, List.mem_cons, not_or] at new
    rw [put, if_neg (Ne.symm new.1), ih new.2, List.cons_append]

theorem keys_put (name : String) (value : α) (props : List (String × α)) :
    (put name value props).map Prod.fst = props.map Prod.fst ∨
      (name ∉ props.map Prod.fst ∧ (put name value props).map Prod.fst = props.map Prod.fst ++ [name]) := by
  by_cases new : name ∉ props.map Prod.fst
  · exact .inr ⟨new, by rw [put_new new, List.map_append]; rfl⟩
  · refine .inl ?_
    induction props with
    | nil => exact absurd List.not_mem_nil new
    | cons entry rest ih =>
      rcases entry with ⟨key, old⟩
      by_cases here : key = name
      · simp [put, here]
      · have later : ¬ name ∉ rest.map Prod.fst := by simpa [Ne.symm here] using new
        rw [put, if_neg here, List.map_cons, ih later, List.map_cons]

theorem mem_keys_put {name key : String} {value : α} {props : List (String × α)}
    (member : key ∈ (put name value props).map Prod.fst) : key = name ∨ key ∈ props.map Prod.fst := by
  rcases keys_put name value props with same | ⟨-, added⟩
  · exact .inr (by rwa [same] at member)
  · rw [added, List.mem_append, List.mem_singleton] at member
    exact member.symm

theorem nodup_put {props : List (String × α)} (nodup : (props.map Prod.fst).Nodup) (name : String) (value : α) :
    ((put name value props).map Prod.fst).Nodup := by
  rcases keys_put name value props with same | ⟨fresh, added⟩
  · rwa [same]
  · rw [added]
    exact List.nodup_append.mpr ⟨nodup, by simp, by grind⟩

theorem mem_names (name : String) (props : List (String × α)) :
    name ∈ names props ↔ (props.lookup name).isSome := by
  simp only [names, List.mem_dedup, List.lookup_isSome_iff, List.mem_map]
  constructor
  · intro given
    rcases given with ⟨entry, member, rfl⟩
    exact ⟨entry, member, by simp⟩
  · intro given
    rcases given with ⟨entry, member, same⟩
    exact ⟨entry, member, by simpa using (beq_iff_eq.mp same).symm⟩

theorem mem_of_lookup {props : List (String × α)} {name : String} {value : α}
    (h : props.lookup name = some value) : (name, value) ∈ props := by
  obtain ⟨before, after, rfl, -⟩ := List.lookup_eq_some_iff.mp h
  simp

end Entries

/-- The primitive values of JSON. A number is the rational it stands for. -/
inductive Prim
  | null
  | bool (b : Bool)
  | number (n : Rat)
  | string (s : String)
  deriving DecidableEq, Repr

inductive Json
  | prim (p : Prim)
  | arr (elems : List Json)
  | obj (props : List (String × Json))

inductive Shape
  | undefined
  | prim (p : Prim)
  | arr (length : Nat)
  | obj
  deriving DecidableEq, Repr

namespace Json

def shape : Json → Shape
  | prim p => .prim p
  | arr elems => .arr elems.length
  | obj _ => .obj

def child : Json → String → Option Json
  | prim _, _ => none
  | arr elems, name => (indexOf? name).bind (elems[·]?)
  | obj props, name => props.lookup name

def entries : Json → List (String × Json)
  | prim _ => []
  | arr elems => indexed elems
  | obj props => props

theorem lookup_entries (j : Json) (name : String) : j.entries.lookup name = j.child name := by
  cases j with
  | prim p => rfl
  | arr elems => exact lookup_indexed elems name
  | obj props => rfl

def at? : Json → List String → Option Json
  | j, [] => some j
  | j, name :: path => (j.child name).bind (·.at? path)

/-- What can be read at a path. The order of the properties of an object does not show. -/
def shapeAt (j : Json) (path : List String) : Option Shape := (j.at? path).map shape

/-- Equality up to the order of the properties of objects. -/
def Same (a b : Json) : Prop := ∀ path, a.shapeAt path = b.shapeAt path

theorem Same.refl (a : Json) : Same a a := fun _ => rfl

theorem Same.symm {a b : Json} (h : Same a b) : Same b a := fun path => (h path).symm

theorem Same.trans {a b c : Json} (h : Same a b) (k : Same b c) : Same a c :=
  fun path => (h path).trans (k path)

@[simp] theorem shapeAt_nil (j : Json) : j.shapeAt [] = some j.shape := rfl

theorem shapeAt_cons (j : Json) (name : String) (path : List String) :
    j.shapeAt (name :: path) = (j.child name).bind (·.shapeAt path) := by
  simp only [shapeAt, at?]
  cases j.child name <;> rfl

theorem at_append (j : Json) (path rest : List String) :
    j.at? (path ++ rest) = (j.at? path).bind (·.at? rest) := by
  induction path generalizing j with
  | nil => rfl
  | cons name path ih =>
    simp only [List.cons_append, at?]
    cases j.child name with
    | none => rfl
    | some c => exact ih c

theorem Same.child {a b : Json} (h : Same a b) (name : String) :
    Option.Rel Same (a.child name) (b.child name) := by
  have at_name := fun path => h (name :: path)
  simp only [shapeAt_cons] at at_name
  cases ha : a.child name with
  | none =>
    cases hb : b.child name with
    | none => exact .none
    | some d => simpa [ha, hb] using at_name []
  | some c =>
    cases hb : b.child name with
    | none => simpa [ha, hb] using at_name []
    | some d => exact .some fun path => by simpa [ha, hb] using at_name path

theorem Same.shape {a b : Json} (h : Same a b) : a.shape = b.shape := by simpa using h []

theorem same_of_children {a b : Json} (shape : a.shape = b.shape)
    (children : ∀ name, Option.Rel Same (a.child name) (b.child name)) : Same a b := by
  intro path
  cases path with
  | nil => simp [shape]
  | cons name path =>
    simp only [shapeAt_cons]
    have related := children name
    revert related
    cases a.child name <;> cases b.child name <;> intro related
    · rfl
    · cases related
    · cases related
    · cases related with
      | some same => exact same path

theorem mem_of_child_arr {elems : List Json} {name : String} {c : Json}
    (h : (arr elems).child name = some c) : c ∈ elems := by
  simp only [child] at h
  cases at_name : indexOf? name with
  | none => simp [at_name] at h
  | some i =>
    simp only [at_name, Option.bind_some] at h
    exact List.mem_of_getElem? h

theorem induct {P : Json → Prop} (prim : ∀ p, P (.prim p))
    (arr : ∀ elems, (∀ e ∈ elems, P e) → P (.arr elems))
    (obj : ∀ props, (∀ entry ∈ props, P entry.2) → P (.obj props)) (j : Json) : P j := by
  apply @Json.rec P (fun elems => ∀ e ∈ elems, P e) (fun props => ∀ entry ∈ props, P entry.2)
    (fun entry => P entry.2) prim arr obj
  · simp
  · exact fun _ _ first rest => List.forall_mem_cons.mpr ⟨first, rest⟩
  · simp
  · exact fun _ _ first rest => List.forall_mem_cons.mpr ⟨first, rest⟩
  · exact fun _ _ value => value

theorem child_induct {P : Json → Prop} (step : ∀ j, (∀ name c, j.child name = some c → P c) → P j)
    (j : Json) : P j := by
  induction j using induct with
  | prim p => exact step _ fun _ _ h => by cases h
  | arr elems ih => exact step _ fun name c h => ih c (mem_of_child_arr h)
  | obj props ih => exact step _ fun name c h => ih _ (mem_of_lookup h)

theorem below_induct {P : Json → Prop} (step : ∀ j, (∀ name path c, j.at? (name :: path) = some c → P c) → P j)
    (j : Json) : P j := by
  suffices all : ∀ path c, j.at? path = some c → P c from all [] j rfl
  induction j using child_induct with
  | step j ih =>
  have below : ∀ name path c, j.at? (name :: path) = some c → P c := by
    intro name path c found
    rcases Option.bind_eq_some_iff.mp found with ⟨d, child, rest⟩
    exact ih name d child path c rest
  intro path c found
  cases path with
  | nil =>
    cases found
    exact step j below
  | cons name path => exact below name path c found

theorem common_bound {α : Type} {Q : α → Nat → Prop} (mono : ∀ a m n, m ≤ n → Q a m → Q a n) (elems : List α)
    (each : ∀ a ∈ elems, ∃ n, Q a n) : ∃ n, ∀ a ∈ elems, Q a n := by
  induction elems with
  | nil => exact ⟨0, by simp⟩
  | cons a rest ih =>
    obtain ⟨m, first⟩ := each a (by simp)
    obtain ⟨n, others⟩ := ih fun b member => each b (List.mem_cons_of_mem _ member)
    refine ⟨max m n, fun b member => ?_⟩
    rcases List.mem_cons.mp member with rfl | member
    · exact mono _ _ _ (Nat.le_max_left _ _) first
    · exact mono _ _ _ (Nat.le_max_right _ _) (others b member)

theorem paths_bounded (j : Json) : ∃ n, ∀ path, (j.at? path).isSome → path.length ≤ n := by
  have mono : ∀ (j : Json) m n, m ≤ n → (∀ path, (j.at? path).isSome → path.length ≤ m) →
      ∀ path, (j.at? path).isSome → path.length ≤ n :=
    fun _ _ _ le bound path present => (bound path present).trans le
  induction j using induct with
  | prim p =>
    refine ⟨0, fun path present => ?_⟩
    cases path with
    | nil => simp
    | cons name path => simp [at?, child] at present
  | arr elems ih =>
    obtain ⟨n, bound⟩ := common_bound mono elems ih
    refine ⟨n + 1, fun path present => ?_⟩
    cases path with
    | nil => simp
    | cons name path =>
      obtain ⟨c, found, rest⟩ : ∃ c, (arr elems).child name = some c ∧ (c.at? path).isSome := by
        simp only [at?] at present
        cases found : (arr elems).child name with
        | none => simp [found] at present
        | some c => exact ⟨c, rfl, by simpa [found] using present⟩
      simpa using bound c (mem_of_child_arr found) path rest
  | obj props ih =>
    obtain ⟨n, bound⟩ := common_bound (fun entry : String × Json => mono entry.2) props ih
    refine ⟨n + 1, fun path present => ?_⟩
    cases path with
    | nil => simp
    | cons name path =>
      obtain ⟨c, found, rest⟩ : ∃ c, (obj props).child name = some c ∧ (c.at? path).isSome := by
        simp only [at?] at present
        cases found : (obj props).child name with
        | none => simp [found] at present
        | some c => exact ⟨c, rfl, by simpa [found] using present⟩
      simpa using bound (name, c) (mem_of_lookup found) path rest

def HasKey (j : Json) (name : String) : Prop :=
  ∃ path, j.shapeAt path = some .obj ∧ (j.shapeAt (path ++ [name])).isSome

theorem hasKey_iff (j : Json) (name : String) :
    j.HasKey name ↔ (j.shape = .obj ∧ (j.child name).isSome) ∨ ∃ key c, j.child key = some c ∧ c.HasKey name := by
  constructor
  · intro given
    rcases given with ⟨path, object, present⟩
    cases path with
    | nil =>
      refine .inl ⟨by simpa using object, ?_⟩
      simp only [List.nil_append, shapeAt_cons] at present
      cases found : j.child name with
      | none => simp [found] at present
      | some c => rfl
    | cons key path =>
      simp only [List.cons_append, shapeAt_cons] at object present
      cases found : j.child key with
      | none => simp [found] at object
      | some c => exact .inr ⟨key, c, found, path, by simpa [found] using object, by simpa [found] using present⟩
  · intro given
    rcases given with ⟨object, present⟩ | ⟨key, c, found, path, object, present⟩
    · refine ⟨[], by simpa using object, ?_⟩
      obtain ⟨c, found⟩ := Option.isSome_iff_exists.mp present
      simp [shapeAt_cons, found]
    · exact ⟨key :: path, by simpa [shapeAt_cons, found] using object, by simpa [shapeAt_cons, found] using present⟩

theorem hasKey_of_mem_path {path : List String} {name : String} (word : indexOf? name = none) (member : name ∈ path) :
    ∀ {j c : Json}, j.at? path = some c → j.HasKey name := by
  induction path with
  | nil => cases member
  | cons first rest ih =>
    intro j c found
    rw [at?] at found
    rcases Option.bind_eq_some_iff.mp found with ⟨d, child, below⟩
    rw [hasKey_iff]
    rcases List.mem_cons.mp member with rfl | later
    · refine .inl ⟨?_, by simp [child]⟩
      cases j with
      | prim p => cases child
      | arr elems => simp [Json.child, word] at child
      | obj props => rfl
    · exact .inr ⟨first, d, child, ih later below⟩

theorem not_hasKey_prim (p : Prim) (name : String) : ¬ (prim p).HasKey name := by
  rw [hasKey_iff]
  intro given
  rcases given with ⟨object, -⟩ | ⟨key, c, found, -⟩
  · cases object
  · cases found

mutual

def mentions (name : String) : Json → Bool
  | prim _ => false
  | arr elems => mentionsElems name elems
  | obj props => mentionsProps name props

def mentionsElems (name : String) : List Json → Bool
  | [] => false
  | e :: rest => mentions name e || mentionsElems name rest

def mentionsProps (name : String) : List (String × Json) → Bool
  | [] => false
  | (key, value) :: rest => key == name || mentions name value || mentionsProps name rest

end

theorem mentionsElems_of_mem {name : String} {elems : List Json} {e : Json} (member : e ∈ elems)
    (mentioned : e.mentions name) : mentionsElems name elems := by
  induction elems with
  | nil => cases member
  | cons first rest ih =>
    simp only [mentionsElems, Bool.or_eq_true]
    rcases List.mem_cons.mp member with rfl | member
    · exact .inl mentioned
    · exact .inr (ih member)

theorem mentionsProps_of_mem {name : String} {props : List (String × Json)} {entry : String × Json}
    (member : entry ∈ props) (mentioned : entry.1 = name ∨ entry.2.mentions name) : mentionsProps name props := by
  induction props with
  | nil => cases member
  | cons first rest ih =>
    obtain ⟨key, value⟩ := first
    simp only [mentionsProps, Bool.or_eq_true, beq_iff_eq]
    rcases List.mem_cons.mp member with rfl | member
    · exact .inl mentioned
    · exact .inr (ih member)

theorem HasKey.mentions {j : Json} {name : String} (typed : j.HasKey name) : j.mentions name := by
  induction j using child_induct with
  | step j ih =>
  rcases (hasKey_iff j name).mp typed with ⟨object, present⟩ | ⟨key, c, found, below⟩
  · cases j with
    | prim p => cases object
    | arr elems => cases object
    | obj props =>
      obtain ⟨c, found⟩ := Option.isSome_iff_exists.mp present
      exact mentionsProps_of_mem (mem_of_lookup found) (.inl rfl)
  · have mentioned := ih key c found below
    cases j with
    | prim p => cases found
    | arr elems => exact mentionsElems_of_mem (mem_of_child_arr found) mentioned
    | obj props => exact mentionsProps_of_mem (mem_of_lookup found) (.inr mentioned)

theorem not_hasKey {j : Json} {name : String} (unmentioned : j.mentions name = false) : ¬ j.HasKey name := by
  intro typed
  rw [typed.mentions] at unmentioned
  cases unmentioned

theorem not_hasKey_child {j c : Json} {name key : String} (free : ¬ j.HasKey key) (found : j.child name = some c) :
    ¬ c.HasKey key :=
  fun typed => free ((hasKey_iff j key).mpr (.inr ⟨name, c, found, typed⟩))

theorem lookup_of_not_hasKey {props : List (String × Json)} {key : String} (free : ¬ (obj props).HasKey key) :
    props.lookup key = none := by
  by_contra present
  exact free ((hasKey_iff _ key).mpr (.inl ⟨rfl, Option.isSome_iff_ne_none.mpr present⟩))

theorem Same.hasKey {a b : Json} (same : Same a b) {name : String} (h : a.HasKey name) : b.HasKey name := by
  obtain ⟨path, object, present⟩ := h
  exact ⟨path, same path ▸ object, same (path ++ [name]) ▸ present⟩

end Json

end Js
