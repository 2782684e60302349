import ModelServer.Js.Heap

namespace ModelServer.TypeUtil

open Js

def isObject : Val → Bool
  | .ref _ | .prim .null => true
  | _ => false

def arrayElems? (h : Heap) : Val → Option (List Val)
  | .ref a => match h.cell? a with
    | some (.array elems) => some elems
    | _ => none
  | _ => none

def isNonEmptyObjectArray (h : Heap) (value : Val) : Bool :=
  match arrayElems? h value with
  | some (first :: _) => isObject first && (arrayElems? h first).isNone
  | _ => false

def elementAt (h : Heap) (value : Val) (i : Nat) : Val := (((arrayElems? h value).getD [])[i]?).getD .undefined

def readProp (h : Heap) (target : Nat) (prop : String) : Val :=
  ((h.cell? target).map (·.get prop)).getD .undefined

def ownPropsOf (h : Heap) (target : Nat) : List String := ((h.cell? target).map Cell.ownNames).getD []

theorem child_of_readProp {h : Heap} {a : Nat} {prop : String} {v : Val} (read : readProp h a prop = v)
    (object : isObject v) : h.child (.ref a) prop = some v := by
  simp only [readProp] at read
  cases found : h.cell? a with
  | none =>
    simp only [found, Option.map_none, Option.getD_none] at read
    subst read
    simp [isObject] at object
  | some c =>
    simp only [found, Option.map_some, Option.getD_some] at read
    simp only [Heap.child_ref, found, Option.bind_some]
    apply Cell.child_of_get read
    · intro same
      subst same
      simp [isObject] at object
    · intro n same
      subst same
      simp [isObject] at object

theorem readProp_of_child {h : Heap} {a : Nat} {prop : String} {v : Val}
    (child : h.child (.ref a) prop = some v) : readProp h a prop = v := by
  simp only [Heap.child_ref] at child
  cases found : h.cell? a with
  | none => simp [found] at child
  | some c =>
    simp only [found, Option.bind_some] at child
    simp [readProp, found, Cell.get_of_child child]

theorem isObject_of_array {h : Heap} {v : Val} (array : isNonEmptyObjectArray h v) : isObject v := by
  cases v with
  | ref b => rfl
  | undefined => simp [isNonEmptyObjectArray, arrayElems?] at array
  | prim p => simp [isNonEmptyObjectArray, arrayElems?] at array

theorem arrayElems_eq {h : Heap} {v : Val} {elems : List Val} (array : arrayElems? h v = some elems) :
    ∃ a, v = .ref a ∧ h.cell? a = some (.array elems) := by
  cases v with
  | ref a =>
    refine ⟨a, rfl, ?_⟩
    simp only [arrayElems?] at array
    split at array
    · rename_i found
      rw [found, Option.some.inj array]
    · cases array
  | undefined => cases array
  | prim p => cases array

theorem arrayElems_of_cell {h : Heap} {a : Nat} {elems : List Val} (found : h.cell? a = some (.array elems)) :
    arrayElems? h (.ref a) = some elems := by
  simp [arrayElems?, found]

theorem child_of_elementAt {h : Heap} {v : Val} {i b : Nat} (element : elementAt h v i = .ref b) :
    h.child v (indexName i) = some (.ref b) := by
  simp only [elementAt] at element
  cases array : arrayElems? h v with
  | none => simp [array] at element
  | some elems =>
    obtain ⟨a, rfl, found⟩ := arrayElems_eq array
    cases at_i : elems[i]? with
    | none => simp [array, at_i] at element
    | some e =>
      simp only [array, Option.getD_some, at_i] at element
      simp [found, Cell.child, at_i, element]

theorem arrayElems_congr {h h' : Heap} {v : Val} (same : ∀ a, v = .ref a → h'.cell? a = h.cell? a) :
    arrayElems? h' v = arrayElems? h v := by
  cases v with
  | ref a => simp [arrayElems?, same a rfl]
  | undefined => rfl
  | prim p => rfl

theorem isNonEmptyObjectArray_congr {h h' : Heap} {v : Val} (same : ∀ a, v = .ref a → h'.cell? a = h.cell? a)
    (below : ∀ name a, h.child v name = some (.ref a) → h'.cell? a = h.cell? a) :
    isNonEmptyObjectArray h' v = isNonEmptyObjectArray h v := by
  simp only [isNonEmptyObjectArray, arrayElems_congr same]
  cases array : arrayElems? h v with
  | none => rfl
  | some elems =>
    cases elems with
    | nil => rfl
    | cons first rest =>
      have read : arrayElems? h' first = arrayElems? h first := by
        apply arrayElems_congr
        intro a same
        subst same
        obtain ⟨b, rfl, found⟩ := arrayElems_eq array
        apply below (indexName 0) a
        simp [found, Cell.child]
      simp [read]

/-- The heap, the visited set and what the callback keeps in its closure. -/
structure Walk (σ : Type) where
  heap : Heap
  visited : List Nat
  state : σ

/-- The callback of a traversal: whether it returns something other than `undefined`, and its effects. -/
abbrev Callback (σ : Type) := Nat → List String → Heap → σ → Bool × Heap × σ

variable {σ : Type}

def unlessFound (first : Option (Bool × Walk σ)) (rest : Walk σ → Option (Bool × Walk σ)) :
    Option (Bool × Walk σ) :=
  match first with
  | none => none
  | some (true, w) => some (true, w)
  | some (false, w) => rest w

/-- `Array.prototype.some`, and the loop over the property names, which returns early in the same way. -/
def someOf {α : Type} (visit : α → Walk σ → Option (Bool × Walk σ)) : List α → Walk σ → Option (Bool × Walk σ)
  | [], w => some (false, w)
  | x :: xs, w => unlessFound (visit x w) (someOf visit xs)

def traverseProp (visit : Val → Walk σ → Option (Bool × Walk σ)) (target : Nat) (prop : String) (w : Walk σ) :
    Option (Bool × Walk σ) :=
  let value := readProp w.heap target prop
  let elements := if isNonEmptyObjectArray w.heap value
    then someOf (fun i w => visit (elementAt w.heap value i) w) (List.range ((arrayElems? w.heap value).getD []).length) w
    else some (false, w)
  unlessFound elements fun w => if isObject value then visit value w else some (false, w)

/-- The depth of the recursion is bounded by fuel, since a traversal that changes the heap need not end. -/
def traverse (fn : Callback σ) : Nat → Val → Walk σ → Option (Bool × Walk σ)
  | 0, _, _ => none
  | fuel + 1, .ref a, w =>
    if a ∈ w.visited then some (false, w)
    else
      let ownProps := ownPropsOf w.heap a
      let (stop, heap, state) := fn a ownProps w.heap w.state
      let w := { heap, visited := a :: w.visited, state }
      if stop then some (true, w) else someOf (traverseProp (traverse fn fuel) a) ownProps w
  | _ + 1, _, w => some (false, w)

/-- What a call leaves behind: the cells it saw before stay as they are, and every cell it visits
    has its children visited. -/
structure Progress (w w' : Walk σ) : Prop where
  size : w.heap.size ≤ w'.heap.size
  visited : ∀ a ∈ w.visited, a ∈ w'.visited
  stable : ∀ a ∈ w.visited, w'.heap.cell? a = w.heap.cell? a
  closed : ∀ a ∈ w'.visited, a ∉ w.visited → ∀ name b, w'.heap.child (.ref a) name = some (.ref b) → b ∈ w'.visited

theorem Progress.refl (w : Walk σ) : Progress w w :=
  ⟨Nat.le_refl _, fun _ h => h, fun _ _ => rfl, fun _ h k => absurd h k⟩

theorem Progress.trans {w w' w'' : Walk σ} (p : Progress w w') (q : Progress w' w'') : Progress w w'' := by
  refine ⟨p.size.trans q.size, fun a h => q.visited a (p.visited a h), ?_, ?_⟩
  · intro a seen
    rw [q.stable a (p.visited a seen), p.stable a seen]
  · intro a seen unseen name b edge
    by_cases before : a ∈ w'.visited
    · apply q.visited
      apply p.closed a before unseen name b
      simpa [Heap.child, q.stable a before] using edge
    · exact q.closed a seen before name b edge

theorem Progress.of_visit {w w' : Walk σ} {heap : Heap} {state : σ} {a : Nat} {props : List String}
    (unseen : a ∉ w.visited) (live : ∀ b ∈ w.visited, b < w.heap.size) (size : w.heap.size ≤ heap.size)
    (others : ∀ b, b < w.heap.size → b ≠ a → heap.cell? b = w.heap.cell? b)
    (named : ∀ name v, heap.child (.ref a) name = some v → name ∈ props)
    (progress : Progress ⟨heap, a :: w.visited, state⟩ w')
    (children : ∀ prop ∈ props, ∀ b, w'.heap.child (.ref a) prop = some (.ref b) → b ∈ w'.visited) :
    Progress w w' := by
  refine ⟨size.trans progress.size, fun b h => progress.visited b (List.mem_cons_of_mem a h), ?_, ?_⟩
  · intro b visited
    have other : b ≠ a := fun same => unseen (same ▸ visited)
    rw [progress.stable b (List.mem_cons_of_mem a visited), others b (live b visited) other]
  · intro b visited unvisited name c child
    by_cases same : b = a
    · subst same
      have stable := progress.stable b (List.mem_cons_self ..)
      apply children name _ c child
      apply named name (.ref c)
      simpa [Heap.child, ← stable] using child
    · exact progress.closed b visited (by simp [same, unvisited]) name c child

def Returns (result : Option (Bool × Walk σ)) (goal : Prop) (post : Walk σ → Prop) : Prop :=
  ∃ found w, result = some (found, w) ∧ if found then goal else post w

theorem Returns.done {goal : Prop} {post : Walk σ → Prop} {w : Walk σ} (h : post w) :
    Returns (some (false, w)) goal post := ⟨false, w, rfl, h⟩

theorem Returns.andThen {goal : Prop} {mid post : Walk σ → Prop} {first : Option (Bool × Walk σ)}
    {rest : Walk σ → Option (Bool × Walk σ)} (h : Returns first goal mid)
    (next : ∀ w, mid w → Returns (rest w) goal post) : Returns (unlessFound first rest) goal post := by
  obtain ⟨found, w, rfl, outcome⟩ := h
  cases found with
  | true => exact ⟨true, w, rfl, outcome⟩
  | false => exact next w outcome

theorem Returns.mono {goal : Prop} {post post' : Walk σ → Prop} {result : Option (Bool × Walk σ)}
    (h : Returns result goal post) (weaken : ∀ w, post w → post' w) : Returns result goal post' := by
  obtain ⟨found, w, rfl, outcome⟩ := h
  cases found with
  | true => exact ⟨true, w, rfl, outcome⟩
  | false => exact ⟨false, w, rfl, weaken w outcome⟩

/-- Each element is visited in turn, and what holds of it afterwards is kept by the later visits. -/
theorem someOf_returns {α : Type} {visit : α → Walk σ → Option (Bool × Walk σ)} {goal : Prop}
    (keep : Walk σ → Prop) (settled : α → Walk σ → Prop)
    (lasting : ∀ x w w', keep w → Progress w w' → settled x w → settled x w') (xs : List α)
    (each : ∀ x ∈ xs, ∀ w, keep w → Returns (visit x w) goal fun w' => keep w' ∧ Progress w w' ∧ settled x w')
    (w : Walk σ) (start : keep w) :
    Returns (someOf visit xs w) goal fun w' => keep w' ∧ Progress w w' ∧ ∀ x ∈ xs, settled x w' := by
  induction xs generalizing w with
  | nil => exact .done ⟨start, .refl w, by simp⟩
  | cons x xs ih =>
    apply (each x (by simp) w start).andThen
    intro w' given
    rcases given with ⟨kept, progress, here⟩
    apply (ih (fun y member => each y (List.mem_cons_of_mem _ member)) w' kept).mono
    intro w'' given
    rcases given with ⟨kept', progress', there⟩
    refine ⟨kept', progress.trans progress', fun y member => ?_⟩
    rcases List.mem_cons.mp member with rfl | member
    · exact lasting _ _ _ kept progress' here
    · exact there y member

/-- What makes a traversal with a callback end and keep an invariant. The ghost states `γ` record what
    the heap alone does not show; `need` bounds the depth of the recursion that is left. -/
structure Discipline (γ : Type) (fn : Callback σ) where
  le : γ → γ → Prop
  le_refl : ∀ g, le g g
  le_trans : ∀ {g g' g''}, le g g' → le g' g'' → le g g''
  Inv : γ → Walk σ → Prop
  Legit : Heap → Val → Prop
  goal : Prop
  need : γ → Walk σ → Val → Nat
  legit_mono : ∀ {h h' : Heap} {v}, h.size ≤ h'.size → Legit h v → Legit h' v
  legit_child : ∀ {g w a name v}, Inv g w → a ∈ w.visited → w.heap.child (.ref a) name = some v → Legit w.heap v
  legit_element : ∀ {g w v i}, Inv g w → Legit w.heap v → isNonEmptyObjectArray w.heap v →
    Legit w.heap (elementAt w.heap v i)
  array_lasting : ∀ {g g' w w' v}, Inv g w → le g g' → Inv g' w' → Legit w.heap v →
    isNonEmptyObjectArray w.heap v → isNonEmptyObjectArray w'.heap v
  visited_live : ∀ {g w a}, Inv g w → a ∈ w.visited → a < w.heap.size
  visit : ∀ {g w a stop heap state}, Inv g w → Legit w.heap (.ref a) → a ∉ w.visited →
    fn a (ownPropsOf w.heap a) w.heap w.state = (stop, heap, state) →
    if stop then goal else
      (∃ g', le g g' ∧ Inv g' ⟨heap, a :: w.visited, state⟩) ∧ w.heap.size ≤ heap.size ∧
      (∀ b, b < w.heap.size → b ≠ a → heap.cell? b = w.heap.cell? b) ∧
      ∀ name v, heap.child (.ref a) name = some v → name ∈ ownPropsOf w.heap a
  need_child : ∀ {g g' w w' a name v}, Inv g w → Legit w.heap (.ref a) → a ∉ w.visited → le g g' → Inv g' w' →
    (∀ b ∈ a :: w.visited, b ∈ w'.visited) → w'.heap.child (.ref a) name = some v → need g' w' v < need g w (.ref a)
  need_element : ∀ {g g' w w' a name v i}, Inv g w → Legit w.heap (.ref a) → a ∉ w.visited → le g g' → Inv g' w' →
    (∀ b ∈ a :: w.visited, b ∈ w'.visited) → w'.heap.child (.ref a) name = some v →
    isNonEmptyObjectArray w'.heap v → need g' w' (elementAt w'.heap v i) < need g w (.ref a)

namespace Discipline

variable {γ : Type} {fn : Callback σ} (d : Discipline γ fn)

def Kept (g : γ) (w w' : Walk σ) : Prop := (∃ g', d.le g g' ∧ d.Inv g' w') ∧ Progress w w'

theorem Kept.trans {g g' : γ} {w w' w'' : Walk σ} (le : d.le g g') (p : Progress w w')
    (k : d.Kept g' w' w'') : d.Kept g w w'' := by
  obtain ⟨⟨g'', le', inv⟩, q⟩ := k
  exact ⟨⟨g'', d.le_trans le le', inv⟩, p.trans q⟩

def Post (g : γ) (w : Walk σ) (v : Val) (w' : Walk σ) : Prop := d.Kept g w w' ∧ ∀ a, v = .ref a → a ∈ w'.visited

theorem elements_returns {fuel : Nat} {g : γ} {w : Walk σ} {v : Val} (inv : d.Inv g w) (legit : d.Legit w.heap v)
    (each : ∀ i g' w', d.le g g' → d.Inv g' w' → Progress w w' → isNonEmptyObjectArray w'.heap v →
      Returns (traverse fn fuel (elementAt w'.heap v i) w') d.goal (d.Post g' w' (elementAt w'.heap v i))) :
    Returns (if isNonEmptyObjectArray w.heap v
      then someOf (fun i w => traverse fn fuel (elementAt w.heap v i) w)
        (List.range ((arrayElems? w.heap v).getD []).length) w
      else some (false, w)) d.goal (d.Kept g w) := by
  have start : d.Kept g w w := ⟨⟨g, d.le_refl g, inv⟩, .refl w⟩
  split
  · rename_i array
    refine (someOf_returns (d.Kept g w) (fun _ _ => True) (fun _ _ _ _ _ h => h) _ ?_ w start).mono fun w' h => h.1
    intro i _ w₁ given
    rcases given with ⟨⟨g₁, le₁, inv₁⟩, progress₁⟩
    have array₁ := d.array_lasting inv le₁ inv₁ legit array
    apply (each i g₁ w₁ le₁ inv₁ progress₁ array₁).mono
    intro w' given
    rcases given with ⟨kept, -⟩
    exact ⟨.trans d le₁ progress₁ kept, kept.2, trivial⟩
  · exact .done start

theorem traverseProp_plain {visit : Val → Walk σ → Option (Bool × Walk σ)} {a : Nat} {prop : String} {w : Walk σ}
    (plain : isObject (readProp w.heap a prop) = false) : traverseProp visit a prop w = some (false, w) := by
  have array : isNonEmptyObjectArray w.heap (readProp w.heap a prop) = false := by
    by_contra array
    rw [isObject_of_array (by simpa using array)] at plain
    cases plain
  simp only [traverseProp, array, plain, Bool.false_eq_true, if_false, unlessFound]

theorem traverseProp_returns {fuel : Nat} {g g₁ : γ} {w w₁ : Walk σ} {a : Nat} {prop : String}
    (recurse : ∀ g w v, d.Inv g w → d.Legit w.heap v → d.need g w v < fuel →
      Returns (traverse fn fuel v w) d.goal (d.Post g w v))
    (inv : d.Inv g w) (legit : d.Legit w.heap (.ref a)) (fresh : a ∉ w.visited)
    (need : d.need g w (.ref a) < fuel + 1) (le₁ : d.le g g₁) (seen : ∀ b ∈ a :: w.visited, b ∈ w₁.visited)
    (w₂ : Walk σ) (kept : d.Kept g₁ w₁ w₂) :
    Returns (traverseProp (traverse fn fuel) a prop w₂) d.goal fun w' =>
      d.Kept g₁ w₁ w' ∧ Progress w₂ w' ∧ ∀ b, w'.heap.child (.ref a) prop = some (.ref b) → b ∈ w'.visited := by
  rcases kept with ⟨⟨g₂, le₂, inv₂⟩, progress⟩
  have later : ∀ {w' : Walk σ}, Progress w₂ w' → ∀ b ∈ a :: w.visited, b ∈ w'.visited :=
    fun p b member => p.visited b (progress.visited b (seen b member))
  have here : a ∈ w₂.visited := progress.visited a (seen a (by simp))
  have fixed : ∀ {w' : Walk σ}, Progress w₂ w' → ∀ v, w'.heap.child (.ref a) prop = some v ↔
      w₂.heap.child (.ref a) prop = some v := by
    intro w' p v
    simp [Heap.child, p.stable a here]
  generalize value : readProp w₂.heap a prop = v
  by_cases object : isObject v
  · have edge := child_of_readProp value object
    have legit₂ := d.legit_child inv₂ here edge
    have elements := @elements_returns _ _ _ d fuel _ _ _ inv₂ legit₂ fun i g₃ w₃ le₃ inv₃ progress₃ array₃ => by
      have smaller := d.need_element (i := i) inv legit fresh (d.le_trans le₁ (d.le_trans le₂ le₃)) inv₃
        (later progress₃) ((fixed progress₃ _).mpr edge) array₃
      exact recurse g₃ w₃ _ inv₃ (d.legit_element inv₃ (d.legit_mono progress₃.size legit₂) array₃) (by omega)
    simp only [traverseProp, value]
    apply elements.andThen
    intro w₃ given
    rcases given with ⟨⟨g₃, le₃, inv₃⟩, progress₃⟩
    have smaller := d.need_child inv legit fresh (d.le_trans le₁ (d.le_trans le₂ le₃)) inv₃ (later progress₃)
      ((fixed progress₃ _).mpr edge)
    simp only [object, if_true]
    apply (recurse g₃ w₃ _ inv₃ (d.legit_mono progress₃.size legit₂) (by omega)).mono
    intro w' given
    rcases given with ⟨kept', reached⟩
    have progress' := progress₃.trans kept'.2
    refine ⟨.trans d (d.le_trans le₂ le₃) (progress.trans progress₃) kept', progress', fun c child => ?_⟩
    rw [fixed progress', edge] at child
    exact reached c (Option.some.inj child)
  · subst value
    rw [traverseProp_plain (by simpa using object)]
    refine .done ⟨⟨⟨g₂, le₂, inv₂⟩, progress⟩, .refl _, fun b child => ?_⟩
    rw [readProp_of_child child] at object
    exact absurd rfl object

theorem traverse_returns (fuel : Nat) : ∀ (g : γ) (w : Walk σ) (v : Val), d.Inv g w → d.Legit w.heap v →
    d.need g w v < fuel → Returns (traverse fn fuel v w) d.goal (d.Post g w v) := by
  induction fuel with
  | zero => exact fun _ _ _ _ _ need => absurd need (Nat.not_lt_zero _)
  | succ fuel ih =>
    intro g w v inv legit need
    cases v with
    | undefined => exact .done ⟨⟨⟨g, d.le_refl g, inv⟩, .refl w⟩, nofun⟩
    | prim p => exact .done ⟨⟨⟨g, d.le_refl g, inv⟩, .refl w⟩, nofun⟩
    | ref a =>
      by_cases seen : a ∈ w.visited
      · simp only [traverse, seen, if_true]
        refine .done ⟨⟨⟨g, d.le_refl g, inv⟩, .refl w⟩, fun b same => ?_⟩
        cases same
        exact seen
      · simp only [traverse, seen, if_false]
        rcases called : fn a (ownPropsOf w.heap a) w.heap w.state with ⟨stop, heap, state⟩
        have visited := d.visit inv legit seen called
        cases stop with
        | true => exact ⟨true, _, rfl, by simpa using visited⟩
        | false =>
          simp only [Bool.false_eq_true, if_false] at visited ⊢
          obtain ⟨⟨g₁, le₁, inv₁⟩, size, others, named⟩ := visited
          have loop := someOf_returns (d.Kept g₁ ⟨heap, a :: w.visited, state⟩)
            (fun prop w' => ∀ b, w'.heap.child (.ref a) prop = some (.ref b) → b ∈ w'.visited)
            ?_ (ownPropsOf w.heap a)
            (fun prop _ w₂ kept => d.traverseProp_returns ih inv legit seen need le₁ (fun _ h => h) w₂ kept)
            _ ⟨⟨g₁, d.le_refl g₁, inv₁⟩, .refl ⟨heap, a :: w.visited, state⟩⟩
          · apply loop.mono
            intro w' given
            rcases given with ⟨⟨⟨g', le', inv'⟩, progress⟩, -, children⟩
            have before : Progress w w' :=
              .of_visit seen (fun b visited => d.visited_live inv visited) size others named progress children
            refine ⟨⟨⟨g', d.le_trans le₁ le', inv'⟩, before⟩, fun b same => ?_⟩
            cases same
            exact progress.visited a (List.mem_cons_self ..)
          · intro prop w₂ w₃ given progress settled b child
            rcases given with ⟨-, earlier⟩
            have stable := progress.stable a (earlier.visited a (List.mem_cons_self ..))
            apply progress.visited
            apply settled
            simpa [Heap.child, stable] using child

end Discipline

end ModelServer.TypeUtil
