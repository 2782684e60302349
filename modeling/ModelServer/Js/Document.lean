import ModelServer.Js.Store
import Mathlib.Data.Fintype.Card

namespace Js

namespace Json

theorem isSome_at_of_same {a b : Json} (same : a.Same b) {path : List String} (present : (a.at? path).isSome) :
    (b.at? path).isSome := by
  have shapes := congrArg Option.isSome (same path)
  simpa [shapeAt, present] using shapes

theorem no_cycle {j c : Json} {path : List String} (found : j.at? path = some c) (same : j.Same c) : path = [] := by
  by_contra proper
  have positive : 0 < path.length := List.length_pos_iff.mpr proper
  rcases j.paths_bounded with ⟨bound, bounded⟩
  have long : ∀ m, ∃ rest, (j.at? rest).isSome ∧ m ≤ rest.length := by
    intro m
    induction m with
    | zero => exact ⟨[], rfl, Nat.zero_le _⟩
    | succ m ih =>
      rcases ih with ⟨rest, present, length⟩
      refine ⟨path ++ rest, ?_, ?_⟩
      · rw [at_append, found]
        exact isSome_at_of_same same present
      · rw [List.length_append]
        omega
  rcases long (bound + 1) with ⟨rest, present, length⟩
  have within := bounded rest present
  omega

end Json

namespace Heap

variable {h : Heap} {v : Val} {j : Json}

theorem walk_take (d : h.Denotes v j) {path : List String} (present : (j.at? path).isSome) {i : Nat}
    (inside : i < path.length) :
    ∃ a c, h.walk v (path.take i) = some (.ref a) ∧ j.at? (path.take i) = some c ∧ h.Denotes (.ref a) c := by
  have parts : path.take i ++ path.drop i = path := List.take_append_drop i path
  rw [← parts, Json.at_append] at present
  cases found : j.at? (path.take i) with
  | none => simp [found] at present
  | some c =>
    rcases d.walk found with ⟨w, walked, denotes⟩
    have below : (c.at? (path.drop i)).isSome := by simpa [found] using present
    rw [List.drop_eq_getElem_cons inside, Json.at?] at below
    cases w with
    | ref a => exact ⟨a, c, walked, rfl, denotes⟩
    | undefined => cases c <;> cases denotes.shape
    | prim p =>
      have same := Json.Same.shape (denotes.same (denotes_prim h p))
      cases c <;> simp [Json.shape, Json.child] at same below

theorem Denotes.depth (d : h.Denotes v j) {path : List String} (present : (j.at? path).isSome) :
    path.length ≤ h.size := by
  choose a c walked found denotes using fun i : Fin path.length => walk_take d present i.isLt
  have bound : ∀ i, a i < h.size :=
    fun i => d.reached_bound ((h.reaches_iff_walk v _).mpr ⟨_, walked i⟩)
  have forward : ∀ i k : Fin path.length, i ≤ k → a i = a k → i = k := by
    intro i k before same
    have split : path.take k = path.take i ++ (path.take k).drop i := by
      have first : path.take i = (path.take k).take i := by
        rw [List.take_take, Nat.min_eq_left before]
      rw [first, List.take_append_drop]
    have between : (c i).at? ((path.take k).drop i) = some (c k) := by
      have whole := found k
      rw [split, Json.at_append, found i] at whole
      exact whole
    have empty := Json.no_cycle between ((same ▸ denotes i).same (denotes k))
    have length := congrArg List.length empty
    simp only [List.length_drop, List.length_take, List.length_nil] at length
    have inside := k.isLt
    apply Fin.ext
    have le : i.val ≤ k.val := before
    omega
  have injective : Function.Injective fun i => (⟨a i, bound i⟩ : Fin h.size) := by
    intro i k same
    have cells : a i = a k := congrArg Fin.val same
    rcases le_total i k with before | after
    · exact forward i k before cells
    · exact (forward k i after cells.symm).symm
  simpa using Fintype.card_le_of_injective _ injective

def document (h : Heap) (v : Val) : Option Json := read (h.size + 1) h v

theorem document_denotes (d : h.Denotes v j) : ∃ j', h.document v = some j' ∧ h.Denotes v j' :=
  read_denotes (h.size + 1) d fun _ present => Nat.lt_succ_of_le (d.depth present)

/-- `JSON.parse(JSON.stringify(..))`, with null for undefined. -/
def deepClone (h : Heap) : Val → Option (Heap × Val)
  | .undefined => some (h, .prim .null)
  | v => (h.document v).map (store h)

theorem deepClone_spec (d : h.Denotes v j) : ∃ h' w, h.deepClone v = some (h', w) ∧ Stored h j h' w := by
  rcases document_denotes d with ⟨j', written, denotes⟩
  have stored := store_spec j' h
  refine ⟨(store h j').1, (store h j').2, ?_, ?_⟩
  · cases v with
    | undefined => cases j <;> cases d.shape
    | prim p => simp [deepClone, written]
    | ref a => simp [deepClone, written]
  · exact ⟨stored.size, stored.old, stored.denotes.of_same (denotes.same d), stored.fresh, stored.tree⟩

end Heap

namespace Json

mutual

def paths : Json → List (List String)
  | prim _ => [[]]
  | arr elems => [] :: pathsElems 0 elems
  | obj props => [] :: pathsProps props

def pathsElems (i : Nat) : List Json → List (List String)
  | [] => []
  | e :: rest => (paths e).map (indexName i :: ·) ++ pathsElems (i + 1) rest

def pathsProps : List (String × Json) → List (List String)
  | [] => []
  | (name, value) :: rest => (paths value).map (name :: ·) ++ pathsProps rest

end

theorem mem_pathsElems {path : List String} {elems : List Json} : ∀ {i k : Nat} {e : Json}, elems[k]? = some e →
    path ∈ e.paths → (indexName (i + k) :: path) ∈ pathsElems i elems := by
  induction elems with
  | nil => intro i k e found; simp at found
  | cons first rest ih =>
    intro i k e found member
    rw [pathsElems, List.mem_append]
    cases k with
    | zero =>
      cases found
      exact .inl (List.mem_map_of_mem member)
    | succ k =>
      have later := ih (i := i + 1) found member
      rw [show i + 1 + k = i + (k + 1) by omega] at later
      exact .inr later

theorem mem_pathsProps {path : List String} {name : String} {value : Json} {props : List (String × Json)}
    (found : (name, value) ∈ props) (member : path ∈ value.paths) : (name :: path) ∈ pathsProps props := by
  induction props with
  | nil => cases found
  | cons first rest ih =>
    rw [pathsProps, List.mem_append]
    rcases List.mem_cons.mp found with same | later
    · cases same
      exact .inl (List.mem_map_of_mem member)
    · exact .inr (ih later)

theorem mem_paths {path : List String} : ∀ {j : Json}, (j.at? path).isSome → path ∈ j.paths := by
  induction path with
  | nil => intro j _; cases j <;> simp [paths]
  | cons name path ih =>
    intro j present
    rw [at?] at present
    cases found : j.child name with
    | none => simp [found] at present
    | some c =>
      have member := ih (j := c) (by simpa [found] using present)
      cases j with
      | prim p => cases found
      | arr elems =>
        simp only [child] at found
        cases at_name : indexOf? name with
        | none => simp [at_name] at found
        | some i =>
          have here := mem_pathsElems (i := 0) (by simpa [at_name] using found) member
          rw [Nat.zero_add, indexName_of_indexOf at_name] at here
          rw [paths]
          exact List.mem_cons_of_mem _ here
      | obj props =>
        rw [paths]
        exact List.mem_cons_of_mem _ (mem_pathsProps (mem_of_lookup found) member)

theorem not_reaches_of_paths {h : Heap} {v : Val} {j : Json} (d : h.Denotes v j) {a : Nat}
    (elsewhere : ∀ path ∈ j.paths, h.walk v path ≠ some (.ref a)) : ¬ h.Reaches v (.ref a) := by
  intro reached
  rcases (h.reaches_iff_walk v _).mp reached with ⟨path, walked⟩
  have present := congrArg Option.isSome (d path)
  rw [Heap.shapeAt, walked, shapeAt, Option.isSome_map, Option.isSome_map] at present
  exact elsewhere path (mem_paths present.symm) walked

/-- Deep equality, which ignores the order of properties. -/
def alike (a b : Json) : Bool := (a.paths ++ b.paths).all fun path => a.shapeAt path = b.shapeAt path

theorem alike_iff (a b : Json) : a.alike b = true ↔ a.Same b := by
  simp only [alike, List.all_eq_true, List.mem_append, decide_eq_true_eq]
  constructor
  · intro agree path
    by_cases first : (a.at? path).isSome
    · exact agree path (.inl (mem_paths first))
    · by_cases second : (b.at? path).isSome
      · exact agree path (.inr (mem_paths second))
      · rw [Bool.not_eq_true, Option.isSome_eq_false_iff, Option.isNone_iff_eq_none] at first second
        simp [shapeAt, first, second]
  · intro same path _
    exact same path

end Json

end Js
