import ModelServer.Js.Heap

namespace Js

mutual

/-- The value that `JSON.parse` builds for a document, in new cells. -/
def store (h : Heap) : Json → Heap × Val
  | .prim p => (h, .prim p)
  | .arr elems =>
    let (h, vs) := storeElems h elems
    let (h, a) := h.alloc (.array vs)
    (h, .ref a)
  | .obj props =>
    let (h, ps) := storeProps h props
    let (h, a) := h.alloc (.object ps)
    (h, .ref a)

def storeElems (h : Heap) : List Json → Heap × List Val
  | [] => (h, [])
  | e :: rest =>
    let (h, v) := store h e
    let (h, vs) := storeElems h rest
    (h, v :: vs)

def storeProps (h : Heap) : List (String × Json) → Heap × List (String × Val)
  | [] => (h, [])
  | (name, value) :: rest =>
    let (h, v) := store h value
    let (h, ps) := storeProps h rest
    (h, (name, v) :: ps)

end

/-- What `JSON.stringify` writes of a value: properties that are undefined are left out, elements that
    are undefined become null. A cyclic value has no document. -/
def read : Nat → Heap → Val → Option Json
  | 0, _, _ => none
  | _ + 1, _, .undefined => none
  | _ + 1, _, .prim p => some (.prim p)
  | fuel + 1, h, .ref a => match h.cell? a with
    | some (.array elems) =>
      (elems.mapM fun e => if e = .undefined then some (.prim .null) else read fuel h e).map .arr
    | some (.object props) =>
      (((names props).filter fun name => props.lookup name ≠ some .undefined).mapM fun name =>
        ((props.lookup name).bind (read fuel h)).map (name, ·)).map .obj
    | none => none

theorem storeProps_eq (h : Heap) (props : List (String × Json)) :
    storeProps h props = ((storeElems h (props.map Prod.snd)).1,
      (props.map Prod.fst).zip (storeElems h (props.map Prod.snd)).2) := by
  induction props generalizing h with
  | nil => rfl
  | cons entry rest ih =>
    obtain ⟨name, value⟩ := entry
    simp only [storeProps, storeElems, List.map_cons, ih, List.zip_cons_cons]

/-- A document in new cells, each of which is read along one path only. -/
structure Stored (h : Heap) (j : Json) (h' : Heap) (v : Val) : Prop where
  size : h.size ≤ h'.size
  old : ∀ a < h.size, h'.cell? a = h.cell? a
  denotes : h'.Denotes v j
  fresh : ∀ a, h'.Reaches v (.ref a) → h.size ≤ a
  tree : ∀ path path' a, h'.walk v path = some (.ref a) → h'.walk v path' = some (.ref a) → path = path'

structure StoredAll (h : Heap) (js : List Json) (h' : Heap) (vs : List Val) : Prop where
  size : h.size ≤ h'.size
  old : ∀ a < h.size, h'.cell? a = h.cell? a
  length : vs.length = js.length
  denotes : ∀ (i : Nat) (v : Val) (j : Json), vs[i]? = some v → js[i]? = some j → h'.Denotes v j
  fresh : ∀ (i : Nat) (v : Val) (a : Nat), vs[i]? = some v → h'.Reaches v (.ref a) → h.size ≤ a
  tree : ∀ (i i' : Nat) (v v' : Val) (path path' : List String) (a : Nat), vs[i]? = some v → vs[i']? = some v' →
    h'.walk v path = some (.ref a) → h'.walk v' path' = some (.ref a) → i = i' ∧ path = path'

theorem lookup_zip {α : Type} (ns : List String) (vs : List α) (name : String) :
    (ns.zip vs).lookup name = (ns.idxOf? name).bind (vs[·]?) := by
  induction ns generalizing vs with
  | nil => simp [List.idxOf?]
  | cons n ns ih =>
    cases vs with
    | nil => cases (n :: ns).idxOf? name <;> simp
    | cons v vs =>
      rw [List.zip_cons_cons, lookup_entry, List.idxOf?_cons]
      by_cases same : name = n
      · simp [same]
      · have other : (n == name) = false := by simpa using Ne.symm same
        simp only [same, if_false, other, ih]
        cases ns.idxOf? name <;> simp

variable {h h₁ h₂ : Heap} {j : Json} {v : Val} {js : List Json} {vs : List Val}

theorem Stored.later (s : Stored h j h₁ v) (size : h₁.size ≤ h₂.size)
    (old : ∀ a < h₁.size, h₂.cell? a = h₁.cell? a) : Stored h j h₂ v := by
  have same : ∀ a, h₁.Reaches v (.ref a) → h₂.cell? a = h₁.cell? a :=
    fun a reached => old a (s.denotes.reached_bound reached)
  refine ⟨s.size.trans size, fun a bound => ?_, s.denotes.congr same, fun a reached => ?_, ?_⟩
  · rw [old a (bound.trans_le s.size), s.old a bound]
  · exact s.fresh a ((Heap.reaches_congr same _).mp reached)
  · simp only [Heap.walk_congr same]
    exact s.tree

theorem StoredAll.cons {v : Val} {j : Json} (s : Stored h j h₁ v) (t : StoredAll h₁ js h₂ vs) :
    StoredAll h (j :: js) h₂ (v :: vs) := by
  have first := s.later t.size t.old
  have same : ∀ a, h₁.Reaches v (.ref a) → h₂.cell? a = h₁.cell? a :=
    fun a reached => t.old a (s.denotes.reached_bound reached)
  have below : ∀ a, h₂.Reaches v (.ref a) → a < h₁.size :=
    fun a reached => s.denotes.reached_bound ((Heap.reaches_congr same _).mp reached)
  have apart : ∀ (i : Nat) (v' : Val) path path' a, vs[i]? = some v' → h₂.walk v path = some (.ref a) →
      h₂.walk v' path' ≠ some (.ref a) := by
    intro i v' path path' a at_i walked walked'
    have low := below a ((Heap.reaches_iff_walk ..).mpr ⟨path, walked⟩)
    have high := t.fresh i v' a at_i ((Heap.reaches_iff_walk ..).mpr ⟨path', walked'⟩)
    omega
  refine ⟨first.size, first.old, by simp [t.length], ?_, ?_, ?_⟩
  · intro i w k at_i at_i'
    cases i with
    | zero =>
      cases at_i
      cases at_i'
      exact first.denotes
    | succ i => exact t.denotes i w k at_i at_i'
  · intro i w a at_i reached
    cases i with
    | zero =>
      cases at_i
      exact first.fresh a reached
    | succ i => exact s.size.trans (t.fresh i w a at_i reached)
  · intro i i' w w' path path' a at_i at_i' walked walked'
    cases i with
    | zero =>
      cases at_i
      cases i' with
      | zero =>
        cases at_i'
        exact ⟨rfl, first.tree path path' a walked walked'⟩
      | succ i' => exact absurd walked' (apart i' w' path path' a at_i' walked)
    | succ i =>
      cases i' with
      | zero =>
        cases at_i'
        exact absurd walked (apart i w path' path a at_i walked')
      | succ i' =>
        obtain ⟨rfl, same⟩ := t.tree i i' w w' path path' a at_i at_i' walked walked'
        exact ⟨rfl, same⟩

theorem StoredAll.document (t : StoredAll h js h₁ vs) {i : Nat} {v : Val} (at_i : vs[i]? = some v) :
    ∃ j, js[i]? = some j ∧ h₁.Denotes v j := by
  have bound := (List.getElem?_eq_some_iff.mp at_i).1
  have at_i' := List.getElem?_eq_getElem (t.length ▸ bound)
  exact ⟨_, at_i', t.denotes i v _ at_i at_i'⟩

theorem StoredAll.bound (t : StoredAll h js h₁ vs) {i a : Nat} {v : Val} (at_i : vs[i]? = some v)
    (reached : h₁.Reaches v (.ref a)) : a < h₁.size := by
  rcases t.document at_i with ⟨j, -, denotes⟩
  exact denotes.reached_bound reached

theorem StoredAll.kept (t : StoredAll h js h₁ vs) (c : Cell) {i : Nat} {v : Val} (at_i : vs[i]? = some v) :
    ∀ a, h₁.Reaches v (.ref a) → (h₁.alloc c).1.cell? a = h₁.cell? a :=
  fun _ reached => Heap.cell_alloc_old h₁ c (t.bound at_i reached)

theorem StoredAll.walk_alloc (t : StoredAll h js h₁ vs) {c : Cell} {place : String → Option Nat}
    (values : ∀ name, c.child name = (place name).bind (vs[·]?)) {name : String} {path : List String} {w : Val}
    (walked : (h₁.alloc c).1.walk (.ref h₁.size) (name :: path) = some w) :
    ∃ i v, place name = some i ∧ vs[i]? = some v ∧ h₁.walk v path = some w := by
  have new : (h₁.alloc c).1.cell? h₁.size = some c := by simp [Heap.cell_alloc]
  simp only [Heap.walk, Heap.child_ref, new, Option.bind_some, values] at walked
  cases at_name : place name with
  | none => simp [at_name] at walked
  | some i =>
    cases at_i : vs[i]? with
    | none => simp [at_name, at_i] at walked
    | some v =>
      simp only [at_name, at_i, Option.bind_some, Heap.walk_congr (t.kept c at_i)] at walked
      exact ⟨i, v, rfl, at_i, walked⟩

theorem StoredAll.alloc_denotes (t : StoredAll h js h₁ vs) {c : Cell} {place : String → Option Nat}
    (shape : c.shape = j.shape) (values : ∀ name, c.child name = (place name).bind (vs[·]?))
    (documents : ∀ name, j.child name = (place name).bind (js[·]?)) : (h₁.alloc c).1.Denotes (.ref h₁.size) j := by
  have new : (h₁.alloc c).1.cell? h₁.size = some c := by simp [Heap.cell_alloc]
  apply Heap.denotes_of_children
  · simp [Heap.shape, new, shape]
  · intro name
    simp only [Heap.child_ref, new, Option.bind_some, values, documents]
    cases place name with
    | none => exact .none
    | some i =>
      simp only [Option.bind_some]
      cases at_i : vs[i]? with
      | none =>
        have beyond := List.getElem?_eq_none_iff.mp at_i
        rw [List.getElem?_eq_none (t.length ▸ beyond)]
        exact .none
      | some v =>
        rcases t.document at_i with ⟨j, at_i', denotes⟩
        rw [at_i']
        exact .some (denotes.congr (t.kept c at_i))

theorem StoredAll.alloc_tree (t : StoredAll h js h₁ vs) {c : Cell} {place : String → Option Nat}
    (values : ∀ name, c.child name = (place name).bind (vs[·]?))
    (injective : ∀ name name' i, place name = some i → place name' = some i → name = name') (path path' : List String)
    (a : Nat) (walked : (h₁.alloc c).1.walk (.ref h₁.size) path = some (.ref a))
    (walked' : (h₁.alloc c).1.walk (.ref h₁.size) path' = some (.ref a)) : path = path' := by
  have no_way_back : ∀ name path, (h₁.alloc c).1.walk (.ref h₁.size) (name :: path) ≠ some (.ref h₁.size) := by
    intro name path walked
    rcases t.walk_alloc values walked with ⟨i, v, -, at_i, walked⟩
    exact Nat.lt_irrefl _ (t.bound at_i ((Heap.reaches_iff_walk ..).mpr ⟨path, walked⟩))
  cases path with
  | nil =>
    cases walked
    cases path' with
    | nil => rfl
    | cons name' path' => exact absurd walked' (no_way_back name' path')
  | cons name path =>
    cases path' with
    | nil =>
      cases walked'
      exact absurd walked (no_way_back name path)
    | cons name' path' =>
      rcases t.walk_alloc values walked with ⟨i, v, at_name, at_i, below⟩
      rcases t.walk_alloc values walked' with ⟨i', v', at_name', at_i', below'⟩
      rcases t.tree i i' v v' path path' a at_i at_i' below below' with ⟨rfl, rfl⟩
      rw [injective name name' i at_name at_name']

theorem StoredAll.alloc (t : StoredAll h js h₁ vs) {c : Cell} (place : String → Option Nat) (shape : c.shape = j.shape)
    (values : ∀ name, c.child name = (place name).bind (vs[·]?))
    (documents : ∀ name, j.child name = (place name).bind (js[·]?))
    (injective : ∀ name name' i, place name = some i → place name' = some i → name = name') :
    Stored h j (h₁.alloc c).1 (.ref h₁.size) := by
  refine ⟨by simpa using t.size.trans (Nat.le_succ _), ?old, t.alloc_denotes shape values documents, ?fresh,
    t.alloc_tree values injective⟩
  case old =>
    intro a bound
    rw [Heap.cell_alloc_old h₁ c (bound.trans_le t.size), t.old a bound]
  case fresh =>
    intro a reached
    rcases (Heap.reaches_iff_walk ..).mp reached with ⟨path, walked⟩
    cases path with
    | nil =>
      cases walked
      exact t.size
    | cons name path =>
      rcases t.walk_alloc values walked with ⟨i, v, -, at_i, below⟩
      exact t.fresh i v a at_i ((Heap.reaches_iff_walk ..).mpr ⟨path, below⟩)

theorem storeElems_spec {js : List Json} (each : ∀ j ∈ js, ∀ h, Stored h j (store h j).1 (store h j).2) (h : Heap) :
    StoredAll h js (storeElems h js).1 (storeElems h js).2 := by
  induction js generalizing h with
  | nil => exact ⟨Nat.le_refl _, fun _ _ => rfl, rfl, by simp [storeElems], by simp [storeElems], by simp [storeElems]⟩
  | cons j js ih => exact .cons (each j (by simp) h) (ih (fun k member => each k (List.mem_cons_of_mem _ member)) _)

theorem idxOf_injective {ns : List String} {name name' : String} {i : Nat} (found : ns.idxOf? name = some i)
    (found' : ns.idxOf? name' = some i) : name = name' := by
  obtain ⟨bound, same, -⟩ := List.findIdx?_eq_some_iff_getElem.mp found
  obtain ⟨_, same', -⟩ := List.findIdx?_eq_some_iff_getElem.mp found'
  rw [← beq_iff_eq.mp same, ← beq_iff_eq.mp same']

theorem store_spec (j : Json) : ∀ h, Stored h j (store h j).1 (store h j).2 := by
  induction j using Json.induct with
  | prim p =>
    refine fun h => ⟨Nat.le_refl _, fun _ _ => rfl, Heap.denotes_prim h p, fun a reached => ?_, fun path _ a walked => ?_⟩
    · obtain ⟨path, walked⟩ := (Heap.reaches_iff_walk ..).mp reached
      cases path <;> simp [store, Heap.walk, Heap.child] at walked
    · cases path <;> simp [store, Heap.walk, Heap.child] at walked
  | arr elems ih =>
    intro h
    have all := storeElems_spec ih h
    exact all.alloc indexOf? (by simp [Cell.shape, Json.shape, all.length]) (fun _ => rfl) (fun _ => rfl)
      fun _ _ _ at_name at_name' => indexOf_injective at_name at_name'
  | obj props ih =>
    intro h
    have each : ∀ j ∈ props.map Prod.snd, ∀ h, Stored h j (store h j).1 (store h j).2 := by
      simp only [List.mem_map]
      intro _ given
      rcases given with ⟨entry, member, rfl⟩
      exact ih entry member
    have all := storeElems_spec each h
    have unzip : props = (props.map Prod.fst).zip (props.map Prod.snd) := by
      rw [List.zip_map', List.map_id'' fun entry => rfl]
    simp only [store, storeProps_eq, Heap.alloc_snd]
    refine all.alloc (fun name => (props.map Prod.fst).idxOf? name) rfl (fun name => lookup_zip ..)
      (fun name => ?_) fun name name' i => idxOf_injective
    rw [← lookup_zip, ← unzip]
    rfl

theorem mapM_some {α β : Type} {f : α → Option β} {xs : List α} (each : ∀ x ∈ xs, (f x).isSome) :
    ∃ ys, xs.mapM f = some ys ∧ ∀ i : Nat, ys[i]? = xs[i]?.bind f := by
  induction xs with
  | nil => exact ⟨[], rfl, by simp⟩
  | cons x xs ih =>
    obtain ⟨y, at_x⟩ := Option.isSome_iff_exists.mp (each x (by simp))
    obtain ⟨ys, rest, at_i⟩ := ih fun x' member => each x' (List.mem_cons_of_mem _ member)
    refine ⟨y :: ys, by simp [List.mapM_cons, at_x, rest], fun i => ?_⟩
    cases i with
    | zero => simp [at_x]
    | succ i => simpa using at_i i

theorem mapM_entries {α : Type} {f : String → Option α} {ns : List String} (each : ∀ n ∈ ns, (f n).isSome) :
    ∃ ps, (ns.mapM fun n => (f n).map (n, ·)) = some ps ∧ ∀ n, ps.lookup n = if n ∈ ns then f n else none := by
  induction ns with
  | nil => exact ⟨[], rfl, by simp⟩
  | cons m ns ih =>
    obtain ⟨y, at_m⟩ := Option.isSome_iff_exists.mp (each m (by simp))
    obtain ⟨ps, rest, lookup⟩ := ih fun n member => each n (List.mem_cons_of_mem _ member)
    refine ⟨(m, y) :: ps, by simp [List.mapM_cons, at_m, rest], fun n => ?_⟩
    rw [lookup_entry, lookup]
    by_cases same : n = m
    · subst same
      simp [at_m]
    · simp [same]

section

variable {a : Nat} {fuel : Nat}

theorem read_array {vs : List Val} (cell : h.cell? a = some (.array vs))
    (below : ∀ name w, h.child (.ref a) name = some w → w ≠ .undefined ∧ ∃ c, read fuel h w = some c ∧ h.Denotes w c) :
    ∃ j', read (fuel + 1) h (.ref a) = some j' ∧ h.Denotes (.ref a) j' := by
  have child : ∀ name, h.child (.ref a) name = (indexOf? name).bind (vs[·]?) := by simp [cell, Cell.child]
  let readElem := fun e => if e = .undefined then some (.prim .null) else read fuel h e
  have element : ∀ (i : Nat) e, vs[i]? = some e → ∃ c, readElem e = some c ∧ h.Denotes e c := by
    intro i e at_i
    obtain ⟨defined, c, got, denotes⟩ := below (indexName i) e (by simp [child, at_i])
    exact ⟨c, by simp [readElem, defined, got], denotes⟩
  obtain ⟨ys, result, at_index⟩ : ∃ ys, vs.mapM readElem = some ys ∧ ∀ i : Nat, ys[i]? = vs[i]?.bind readElem := by
    apply mapM_some
    intro e member
    obtain ⟨i, at_i⟩ := List.mem_iff_getElem?.mp member
    obtain ⟨c, got, -⟩ := element i e at_i
    simp [got]
  refine ⟨.arr ys, by simp only [read, cell, readElem] at result ⊢; rw [result, Option.map_some], ?_⟩
  apply Heap.denotes_of_children
  · have length : ys.length = vs.length := by
      apply Nat.le_antisymm
      · apply List.getElem?_eq_none_iff.mp
        rw [at_index, List.getElem?_eq_none (Nat.le_refl _), Option.bind_none]
      · by_contra shorter
        obtain ⟨e, at_end⟩ : ∃ e, vs[ys.length]? = some e := ⟨_, List.getElem?_eq_getElem (by omega)⟩
        obtain ⟨c, got, -⟩ := element _ e at_end
        have beyond := at_index ys.length
        rw [at_end, Option.bind_some, got, List.getElem?_eq_none (Nat.le_refl _)] at beyond
        cases beyond
    simp [Heap.shape, cell, Cell.shape, Json.shape, length]
  · intro name
    rw [child, Json.child]
    cases indexOf? name with
    | none => exact .none
    | some i =>
      simp only [Option.bind_some, at_index]
      cases at_i : vs[i]? with
      | none => exact .none
      | some e =>
        obtain ⟨c, got, denotes⟩ := element i e at_i
        rw [Option.bind_some, got]
        exact .some denotes

theorem read_object {ps : List (String × Val)} (cell : h.cell? a = some (.object ps))
    (below : ∀ name w, h.child (.ref a) name = some w → w ≠ .undefined ∧ ∃ c, read fuel h w = some c ∧ h.Denotes w c) :
    ∃ j', read (fuel + 1) h (.ref a) = some j' ∧ h.Denotes (.ref a) j' := by
  have child : ∀ name, h.child (.ref a) name = ps.lookup name := by simp [cell, Cell.child]
  let readProp := fun name => (ps.lookup name).bind (read fuel h)
  have value : ∀ name w, ps.lookup name = some w → ∃ c, readProp name = some c ∧ h.Denotes w c := by
    intro name w found
    obtain ⟨-, c, got, denotes⟩ := below name w (by rw [child, found])
    exact ⟨c, by simp [readProp, found, got], denotes⟩
  have all : (names ps).filter (fun name => ps.lookup name ≠ some .undefined) = names ps := by
    apply List.filter_eq_self.mpr
    intro name _
    simp only [ne_eq, decide_not, Bool.not_eq_true', decide_eq_false_iff_not]
    intro undefined
    exact (below name .undefined (by rw [child, undefined])).1 rfl
  obtain ⟨qs, result, lookup⟩ : ∃ qs, ((names ps).mapM fun name => (readProp name).map (name, ·)) = some qs ∧
      ∀ name, qs.lookup name = if name ∈ names ps then readProp name else none := by
    apply mapM_entries
    intro name member
    obtain ⟨w, found⟩ := Option.isSome_iff_exists.mp ((mem_names name ps).mp member)
    obtain ⟨c, got, -⟩ := value name w found
    simp [got]
  refine ⟨.obj qs, by simp only [read, cell, all]; rw [result, Option.map_some], ?_⟩
  apply Heap.denotes_of_children
  · simp [Heap.shape, cell, Cell.shape, Json.shape]
  · intro name
    simp only [child, Json.child, lookup, mem_names]
    cases found : ps.lookup name with
    | none => exact .none
    | some w =>
      obtain ⟨c, got, denotes⟩ := value name w found
      rw [Option.isSome_some, if_pos rfl, got]
      exact .some denotes

end

theorem read_denotes (fuel : Nat) : ∀ {v : Val} {j : Json}, h.Denotes v j →
    (∀ path, (j.at? path).isSome → path.length < fuel) → ∃ j', read fuel h v = some j' ∧ h.Denotes v j' := by
  induction fuel with
  | zero => exact fun _ bounded => absurd (bounded [] rfl) (Nat.not_lt_zero _)
  | succ fuel ih =>
    intro v j d bounded
    have below : ∀ name w, h.child v name = some w → w ≠ .undefined ∧ ∃ c, read fuel h w = some c ∧ h.Denotes w c := by
      intro name w edge
      obtain ⟨c, found, denotes⟩ := d.child edge
      refine ⟨?_, ih denotes fun path present => ?_⟩
      · intro same
        subst same
        cases c <;> cases denotes.shape
      · have within := bounded (name :: path) (by simpa [Json.at?, found] using present)
        simpa using within
    cases j with
    | prim p =>
      have same := d.eq_prim
      subst same
      exact ⟨.prim p, rfl, d⟩
    | arr elems =>
      obtain ⟨a, vs, rfl, cell, -⟩ := d.of_arr
      exact read_array cell below
    | obj props =>
      obtain ⟨a, ps, rfl, cell⟩ := d.of_obj
      exact read_object cell below

theorem exists_read (j : Json) : ∃ need, ∀ fuel, need < fuel → ∀ {h : Heap} {v : Val}, h.Denotes v j →
    ∃ j', read fuel h v = some j' ∧ h.Denotes v j' := by
  obtain ⟨bound, bounded⟩ := j.paths_bounded
  exact ⟨bound, fun fuel enough _ _ d => read_denotes fuel d fun path present => (bounded path present).trans_lt enough⟩

end Js
