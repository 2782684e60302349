import ModelServer.TypeUtil.CopyRun
import ModelServer.TypeUtil.CopyJson

namespace ModelServer.TypeUtil

open Js Relations

variable {format : JsonFormat} {h₀ h₁ h : Heap} {root : Val} {copies : Copies} {origin : Nat → Option Nat}
  {visited : List Nat}

theorem beginsWithObject_denotes {v : Val} {elems : List Json} (d : h₀.Denotes v (.arr elems)) :
    isNonEmptyObjectArray h₀ v = beginsWithObject elems := by
  obtain ⟨a, vs, rfl, found, length⟩ := d.of_arr
  cases vs with
  | nil =>
    cases elems with
    | nil => simp [isNonEmptyObjectArray, arrayElems?, found, beginsWithObject]
    | cons e rest => cases length
  | cons first more =>
    cases elems with
    | nil => cases length
    | cons e rest =>
      obtain ⟨w, edge, denotes⟩ := d.of_child (show (Json.arr (e :: rest)).child (indexName 0) = some e by simp [Json.child])
      simp only [Heap.child_ref, found, Option.bind_some, Cell.child, indexOf_indexName, List.getElem?_cons_zero,
        Option.some.injEq] at edge
      subst edge
      simp only [isNonEmptyObjectArray, arrayElems_of_cell found]
      cases e with
      | prim p =>
        rw [denotes.eq_prim]
        cases p <;> simp [beginsWithObject, isObject, arrayElems?]
      | arr es =>
        obtain ⟨b, ws, rfl, at_b, -⟩ := denotes.of_arr
        simp [beginsWithObject, arrayElems?, at_b]
      | obj props =>
        obtain ⟨b, ps, rfl, at_b⟩ := denotes.of_obj
        simp [beginsWithObject, arrayElems?, at_b, isObject]

def Replaced (h₀ : Heap) (copies : Copies) (origin : Nat → Option Nat) : Place → Val → Val → Prop
  | .element, v, v' => v' = copyGetter copies v
  | .property, v, v' => Relinked copies h₀ origin v v'

theorem Replaced.copy (place : Place) {v v' : Val} (r : Replaced h₀ copies origin place v v')
    (plain : arrayElems? h₀ v = none ∨ place = .element) : v' = copyGetter copies v := by
  cases place with
  | element => exact r
  | property =>
    simp only [reduceCtorEq, or_false] at plain
    simpa [Replaced, Relinked, plain] using r

theorem inherited_denotes (format : JsonFormat) {a : Nat} {c : Cell} {j : Json} (cell : h₀.cell? a = some c)
    (d : h₀.Denotes (.ref a) j) :
    Option.Rel h₀.Denotes (inherited h₀ c format.foreignKey) (inheritedType format j) := by
  have proto := d.children "__proto__"
  rw [Heap.child_ref, cell, Option.bind_some] at proto
  exact rel_bind proto fun v j' _ _ denotes => denotes.children format.foreignKey

theorem inheritedType_below {format : JsonFormat} {j c : Json} (found : inheritedType format j = some c) :
    j.at? ["__proto__", format.foreignKey] = some c := by
  rw [inheritedType] at found
  rw [Json.at?]
  rcases Option.bind_eq_some_iff.mp found with ⟨prototype, proto, typed⟩
  rw [proto, Option.bind_some, Json.at?, typed]
  rfl

theorem below_of_copyEntries {format : JsonFormat} {j c : Json} {key : String}
    (found : (copyEntries format.foreignKey format.typeKey (inheritedType format j) j.entries).lookup key = some c) :
    ∃ name path, j.at? (name :: path) = some c := by
  rcases child_of_copyEntries found with ⟨name, own⟩ | below
  · rw [Json.lookup_entries] at own
    exact ⟨name, [], by rw [Json.at?, own]; rfl⟩
  · exact ⟨_, _, inheritedType_below below⟩

/-- The cells of the result: what each value of the document is replaced by, and where it is spread. -/
theorem Linking.spread_denotes (copied : Copied format h₀ root h₁ copies)
    (s : Linking format h₀ root h₁ copies origin visited h) {j : Json} {place : Place} {a b : Nat} {c : Cell}
    (spreads : Spread place j) (found : copies.lookup a = some b) (cell : h₀.cell? a = some c)
    (d : h₀.Denotes (.ref a) j) (seen : b ∈ visited)
    (each : ∀ name path v w j', j.at? (name :: path) = some j' → h₀.Denotes v j' → Original h₀ root v →
      Relinked copies h₀ origin v w → (∃ key, h.child (.ref b) key = some w) →
      h.Denotes w (copyJson format .property j')) :
    h.Denotes (.ref b) (copyJson format place j) := by
  obtain ⟨c₀, c', at_a, at_b, content⟩ := s.copyCells a b found
  cases cell.symm.trans at_a
  rw [if_pos seen] at content
  have reached := (copied.domain a).mpr ⟨b, found⟩
  apply Heap.denotes_of_children
  · rw [copyJson_spread format spreads]
    simp [Heap.shape, at_b, content.1, shape_copyCell, Json.shape]
  · intro key
    rw [child_copyJson_spread format spreads]
    simp only [Heap.child_ref, at_b, Option.bind_some]
    have entries : ∀ name, Option.Rel h₀.Denotes (c.entries.lookup name) (j.entries.lookup name) := by
      intro name
      have related := d.children name
      rw [Heap.child_ref, cell, Option.bind_some] at related
      rwa [Cell.lookup_entries, Json.lookup_entries]
    have copiedEntries := copyEntries_rel entries (inherited_denotes format cell d) format.foreignKey format.typeKey key
    have linked := content.2 key
    refine rel_through linked (by rw [copyCell_eq]; exact copiedEntries) fun v w j' at_v at_w at_j relinked denotes => ?_
    rcases below_of_copyEntries at_j with ⟨name, path, below⟩
    exact each name path v w j' below denotes (original_copyCell reached cell at_v) relinked ⟨key, by simp [at_b, at_w]⟩

theorem Linking.new_array (s : Linking format h₀ root h₁ copies origin visited h) {a b : Nat} (known : origin b = some a)
    (seen : b ∈ visited) :
    ∃ vs c', h₀.Reaches root (.ref a) ∧ h₀.cell? a = some (.array vs) ∧ h.cell? b = some c' ∧
      c'.shape = .arr vs.length ∧ ∀ name, Option.Rel
        (Replaced h₀ copies origin (if isNonEmptyObjectArray h₀ (.ref a) then .element else .property))
        ((Cell.array vs).child name) (c'.child name) := by
  rcases s.origins b a known with ⟨-, -, reached, vs, c', at_a, at_b, content⟩
  refine ⟨vs, c', reached, at_a, at_b, ?_⟩
  split at content
  · rename_i objects
    rw [if_pos objects]
    subst content
    refine ⟨by simp [Cell.shape], fun name => ?_⟩
    simp only [Cell.child, child_map]
    cases (indexOf? name).bind (vs[·]?) with
    | none => exact .none
    | some e => exact .some rfl
  · rename_i plain
    rw [if_neg plain]
    exact content

theorem Linking.array_denotes (s : Linking format h₀ root h₁ copies origin visited h) {elems : List Json} {a b : Nat}
    (d : h₀.Denotes (.ref a) (.arr elems)) (known : origin b = some a) (seen : b ∈ visited)
    (each : ∀ name v w j', (Json.arr elems).child name = some j' → h₀.Denotes v j' → Original h₀ root v →
      Replaced h₀ copies origin (elementPlace elems) v w → (∃ key, h.child (.ref b) key = some w) →
      h.Denotes w (copyJson format (elementPlace elems) j')) :
    h.Denotes (.ref b) (copyJson format .property (.arr elems)) := by
  rcases s.new_array known seen with ⟨vs, c', reached, cell, at_b, shape, replaced⟩
  rw [beginsWithObject_denotes d] at replaced
  have length : vs.length = elems.length := by
    rcases d.of_arr with ⟨a', vs', same, cell', length⟩
    cases same
    cases cell.symm.trans cell'
    exact length
  rw [copyJson_array]
  apply Heap.denotes_of_children
  · simp [Heap.shape, at_b, shape, Json.shape, length]
  · intro name
    simp only [Heap.child_ref, at_b, Option.bind_some, Json.child, child_map]
    have related := d.children name
    rw [Heap.child_ref, cell, Option.bind_some] at related
    refine rel_through (replaced name) related fun e w j' at_e at_w at_j replaced' denotes => ?_
    exact each name e w j' at_j denotes (original_child reached cell at_e) replaced' ⟨name, by simp [at_b, at_w]⟩

/-- The result reads as the document that `copyJson` computes. -/
theorem Linking.denotes (copied : Copied format h₀ root h₁ copies)
    (s : Linking format h₀ root h₁ copies origin visited h)
    (closed : ∀ c ∈ visited, ∀ name d, h.child (.ref c) name = some (.ref d) → d ∈ visited) (j : Json) :
    ∀ place v v', h₀.Denotes v j → Original h₀ root v → Replaced h₀ copies origin place v v' →
      (∀ b, v' = .ref b → b ∈ visited) → h.Denotes v' (copyJson format place j) := by
  induction j using Json.below_induct with
  | step j ih =>
  intro place v v' d original replaced seen
  have below : ∀ {b w}, b ∈ visited → (∃ key, h.child (.ref b) key = some w) → ∀ e, w = .ref e → e ∈ visited := by
    intro b w here given e same
    subst same
    rcases given with ⟨key, child⟩
    exact closed b here key e child
  have spreads : ∀ a, v = .ref a → Spread place j → arrayElems? h₀ v = none ∨ place = .element →
      h.Denotes v' (copyJson format place j) := by
    intro a same spread plain
    subst same
    have copy := replaced.copy place plain
    rcases (copied.domain a).mp (original a rfl) with ⟨b, found⟩
    simp only [copyGetter, found] at copy
    subst copy
    rcases d.live with ⟨c, cell, -⟩
    apply s.spread_denotes copied spread found cell d (seen b rfl)
    intro name path v w j' source denotes original' relinked child
    exact ih name path j' source .property v w denotes original' relinked (below (seen b rfl) child)
  cases j with
  | prim p =>
    have same := d.eq_prim
    subst same
    have kept : v' = .prim p := replaced.copy place (.inl rfl)
    rw [kept, copyJson]
    exact Heap.denotes_prim h p
  | obj props =>
    rcases d.of_obj with ⟨a, ps, rfl, found⟩
    exact spreads a rfl trivial (.inl (by simp [arrayElems?, found]))
  | arr elems =>
    rcases d.of_arr with ⟨a, vs, rfl, cell, -⟩
    cases place with
    | element => exact spreads a rfl rfl (.inr rfl)
    | property =>
      simp only [Replaced, Relinked, arrayElems_of_cell cell] at replaced
      rcases replaced with ⟨_, b, ⟨⟩, rfl, known⟩
      apply s.array_denotes d known (seen b rfl)
      intro name e w j' source denotes original' replaced' child
      have element : (Json.arr elems).at? [name] = some j' := by
        rw [Json.at?, source]
        rfl
      exact ih name [] j' element (elementPlace elems) e w denotes original' replaced' (below (seen b rfl) child)

section

open Classical

noncomputable def depthBelow (h : Heap) (bound : Nat) (v : Val) : Nat :=
  Nat.findGreatest (fun n => ∃ path, path.length = n ∧ (h.walk v path).isSome) bound

theorem depthBelow_spec (h : Heap) (bound : Nat) (v : Val) :
    ∃ path, path.length = depthBelow h bound v ∧ (h.walk v path).isSome := by
  have least : ∃ path : List String, path.length = 0 ∧ (h.walk v path).isSome := ⟨[], rfl, rfl⟩
  exact Nat.findGreatest_spec (P := fun n => ∃ path, path.length = n ∧ (h.walk v path).isSome) (Nat.zero_le bound) least

theorem walks_bounded {j : Json} {bound : Nat} (d : h₀.Denotes root j)
    (bounded : ∀ path, (j.at? path).isSome → path.length ≤ bound) (path : List String)
    (present : (h₀.walk root path).isSome) : path.length ≤ bound := by
  apply bounded
  have read := d path
  simp only [Heap.shapeAt, Json.shapeAt] at read
  simpa [present] using (congrArg Option.isSome read).symm

theorem depthBelow_child {j : Json} (d : h₀.Denotes root j) {bound : Nat}
    (bounded : ∀ path, (j.at? path).isSome → path.length ≤ bound) {a b : Nat} {name : String}
    (reached : h₀.Reaches root (.ref a)) (child : h₀.child (.ref a) name = some (.ref b)) :
    depthBelow h₀ bound (.ref b) < depthBelow h₀ bound (.ref a) := by
  rcases depthBelow_spec h₀ bound (.ref b) with ⟨path, length, present⟩
  rcases (h₀.reaches_iff_walk root _).mp reached with ⟨before, walked⟩
  have longer : (h₀.walk (.ref a) (name :: path)).isSome := by
    simpa only [Heap.walk, child, Option.bind_some] using present
  have within := walks_bounded d bounded (before ++ name :: path) (by
    simpa only [Heap.walk_append, walked, Option.bind_some] using longer)
  simp only [List.length_append, List.length_cons] at within
  have at_least : path.length + 1 ≤ depthBelow h₀ bound (.ref a) :=
    Nat.le_findGreatest (by omega) ⟨name :: path, rfl, longer⟩
  omega

noncomputable def depthRank {j : Json} (d : h₀.Denotes root j) (bound : Nat)
    (bounded : ∀ path, (j.at? path).isSome → path.length ≤ bound) : ArrayRank h₀ root where
  rank a := depthBelow h₀ bound (.ref a)
  bound := bound
  le_bound _ := Nat.findGreatest_le bound
  decreases reached _ child _ := depthBelow_child d bounded reached child

end

/-- On a finite graph `copy` ends, leaves the originals as they are and returns the converted copy. -/
theorem copy_denotes (format : JsonFormat) {a : Nat} {j : Json} (d : h₀.Denotes (.ref a) j) :
    ∃ need, ∀ fuel, need < fuel → ∃ h b, copy fuel h₀ (.ref a) format = some (h, .ref b) ∧
      h.Denotes (.ref b) (copyJson format .element j) ∧ h₀.size ≤ h.size ∧ ∀ x < h₀.size, h.cell? x = h₀.cell? x := by
  obtain ⟨bound, bounded⟩ := j.paths_bounded
  let ranks := depthRank d bound bounded
  refine ⟨h₀.size * (bound + 2), fun fuel enough => ?_⟩
  rcases copy_spec format (fun _ => d.reached_bound) ranks enough with
    ⟨h₁, copies, origin, visited, h, b, returned, run⟩
  refine ⟨h, b, returned, ?_, run.copied.size.trans run.linking.size, run.linking.old⟩
  apply run.linking.denotes run.copied run.closed j .element (.ref a) (.ref b) d
  · intro _ none
    cases none
    exact .root
  · simp [Replaced, copyGetter, run.found]
  · intro _ none
    cases none
    exact run.arrived

theorem copy_prim (format : JsonFormat) (h : Heap) (p : Prim) (fuel : Nat) :
    copy (fuel + 1) h (.prim p) format = some (h, .undefined) := rfl

end ModelServer.TypeUtil
