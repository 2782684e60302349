import ModelServer.TypeUtil.StepTwo

namespace ModelServer.TypeUtil

open Js Relations

/-- The cells at which the second traversal arrives: copies, and the two kinds of new arrays. -/
inductive Target (format : JsonFormat) (h₀ : Heap) (root : Val) (copies : Copies) (origin : Nat → Option Nat)
    (a : Nat) : Cell → Prop
  | copy {o : Nat} {c : Cell} (found : copies.lookup o = some a) (reached : h₀.Reaches root (.ref o))
      (cell : h₀.cell? o = some c) : Target format h₀ root copies origin a (copyCell format h₀ c)
  | spread {o : Nat} {elems : List Val} (known : origin a = some o) (reached : h₀.Reaches root (.ref o))
      (cell : h₀.cell? o = some (.array elems)) (plain : isNonEmptyObjectArray h₀ (.ref o) = false) :
      Target format h₀ root copies origin a (.array elems)
  | mapped {o : Nat} {elems : List Val} (known : origin a = some o) (reached : h₀.Reaches root (.ref o))
      (cell : h₀.cell? o = some (.array elems)) (objects : isNonEmptyObjectArray h₀ (.ref o) = true) :
      Target format h₀ root copies origin a (.array (elems.map (copyGetter copies)))

variable {format : JsonFormat} {h₀ h₁ h : Heap} {root : Val} {copies : Copies} {origin : Nat → Option Nat}
  {visited : List Nat} {a : Nat} {c : Cell}

theorem Linking.target (copied : Copied format h₀ root h₁ copies)
    (s : Linking format h₀ root h₁ copies origin visited h) (low : h₀.size ≤ a) (high : a < h.size)
    (unseen : a ∉ visited) : ∃ c, h.cell? a = some c ∧ Target format h₀ root copies origin a c := by
  by_cases old : a < h₁.size
  · obtain ⟨o, found⟩ := copied.covered a low old
    obtain ⟨c, c', cell, at_a, content⟩ := s.copyCells o a found
    rw [if_neg unseen] at content
    subst content
    exact ⟨_, at_a, .copy found ((copied.domain o).mpr ⟨a, found⟩) cell⟩
  · obtain ⟨o, known⟩ := s.fresh a (Nat.le_of_not_lt old) high
    obtain ⟨-, -, reached, elems, c', cell, at_a, content⟩ := s.origins a o known
    refine ⟨c', at_a, ?_⟩
    cases first : isNonEmptyObjectArray h₀ (.ref o) with
    | true =>
      simp only [first, if_true] at content
      subst content
      exact .mapped known reached cell first
    | false =>
      simp only [first, Bool.false_eq_true, if_false, if_neg unseen] at content
      subst content
      exact .spread known reached cell first

theorem Copied.mapped_copies (copied : Copied format h₀ root h₁ copies) {o : Nat} {elems : List Val}
    (reached : h₀.Reaches root (.ref o)) (cell : h₀.cell? o = some (.array elems)) (name : String) (b : Nat)
    (child : (Cell.array (elems.map (copyGetter copies))).child name = some (.ref b)) :
    ∃ o, copies.lookup o = some b := by
  simp only [Cell.child] at child
  cases at_name : indexOf? name with
  | none => simp [at_name] at child
  | some i =>
    simp only [at_name, Option.bind_some, List.getElem?_map, Option.map_eq_some_iff] at child
    obtain ⟨e, at_i, copy⟩ := child
    have original := original_child reached cell (show (Cell.array elems).child name = some e by
      simp [Cell.child, at_name, at_i])
    obtain ⟨x, -, found⟩ := copied.lookup_of_copyGetter original copy
    exact ⟨x, found⟩

/-- The values of a target are values of the original graph, or copies that are left as they are. -/
theorem Target.values (copied : Copied format h₀ root h₁ copies)
    (s : Linking format h₀ root h₁ copies origin visited h) (t : Target format h₀ root copies origin a c) :
    (∀ name v, c.child name = some v → Original h₀ root v) ∨
    (h₁.size ≤ a ∧ ∀ name b, c.child name = some (.ref b) → ∃ o, copies.lookup o = some b) := by
  cases t with
  | copy found reached cell =>
    left
    intro name v child
    exact original_copyCell reached cell child
  | spread known reached cell plain =>
    left
    intro name v child
    exact original_child reached cell child
  | mapped known reached cell objects => exact .inr ⟨(s.origins a _ known).1, copied.mapped_copies reached cell⟩

theorem Target.apart (copied : Copied format h₀ root h₁ copies)
    (s : Linking format h₀ root h₁ copies origin visited h) (low : h₀.size ≤ a)
    (t : Target format h₀ root copies origin a c) : Apart h a c := by
  have below : ∀ b, h₀.Reaches root (.ref b) → b < h.size ∧ b ≠ a := by
    intro b reached
    have bound := copied.live b reached
    exact ⟨bound.trans_le (copied.size.trans s.size), Nat.ne_of_lt (bound.trans_le low)⟩
  intro name b child
  rcases t.values copied s with original | ⟨new, copy⟩
  · have reached := original name _ child b rfl
    refine ⟨below b reached, fun elems _ key d edge => below d ?_⟩
    exact .child reached (show h₀.child (.ref b) key = some (.ref d) by
      simpa [s.old b (copied.live b reached)] using edge)
  · obtain ⟨o, found⟩ := copy name b child
    have bound := (copied.copied o b found).2.1
    refine ⟨⟨bound.trans_le s.size, Nat.ne_of_lt (bound.trans_le new)⟩, fun elems array => ?_⟩
    have plain := s.copy_not_array found
    rw [arrayElems_of_cell array] at plain
    cases plain

def extend (h : Heap) (origin fresh : Nat → Option Nat) (b : Nat) : Option Nat := if b < h.size then origin b else fresh b

theorem Linking.origin_le (s : Linking format h₀ root h₁ copies origin visited h) (fresh : Nat → Option Nat)
    (b x : Nat) (known : origin b = some x) : extend h origin fresh b = some x := by
  simp [extend, (s.origins b x known).2.1, known]

theorem Relinking.fresh_le {fresh : Nat → Option Nat} {done : String → Prop} {h' : Heap}
    (r : Relinking copies h a c done fresh h') (b x : Nat) (known : fresh b = some x) :
    extend h origin fresh b = some x := by
  simp [extend, Nat.not_lt_of_le (r.domain b x known).1, known]

variable {fresh : Nat → Option Nat} {h' : Heap}

theorem Relinking.linked (copied : Copied format h₀ root h₁ copies)
    (s : Linking format h₀ root h₁ copies origin visited h) (r : Relinking copies h a c (fun _ => True) fresh h')
    (original : ∀ name v, c.child name = some v → Original h₀ root v) :
    ∃ c', h'.cell? a = some c' ∧ Linked copies h₀ (extend h origin fresh) c c' := by
  obtain ⟨c', at_a, shape, -, rewritten⟩ := r.rewritten
  refine ⟨c', at_a, shape, fun name => rel_mono (rewritten name trivial) fun v v' child _ relinked => ?_⟩
  have same := s.arrayElems_original copied (original name v child)
  unfold Relinked at relinked ⊢
  rw [same] at relinked
  split at relinked
  · obtain ⟨x, b, rfl, rfl, known⟩ := relinked
    exact ⟨x, b, rfl, rfl, r.fresh_le b x known⟩
  · exact relinked

theorem Relinking.mapped (copied : Copied format h₀ root h₁ copies)
    (s : Linking format h₀ root h₁ copies origin visited h) (r : Relinking copies h a c (fun _ => True) fresh h')
    (copy : ∀ name b, c.child name = some (.ref b) → ∃ o, copies.lookup o = some b) {elems : List Val}
    (array : c = .array elems) : h'.cell? a = some c := by
  obtain ⟨c', at_a, shape, -, rewritten⟩ := r.rewritten
  rw [at_a, array_ext array shape]
  intro name
  have related := rewritten name trivial
  revert related
  cases child : c.child name with
  | none => cases c'.child name <;> intro related <;> first | rfl | cases related
  | some v =>
    cases c'.child name <;> intro related <;> cases related
    rename_i v' relinked
    congr 1
    cases v with
    | ref b =>
      obtain ⟨o, found⟩ := copy name b child
      simp only [Relinked, s.copy_not_array found] at relinked
      rw [relinked, copied.copyGetter_new (copied.copied o b found).1]
    | undefined => simpa [Relinked, arrayElems?, copyGetter] using relinked
    | prim p => simpa [Relinked, arrayElems?, copyGetter] using relinked

theorem Relinking.fresh_arrays (copied : Copied format h₀ root h₁ copies)
    (s : Linking format h₀ root h₁ copies origin visited h) (r : Relinking copies h a c (fun _ => True) fresh h')
    (t : Target format h₀ root copies origin a c) {b x : Nat} (known : fresh b = some x) :
    h₀.Reaches root (.ref x) ∧ ∃ elems, h₀.cell? x = some (.array elems) ∧
      h'.cell? b = some (relinkedArray copies h₀ x elems) := by
  obtain ⟨low, high⟩ := r.domain b x known
  obtain ⟨x', elems, known', ⟨name, child⟩, array, at_b⟩ := r.arrays b low high
  cases known.symm.trans known'
  rcases t.values copied s with original | ⟨-, copy⟩
  · have value := original name _ child
    have reached := value x rfl
    refine ⟨reached, elems, by rw [← s.old x (copied.live x reached), array], ?_⟩
    rw [at_b, relinkedArray, relinkedArray, s.objectArray_original copied value]
  · obtain ⟨o, found⟩ := copy name x child
    have plain := s.copy_not_array found
    rw [arrayElems_of_cell array] at plain
    cases plain

theorem linked_unless_visited {origin' : Nat → Option Nat} {b : Nat} {d d' : Cell} (other : b ≠ a)
    (le : ∀ b x, origin b = some x → origin' b = some x)
    (content : if b ∈ visited then Linked copies h₀ origin d d' else d' = d) :
    if b ∈ a :: visited then Linked copies h₀ origin' d d' else d' = d := by
  have status : b ∈ a :: visited ↔ b ∈ visited := by simp [other]
  by_cases seen : b ∈ visited
  · rw [if_pos seen] at content
    rw [if_pos (status.mpr seen)]
    exact content.mono le
  · rw [if_neg seen] at content
    rw [if_neg fun member => seen (status.mp member)]
    exact content

theorem Linking.visit_copy (copied : Copied format h₀ root h₁ copies)
    (s : Linking format h₀ root h₁ copies origin visited h) (at_a : h.cell? a = some c) (unseen : a ∉ visited)
    (r : Relinking copies h a c (fun _ => True) fresh h') {o b : Nat} (found : copies.lookup o = some b) :
    ∃ d d', h₀.cell? o = some d ∧ h'.cell? b = some d' ∧
      if b ∈ a :: visited then Linked copies h₀ (extend h origin fresh) (copyCell format h₀ d) d'
      else d' = copyCell format h₀ d := by
  rcases s.copyCells o b found with ⟨d, d', at_o, at_b, content⟩
  by_cases here : b = a
  · subst here
    rw [if_neg unseen] at content
    cases at_a.symm.trans at_b
    have original : ∀ name v, c.child name = some v → Original h₀ root v := by
      intro name v child
      rw [content] at child
      exact original_copyCell ((copied.domain o).mpr ⟨_, found⟩) at_o child
    rcases r.linked copied s original with ⟨c', at_b', linked⟩
    refine ⟨d, c', at_o, at_b', ?_⟩
    rw [if_pos (List.mem_cons_self ..), ← content]
    exact linked
  · refine ⟨d, d', at_o, ?_, linked_unless_visited here (s.origin_le fresh) content⟩
    rw [r.others b (Heap.cell_bound at_b) here, at_b]

theorem Linking.visit_array (copied : Copied format h₀ root h₁ copies)
    (s : Linking format h₀ root h₁ copies origin visited h) (at_a : h.cell? a = some c)
    (t : Target format h₀ root copies origin a c) (r : Relinking copies h a c (fun _ => True) fresh h') {b x : Nat}
    (known : origin b = some x) :
    ∃ elems d, h₀.cell? x = some (.array elems) ∧ h'.cell? b = some d ∧
      if isNonEmptyObjectArray h₀ (.ref x) then d = .array (elems.map (copyGetter copies))
      else if b ∈ a :: visited then Linked copies h₀ (extend h origin fresh) (.array elems) d else d = .array elems := by
  rcases s.origins b x known with ⟨new, old, reached, elems, d, at_x, at_b, content⟩
  by_cases here : b = a
  · subst here
    cases at_a.symm.trans at_b
    cases t with
    | copy found => exact absurd (copied.copied _ _ found).2.1 (Nat.not_lt_of_le new)
    | spread known' reached' cell plain =>
      cases known.symm.trans known'
      cases at_x.symm.trans cell
      rcases r.linked copied s (fun name v child => original_child reached cell child) with ⟨c', at_b', linked⟩
      refine ⟨_, c', at_x, at_b', ?_⟩
      rw [plain, if_neg Bool.false_ne_true, if_pos (List.mem_cons_self ..)]
      exact linked
    | mapped known' reached' cell objects =>
      cases known.symm.trans known'
      cases at_x.symm.trans cell
      exact ⟨_, _, at_x, r.mapped copied s (copied.mapped_copies reached cell) rfl, by simp [objects]⟩
  · refine ⟨elems, d, at_x, by rw [r.others b old here, at_b], ?_⟩
    by_cases objects : isNonEmptyObjectArray h₀ (.ref x)
    · rw [if_pos objects] at content ⊢
      exact content
    · rw [if_neg objects] at content ⊢
      exact linked_unless_visited here (s.origin_le fresh) content

/-- The invariant holds again after a visit. -/
theorem Linking.visit (copied : Copied format h₀ root h₁ copies)
    (s : Linking format h₀ root h₁ copies origin visited h) (low : h₀.size ≤ a) (at_a : h.cell? a = some c)
    (unseen : a ∉ visited) (t : Target format h₀ root copies origin a c)
    (r : Relinking copies h a c (fun _ => True) fresh h') :
    Linking format h₀ root h₁ copies (extend h origin fresh) (a :: visited) h' := by
  have bound := Heap.cell_bound at_a
  refine ⟨s.size.trans r.size, ?old, ?news, fun o b found => s.visit_copy copied at_a unseen r found, ?fresh, ?origins⟩
  case old =>
    intro b old
    rw [r.others b (old.trans_le (copied.size.trans s.size)) (Nat.ne_of_lt (old.trans_le low)), s.old b old]
  case news =>
    intro b member
    rcases List.mem_cons.mp member with rfl | member
    · exact ⟨low, bound.trans_le r.size⟩
    · exact ⟨(s.news b member).1, (s.news b member).2.trans_le r.size⟩
  case fresh =>
    intro b new high
    by_cases old : b < h.size
    · rcases s.fresh b new old with ⟨x, known⟩
      exact ⟨x, s.origin_le fresh b x known⟩
    · rcases r.arrays b (Nat.le_of_not_lt old) high with ⟨x, -, known, -⟩
      exact ⟨x, r.fresh_le b x known⟩
  case origins =>
    intro b x known
    by_cases old : b < h.size
    · have before : origin b = some x := by simpa [extend, old] using known
      rcases s.origins b x before with ⟨new, -, reached, -⟩
      exact ⟨new, old.trans_le r.size, reached, s.visit_array copied at_a t r before⟩
    · have known' : fresh b = some x := by simpa [extend, old] using known
      rcases r.fresh_arrays copied s t known' with ⟨reached, elems, at_x, at_b⟩
      have unvisited : b ∉ a :: visited := by
        intro member
        rcases List.mem_cons.mp member with rfl | member
        · exact old bound
        · exact old (s.news b member).2
      refine ⟨s.size.trans (Nat.le_of_not_lt old), (r.domain b x known').2, reached, elems, _, at_x, at_b, ?_⟩
      rw [relinkedArray, if_neg unvisited]
      split
      · rfl
      · rfl

end ModelServer.TypeUtil
