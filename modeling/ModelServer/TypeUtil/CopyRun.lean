import ModelServer.TypeUtil.Visit
import ModelServer.TypeUtil.FindProperty

namespace ModelServer.TypeUtil

open Js

variable {format : JsonFormat} {h₀ h₁ : Heap} {root : Val} {copies : Copies}

def LegitNew (h₀ h₁ h : Heap) (v : Val) : Prop := h₁.size ≤ h.size ∧ ∀ b, v = .ref b → h₀.size ≤ b ∧ b < h.size

def unvisitedCopies (h₀ h₁ : Heap) (w : Walk Unit) : Finset Nat := (Finset.Ico h₀.size h₁.size).filter (· ∉ w.visited)

def nesting {h₀ : Heap} {root : Val} (ranks : ArrayRank h₀ root) (origin : Nat → Option Nat) : Val → Nat
  | .ref b => match origin b with
    | some a => ranks.rank a + 1
    | none => 0
  | _ => 0

theorem nesting_le {h₀ : Heap} {root : Val} (ranks : ArrayRank h₀ root) (origin : Nat → Option Nat) (v : Val) :
    nesting ranks origin v ≤ ranks.bound + 1 := by
  cases v with
  | ref b =>
    simp only [nesting]
    cases origin b with
    | none => exact Nat.zero_le _
    | some a => exact Nat.succ_le_succ (ranks.le_bound a)
  | undefined => exact Nat.zero_le _
  | prim p => exact Nat.zero_le _

theorem unvisitedCopies_le (h₀ h₁ : Heap) {w w' : Walk Unit} (seen : ∀ b ∈ w.visited, b ∈ w'.visited) :
    (unvisitedCopies h₀ h₁ w').card ≤ (unvisitedCopies h₀ h₁ w).card := by
  apply Finset.card_le_card
  intro b member
  simp only [unvisitedCopies, Finset.mem_filter] at member ⊢
  exact ⟨member.1, fun visited => member.2 (seen b visited)⟩

theorem unvisitedCopies_lt {w w' : Walk Unit} {a : Nat} (low : h₀.size ≤ a) (high : a < h₁.size)
    (fresh : a ∉ w.visited) (seen : ∀ b ∈ a :: w.visited, b ∈ w'.visited) :
    (unvisitedCopies h₀ h₁ w').card < (unvisitedCopies h₀ h₁ w).card := by
  apply Finset.card_lt_card
  refine ⟨fun b member => ?_, fun reverse => ?_⟩
  · simp only [unvisitedCopies, Finset.mem_filter] at member ⊢
    exact ⟨member.1, fun visited => member.2 (seen b (List.mem_cons_of_mem a visited))⟩
  · have there := reverse (show a ∈ unvisitedCopies h₀ h₁ w by simp [unvisitedCopies, low, high, fresh])
    simp only [unvisitedCopies, Finset.mem_filter] at there
    exact there.2 (seen a (List.mem_cons_self ..))

namespace Linking

variable {origin : Nat → Option Nat} {visited : List Nat} {h : Heap}

theorem origin_copy (copied : Copied format h₀ root h₁ copies) (s : Linking format h₀ root h₁ copies origin visited h)
    {o b : Nat} (found : copies.lookup o = some b) : origin b = none := by
  by_contra known
  obtain ⟨a, known⟩ := Option.ne_none_iff_exists'.mp known
  exact absurd (copied.copied o b found).2.1 (Nat.not_lt_of_le (s.origins b a known).1)

theorem nesting_copyGetter (copied : Copied format h₀ root h₁ copies)
    (s : Linking format h₀ root h₁ copies origin visited h) (ranks : ArrayRank h₀ root) {v : Val}
    (original : Original h₀ root v) : nesting ranks origin (copyGetter copies v) = 0 := by
  cases copy : copyGetter copies v with
  | ref b =>
    obtain ⟨o, -, found⟩ := copied.lookup_of_copyGetter original copy
    simp [nesting, s.origin_copy copied found]
  | undefined => rfl
  | prim p => rfl

theorem nesting_child (copied : Copied format h₀ root h₁ copies)
    (s : Linking format h₀ root h₁ copies origin visited h) (ranks : ArrayRank h₀ root) {a b : Nat} {name : String}
    {v : Val} (known : origin b = some a) (seen : b ∈ visited) (child : h.child (.ref b) name = some v) :
    nesting ranks origin v < nesting ranks origin (.ref b) := by
  obtain ⟨-, -, reached, elems, c', at_a, at_b, content⟩ := s.origins b a known
  have positive : nesting ranks origin (.ref b) = ranks.rank a + 1 := by simp [nesting, known]
  simp only [Heap.child_ref, at_b, Option.bind_some] at child
  split at content
  · subst content
    cases v with
    | ref d =>
      obtain ⟨o, found⟩ := copied.mapped_copies reached at_a name d child
      simp [nesting, s.origin_copy copied found, known]
    | undefined => simp [nesting, known]
    | prim p => simp [nesting, known]
  · have related := content.2 name
    rw [child] at related
    cases source : (Cell.array elems).child name with
    | none => rw [source] at related; cases related
    | some e =>
      rw [source] at related
      cases related with
      | some relinked =>
        have original := original_child reached at_a source
        unfold Relinked at relinked
        split at relinked
        · rename_i elems' array
          obtain ⟨x, y, rfl, rfl, known'⟩ := relinked
          obtain ⟨x', same, at_x⟩ := arrayElems_eq array
          cases same
          have less := ranks.decreases reached at_a (show h₀.child (.ref a) name = some (.ref x) by
            simp [at_a, source]) at_x
          simpa [nesting, known', known] using less
        · rw [relinked, s.nesting_copyGetter copied ranks original, positive]
          exact Nat.succ_pos _

theorem relinked_new (copied : Copied format h₀ root h₁ copies) {e : Val} {b : Nat} (original : Original h₀ root e)
    (relinked : Relinked copies h₀ origin e (.ref b)) : (∃ o, copies.lookup o = some b) ∨ ∃ o, origin b = some o := by
  unfold Relinked at relinked
  split at relinked
  · obtain ⟨x, y, -, same, known⟩ := relinked
    cases same
    exact .inr ⟨x, known⟩
  · obtain ⟨o, -, found⟩ := copied.lookup_of_copyGetter original relinked.symm
    exact .inl ⟨o, found⟩

theorem visited_child (copied : Copied format h₀ root h₁ copies)
    (s : Linking format h₀ root h₁ copies origin visited h) {a b : Nat} {name : String} (seen : a ∈ visited)
    (child : h.child (.ref a) name = some (.ref b)) : (∃ o, copies.lookup o = some b) ∨ ∃ o, origin b = some o := by
  obtain ⟨low, high⟩ := s.news a seen
  have linked : ∀ {c c' : Cell}, (∀ name v, c.child name = some v → Original h₀ root v) →
      h.cell? a = some c' → Linked copies h₀ origin c c' →
      (∃ o, copies.lookup o = some b) ∨ ∃ o, origin b = some o := by
    intro c c' original at_a linked
    have related := linked.2 name
    simp only [Heap.child_ref, at_a, Option.bind_some] at child
    rw [child] at related
    cases source : c.child name with
    | none => rw [source] at related; cases related
    | some e =>
      rw [source] at related
      cases related with
      | some relinked => exact relinked_new copied (original name e source) relinked
  by_cases old : a < h₁.size
  · obtain ⟨o, found⟩ := copied.covered a low old
    obtain ⟨c, c', at_o, at_a, content⟩ := s.copyCells o a found
    rw [if_pos seen] at content
    refine linked (fun name v source => ?_) at_a content
    exact original_copyCell ((copied.domain o).mpr ⟨a, found⟩) at_o source
  · obtain ⟨o, known⟩ := s.fresh a (Nat.le_of_not_lt old) high
    obtain ⟨-, -, reached, elems, c', at_o, at_a, content⟩ := s.origins a o known
    split at content
    · subst content
      exact .inl (copied.mapped_copies reached at_o name b (by
        simpa only [Heap.child_ref, at_a, Option.bind_some] using child))
    · exact linked (fun name v source => original_child reached at_o source) at_a (by simpa [seen] using content)

theorem new_bounds (copied : Copied format h₀ root h₁ copies) (s : Linking format h₀ root h₁ copies origin visited h)
    {b : Nat} (new : (∃ o, copies.lookup o = some b) ∨ ∃ o, origin b = some o) : h₀.size ≤ b ∧ b < h.size := by
  rcases new with ⟨o, found⟩ | ⟨o, known⟩
  · exact ⟨(copied.copied o b found).1, (copied.copied o b found).2.1.trans_le s.size⟩
  · exact ⟨copied.size.trans (s.origins b o known).1, (s.origins b o known).2.1⟩

theorem legit_child (copied : Copied format h₀ root h₁ copies) (s : Linking format h₀ root h₁ copies origin visited h)
    {a : Nat} {name : String} {v : Val} (seen : a ∈ visited) (child : h.child (.ref a) name = some v) :
    LegitNew h₀ h₁ h v := by
  refine ⟨s.size, ?_⟩
  intro b same
  subst same
  exact s.new_bounds copied (s.visited_child copied seen child)

theorem origin_of_array (copied : Copied format h₀ root h₁ copies)
    (s : Linking format h₀ root h₁ copies origin visited h) {v : Val} (legit : LegitNew h₀ h₁ h v)
    (array : isNonEmptyObjectArray h v = true) : ∃ b a, v = .ref b ∧ origin b = some a := by
  obtain ⟨elems, -, isArray, -⟩ := isNonEmptyObjectArray_iff.mp array
  obtain ⟨b, rfl, at_b⟩ := arrayElems_eq isArray
  obtain ⟨low, high⟩ := legit.2 b rfl
  by_cases old : b < h₁.size
  · obtain ⟨o, found⟩ := copied.covered b low old
    rw [s.copy_not_array found] at isArray
    cases isArray
  · obtain ⟨a, known⟩ := s.fresh b (Nat.le_of_not_lt old) high
    exact ⟨b, a, rfl, known⟩

theorem array_lasting (copied : Copied format h₀ root h₁ copies) {origin' : Nat → Option Nat} {visited' : List Nat}
    {h' : Heap} (s : Linking format h₀ root h₁ copies origin visited h)
    (le : ∀ b a, origin b = some a → origin' b = some a)
    (s' : Linking format h₀ root h₁ copies origin' visited' h') {v : Val} (legit : LegitNew h₀ h₁ h v)
    (array : isNonEmptyObjectArray h v = true) : isNonEmptyObjectArray h' v = true := by
  obtain ⟨b, a, rfl, known⟩ := s.origin_of_array copied legit array
  rw [s'.objectArray_origin copied (le b a known), ← s.objectArray_origin copied known]
  exact array

theorem element_copy (copied : Copied format h₀ root h₁ copies)
    (s : Linking format h₀ root h₁ copies origin visited h) {v : Val} {i d : Nat} (legit : LegitNew h₀ h₁ h v)
    (array : isNonEmptyObjectArray h v = true) (element : elementAt h v i = .ref d) :
    ∃ o, copies.lookup o = some d := by
  have child := child_of_elementAt element
  obtain ⟨b, a, rfl, known⟩ := s.origin_of_array copied legit array
  have objects := (s.objectArray_origin copied known).symm.trans array
  obtain ⟨-, -, reached, elems, c', at_a, at_b, content⟩ := s.origins b a known
  rw [if_pos objects] at content
  subst content
  exact copied.mapped_copies reached at_a (indexName i) d (by
    simpa only [Heap.child_ref, at_b, Option.bind_some] using child)

theorem nesting_element (copied : Copied format h₀ root h₁ copies)
    (s : Linking format h₀ root h₁ copies origin visited h) (ranks : ArrayRank h₀ root) {v : Val} (i : Nat)
    (legit : LegitNew h₀ h₁ h v) (array : isNonEmptyObjectArray h v = true) :
    nesting ranks origin (elementAt h v i) = 0 := by
  cases element : elementAt h v i with
  | ref d =>
    obtain ⟨o, found⟩ := s.element_copy copied legit array element
    simp [nesting, s.origin_copy copied found]
  | undefined => rfl
  | prim p => rfl

end Linking

variable (copied : Copied format h₀ root h₁ copies) (ranks : ArrayRank h₀ root)

/-- Every round either visits one more copy or goes down into a nested array. -/
def relinkNeed (ranks : ArrayRank h₀ root) (h₁ : Heap) (origin : Nat → Option Nat) (w : Walk Unit) (v : Val) : Nat :=
  (unvisitedCopies h₀ h₁ w).card * (ranks.bound + 2) + nesting ranks origin v

theorem relinkNeed_lt {origin origin' : Nat → Option Nat} {w w' : Walk Unit} {a : Nat} {v : Val}
    (s : Linking format h₀ root h₁ copies origin w.visited w.heap)
    (legit : LegitNew h₀ h₁ w.heap (.ref a)) (unseen : a ∉ w.visited) (seen : ∀ b ∈ a :: w.visited, b ∈ w'.visited)
    (inner : ∀ o, origin a = some o → nesting ranks origin' v < nesting ranks origin (.ref a)) :
    relinkNeed ranks h₁ origin' w' v < relinkNeed ranks h₁ origin w (.ref a) := by
  obtain ⟨low, high⟩ := legit.2 a rfl
  simp only [relinkNeed]
  by_cases old : a < h₁.size
  · have fewer := unvisitedCopies_lt low old unseen seen
    have bounded := nesting_le ranks origin' v
    have product := Nat.mul_le_mul_right (ranks.bound + 2) (Nat.succ_le_of_lt fewer)
    rw [Nat.succ_mul] at product
    omega
  · obtain ⟨o, known⟩ := s.fresh a (Nat.le_of_not_lt old) high
    have less := inner o known
    have product := Nat.mul_le_mul_right (ranks.bound + 2)
      (unvisitedCopies_le h₀ h₁ fun b member => seen b (List.mem_cons_of_mem a member))
    omega

def referencerDiscipline (copied : Copied format h₀ root h₁ copies) (ranks : ArrayRank h₀ root) :
    Discipline (Nat → Option Nat) (referencer copies) where
  le origin origin' := ∀ b a, origin b = some a → origin' b = some a
  le_refl _ _ _ known := known
  le_trans first second b a known := second b a (first b a known)
  Inv origin w := Linking format h₀ root h₁ copies origin w.visited w.heap
  Legit := LegitNew h₀ h₁
  goal := False
  need := relinkNeed ranks h₁
  legit_mono size legit := ⟨legit.1.trans size, fun b same => ⟨(legit.2 b same).1, (legit.2 b same).2.trans_le size⟩⟩
  legit_child s visited child := s.legit_child copied visited child
  legit_element s legit array := by
    refine ⟨s.size, fun d element => ?_⟩
    exact s.new_bounds copied (.inl (s.element_copy copied legit array element))
  array_lasting s le s' legit array := s.array_lasting copied le s' legit array
  visited_live s visited := (s.news _ visited).2
  visit {origin w a stop heap state} s legit unseen called := by
    obtain ⟨low, high⟩ := legit.2 a rfl
    obtain ⟨c, at_a, target⟩ := s.target copied low high unseen
    have props : ownPropsOf w.heap a = c.ownNames := by simp [ownPropsOf, at_a]
    rw [props] at called ⊢
    cases called
    obtain ⟨fresh, r⟩ := referencer_spec copies at_a (target.apart copied s low)
    simp only [Bool.false_eq_true, if_false]
    refine ⟨⟨extend w.heap origin fresh, s.origin_le fresh, s.visit copied low at_a unseen target r⟩, r.size,
      r.others, ?_⟩
    intro name v child
    obtain ⟨c', at_a', -, -, rewritten⟩ := r.rewritten
    simp only [Heap.child_ref, at_a', Option.bind_some] at child
    have related := rewritten name trivial
    rw [child] at related
    cases source : c.child name with
    | none => rw [source] at related; cases related
    | some e => exact Cell.mem_ownNames_of_child source
  need_child {origin origin' w w' a name v} s legit unseen le s' seen child :=
    relinkNeed_lt ranks s legit unseen seen fun o known => by
      have deeper := s'.nesting_child copied ranks (le a o known) (seen a (List.mem_cons_self ..)) child
      simpa [nesting, known, le a o known] using deeper
  need_element {origin origin' w w' a name v i} s legit unseen le s' seen child array :=
    relinkNeed_lt ranks s legit unseen seen fun o known => by
      have flat := s'.nesting_element copied ranks i
        (s'.legit_child copied (seen a (List.mem_cons_self ..)) child) array
      rw [flat]
      simp [nesting, known]

theorem copies_le (copied : Copied format h₀ root h₁ copies) :
    (unvisitedCopies h₀ h₁ (⟨h₁, [], ()⟩ : Walk Unit)).card ≤ h₀.size := by
  classical
  have original : ∀ b, ∃ a, b ∈ Finset.Ico h₀.size h₁.size → copies.lookup a = some b := by
    intro b
    by_cases member : b ∈ Finset.Ico h₀.size h₁.size
    · obtain ⟨low, high⟩ := Finset.mem_Ico.mp member
      obtain ⟨a, found⟩ := copied.covered b low high
      exact ⟨a, fun _ => found⟩
    · exact ⟨0, fun impossible => absurd impossible member⟩
  choose f spec using original
  have injective : Set.InjOn f (Finset.Ico h₀.size h₁.size) := by
    intro b first b' second same
    have found := spec b first
    rw [same, spec b' second] at found
    exact (Option.some.inj found).symm
  have images : ∀ b ∈ Finset.Ico h₀.size h₁.size, f b ∈ Finset.range h₀.size := by
    intro b member
    exact Finset.mem_range.mpr (copied.live _ ((copied.domain _).mpr ⟨b, spec b member⟩))
  have all : unvisitedCopies h₀ h₁ (⟨h₁, [], ()⟩ : Walk Unit) = Finset.Ico h₀.size h₁.size := by
    simp [unvisitedCopies]
  rw [all]
  simpa using Finset.card_le_card_of_injOn f images injective

/-- The second step ends, with every cell below the result visited. -/
theorem stepTwo_spec (copied : Copied format h₀ root h₁ copies) (ranks : ArrayRank h₀ root) {a b fuel : Nat}
    (found : copies.lookup a = some b) (enough : h₀.size * (ranks.bound + 2) < fuel) :
    ∃ w origin, traverse (referencer copies) fuel (.ref b) ⟨h₁, [], ()⟩ = some (false, w) ∧
      Linking format h₀ root h₁ copies origin w.visited w.heap ∧ b ∈ w.visited ∧
      ∀ c ∈ w.visited, ∀ name d, w.heap.child (.ref c) name = some (.ref d) → d ∈ w.visited := by
  obtain ⟨low, high, -⟩ := copied.copied a b found
  have need : relinkNeed ranks h₁ (fun _ => none) ⟨h₁, [], ()⟩ (.ref b) < fuel := by
    have product := Nat.mul_le_mul_right (ranks.bound + 2) (copies_le copied)
    simp only [relinkNeed, nesting]
    omega
  have legit : LegitNew h₀ h₁ h₁ (.ref b) := by
    refine ⟨Nat.le_refl _, ?_⟩
    intro _ none
    cases none
    exact ⟨low, high⟩
  obtain ⟨stopped, w, result, outcome⟩ := (referencerDiscipline copied ranks).traverse_returns fuel (fun _ => none)
    ⟨h₁, [], ()⟩ (.ref b) (Linking.start copied) legit need
  cases stopped with
  | true => exact False.elim outcome
  | false =>
    obtain ⟨⟨⟨origin, -, linking⟩, progress⟩, arrived⟩ := outcome
    refine ⟨w, origin, result, linking, arrived b rfl, fun c seen => ?_⟩
    exact progress.closed c seen (by simp)

/-- Both steps of `copy`, with all that they leave behind. -/
structure CopyRun (format : JsonFormat) (h₀ : Heap) (a : Nat) (h₁ : Heap) (copies : Copies)
    (origin : Nat → Option Nat) (visited : List Nat) (h : Heap) (b : Nat) : Prop where
  copied : Copied format h₀ (.ref a) h₁ copies
  linking : Linking format h₀ (.ref a) h₁ copies origin visited h
  found : copies.lookup a = some b
  arrived : b ∈ visited
  closed : ∀ c ∈ visited, ∀ name d, h.child (.ref c) name = some (.ref d) → d ∈ visited

theorem copy_spec (format : JsonFormat) {a : Nat} (live : ∀ b, h₀.Reaches (.ref a) (.ref b) → b < h₀.size)
    (ranks : ArrayRank h₀ (.ref a)) {fuel : Nat} (enough : h₀.size * (ranks.bound + 2) < fuel) :
    ∃ h₁ copies origin visited h b, copy fuel h₀ (.ref a) format = some (h, .ref b) ∧
      CopyRun format h₀ a h₁ copies origin visited h b := by
  have first : h₀.size < fuel := (Nat.le_mul_of_pos_right _ (Nat.succ_pos _)).trans_lt enough
  rcases stepOne_spec format live first with ⟨w₁, firstStep, copied⟩
  rcases (copied.domain a).mp .root with ⟨b, found⟩
  rcases stepTwo_spec copied ranks found enough with ⟨w₂, origin, secondStep, linking, arrived, closed⟩
  refine ⟨w₁.heap, w₁.state, origin, w₂.visited, w₂.heap, b, ?_, copied, linking, found, arrived, closed⟩
  simp [copy, firstStep, found, secondStep]

theorem CopyRun.visited_of_reaches {a b : Nat} {origin : Nat → Option Nat} {visited : List Nat} {h : Heap}
    (run : CopyRun format h₀ a h₁ copies origin visited h b) {v : Val} (reached : h.Reaches (.ref b) v) :
    ∀ c, v = .ref c → c ∈ visited := by
  induction reached with
  | root =>
    intro c same
    cases same
    exact run.arrived
  | @child v w name previous edge ih =>
    intro c same
    subst same
    cases v with
    | ref d => exact run.closed d (ih d rfl) name c edge
    | undefined => cases edge
    | prim p => cases edge

end ModelServer.TypeUtil
