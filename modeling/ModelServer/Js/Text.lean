import ModelServer.Js.Json
import Mathlib.Data.Rat.Lemmas

namespace Js

/-- `JSON.parse` and `JSON.stringify`, of which only this is known: a text that was written is read
    back, up to the order of properties. -/
structure JsonText where
  parse : String → Option Json
  stringify : Json → String
  parse_stringify : ∀ j, ∃ j', parse (stringify j) = some j' ∧ j'.Same j

def quote : Char := Char.ofNat 34

def backslash : Char := Char.ofNat 92

def escape : List Char → List Char
  | [] => []
  | c :: cs => if c = quote ∨ c = backslash then backslash :: c :: escape cs else c :: escape cs

def writeString (s : String) : List Char := quote :: (escape s.toList ++ [quote])

def readString : List Char → Option (List Char × List Char)
  | [] => none
  | c :: cs =>
    if c = quote then some ([], cs)
    else if c = backslash then
      match cs with
      | [] => none
      | d :: ds => (readString ds).map fun read => (d :: read.1, read.2)
    else (readString cs).map fun read => (c :: read.1, read.2)

theorem readString_quote (rest : List Char) : readString (quote :: rest) = some ([], rest) := by
  cases rest <;> simp [readString]

theorem readString_plain {c : Char} (noQuote : c ≠ quote) (noBackslash : c ≠ backslash) (cs : List Char) :
    readString (c :: cs) = (readString cs).map fun read => (c :: read.1, read.2) := by
  cases cs <;> simp [readString, noQuote, noBackslash]

theorem readString_escape (cs rest : List Char) : readString (escape cs ++ quote :: rest) = some (cs, rest) := by
  induction cs with
  | nil => exact readString_quote rest
  | cons c cs ih =>
    have different : backslash ≠ quote := by decide
    by_cases special : c = quote ∨ c = backslash
    · simp [escape, special, readString, different, ih]
    · obtain ⟨noQuote, noBackslash⟩ := not_or.mp special
      simp [escape, readString_plain noQuote noBackslash, special, ih]

def writeNat (n : Nat) : List Char := (toString n).toList

def readNat (cs : List Char) : Nat × List Char := (Nat.ofDigitChars 10 (cs.takeWhile Char.isDigit) 0, cs.dropWhile Char.isDigit)

def Stops (rest : List Char) : Prop := ∀ c cs, rest = c :: cs → c.isDigit = false ∧ c ≠ '/'

theorem isDigit_writeNat (n : Nat) : ∀ c ∈ writeNat n, c.isDigit := by
  intro c member
  simp only [writeNat, toString, Nat.repr_eq_ofList_toDigits, String.toList_ofList] at member
  exact Nat.isDigit_of_mem_toDigits (by decide) (by decide) member

theorem readNat_writeNat (n : Nat) {rest : List Char} (stops : ∀ c cs, rest = c :: cs → c.isDigit = false) :
    readNat (writeNat n ++ rest) = (n, rest) := by
  have digits := isDigit_writeNat n
  have back : Nat.ofDigitChars 10 (writeNat n) 0 = n := by simp [writeNat, toString, Nat.repr]
  have taken : (writeNat n ++ rest).takeWhile Char.isDigit = writeNat n := by
    rw [List.takeWhile_append_of_pos digits]
    cases rest with
    | nil => simp
    | cons c cs => simp [stops c cs rfl]
  have dropped : (writeNat n ++ rest).dropWhile Char.isDigit = rest := by
    rw [List.dropWhile_append_of_pos digits]
    cases rest with
    | nil => rfl
    | cons c cs => simp [stops c cs rfl]
  rw [readNat, taken, dropped, back]

/-- A number that is not an integer is written as a fraction. -/
def writeNumber (q : Rat) : List Char :=
  (if q.num < 0 then ['-'] else []) ++ writeNat q.num.natAbs ++ (if q.den = 1 then [] else '/' :: writeNat q.den)

def readFraction (sign : Int) (cs : List Char) : Rat × List Char :=
  let (n, rest) := readNat cs
  match rest with
  | '/' :: rest =>
    let (d, rest) := readNat rest
    (mkRat (sign * n) d, rest)
  | rest => (mkRat (sign * n) 1, rest)

def readNumber : List Char → Rat × List Char
  | '-' :: cs => readFraction (-1) cs
  | cs => readFraction 1 cs

theorem readFraction_spec (sign : Int) (q : Rat) (same : sign * q.num.natAbs = q.num) {rest : List Char} (stops : Stops rest) :
    readFraction sign (writeNat q.num.natAbs ++ (if q.den = 1 then [] else '/' :: writeNat q.den) ++ rest) = (q, rest) := by
  have digits : ∀ c cs, rest = c :: cs → c.isDigit = false := fun c cs at_rest => (stops c cs at_rest).1
  by_cases whole : q.den = 1
  · simp only [whole, if_true, List.append_nil, readFraction, readNat_writeNat _ digits]
    have value : mkRat (sign * q.num.natAbs) 1 = q := by
      rw [same, ← whole, Rat.mkRat_self]
    rw [value]
    cases rest with
    | nil => rfl
    | cons c cs =>
      have other := (stops c cs rfl).2
      split
      · rename_i slash
        exact absurd (List.cons.inj slash).1 other
      · rfl
  · have value : mkRat (sign * q.num.natAbs) q.den = q := by rw [same, Rat.mkRat_self]
    simp only [whole, if_false, List.append_assoc, List.cons_append, readFraction]
    rw [readNat_writeNat _ (by
      intro c cs at_rest
      cases at_rest
      decide)]
    simp only [readNat_writeNat _ digits, value]

theorem readNumber_writeNumber (q : Rat) {rest : List Char} (stops : Stops rest) :
    readNumber (writeNumber q ++ rest) = (q, rest) := by
  by_cases negative : q.num < 0
  · have same : (-1 : Int) * q.num.natAbs = q.num := by omega
    simpa [writeNumber, negative, readNumber] using readFraction_spec (-1) q same stops
  · have same : (1 : Int) * q.num.natAbs = q.num := by omega
    have spec := readFraction_spec 1 q same stops
    obtain ⟨c, cs, first⟩ : ∃ c cs, writeNat q.num.natAbs = c :: cs := by
      cases written : writeNat q.num.natAbs with
      | nil => simp [writeNat, toString, Nat.repr_eq_ofList_toDigits, Nat.toDigits_ne_nil] at written
      | cons c cs => exact ⟨c, cs, rfl⟩
    have digit := isDigit_writeNat q.num.natAbs c (by simp [first])
    have noSign : c ≠ '-' := by
      intro same
      subst same
      cases digit
    simp only [writeNumber, negative, if_false, List.nil_append, first, List.cons_append] at spec ⊢
    rw [readNumber]
    · exact spec
    · intro cs' none
      cases none
      exact noSign rfl

def writePrim : Prim → List Char
  | .null => "null".toList
  | .bool true => "true".toList
  | .bool false => "false".toList
  | .number q => writeNumber q
  | .string s => writeString s

mutual

def write : Json → List Char
  | .prim p => writePrim p
  | .arr [] => ['[', ']']
  | .arr (e :: rest) => '[' :: (write e ++ writeElems rest)
  | .obj [] => ['{', '}']
  | .obj ((name, value) :: rest) => '{' :: (writeString name ++ ':' :: (write value ++ writeProps rest))

def writeElems : List Json → List Char
  | [] => [']']
  | e :: rest => ',' :: (write e ++ writeElems rest)

def writeProps : List (String × Json) → List Char
  | [] => ['}']
  | (name, value) :: rest => ',' :: (writeString name ++ ':' :: (write value ++ writeProps rest))

end

def readWord (word : String) (p : Prim) (cs : List Char) : Option (Json × List Char) :=
  if word.toList.isPrefixOf cs then some (.prim p, cs.drop word.toList.length) else none

def readName : List Char → Option (String × List Char)
  | c :: cs => if c = quote then
      match readString cs with
      | some (name, ':' :: cs) => some (String.ofList name, cs)
      | _ => none
    else none
  | [] => none

mutual

def readValue : Nat → List Char → Option (Json × List Char)
  | 0, _ => none
  | _ + 1, [] => none
  | fuel + 1, c :: cs =>
    if c = 'n' then readWord "ull" .null cs
    else if c = 't' then readWord "rue" (.bool true) cs
    else if c = 'f' then readWord "alse" (.bool false) cs
    else if c = quote then (readString cs).map fun read => (.prim (.string (String.ofList read.1)), read.2)
    else if c = '[' then
      if cs.head? = some ']' then some (.arr [], cs.tail)
      else do
        let (e, cs) ← readValue fuel cs
        let (rest, cs) ← readElems fuel cs
        return (.arr (e :: rest), cs)
    else if c = '{' then
      if cs.head? = some '}' then some (.obj [], cs.tail)
      else do
        let (name, cs) ← readName cs
        let (value, cs) ← readValue fuel cs
        let (rest, cs) ← readProps fuel cs
        return (.obj ((name, value) :: rest), cs)
    else if c.isDigit ∨ c = '-' then
      let (q, rest) := readNumber (c :: cs)
      some (.prim (.number q), rest)
    else none

def readElems : Nat → List Char → Option (List Json × List Char)
  | 0, _ => none
  | _ + 1, [] => none
  | fuel + 1, c :: cs =>
    if c = ']' then some ([], cs)
    else if c = ',' then do
      let (e, cs) ← readValue fuel cs
      let (rest, cs) ← readElems fuel cs
      return (e :: rest, cs)
    else none

def readProps : Nat → List Char → Option (List (String × Json) × List Char)
  | 0, _ => none
  | _ + 1, [] => none
  | fuel + 1, c :: cs =>
    if c = '}' then some ([], cs)
    else if c = ',' then do
      let (name, cs) ← readName cs
      let (value, cs) ← readValue fuel cs
      let (rest, cs) ← readProps fuel cs
      return ((name, value) :: rest, cs)
    else none

end

theorem readName_writeString (name : String) (rest : List Char) :
    readName (writeString name ++ ':' :: rest) = some (name, rest) := by
  simp [writeString, readName, readString_escape]

theorem writeNumber_first (q : Rat) : ∃ c cs, writeNumber q = c :: cs ∧ (c.isDigit ∨ c = '-') := by
  by_cases negative : q.num < 0
  · exact ⟨'-', _, by simp [writeNumber, negative]; rfl, .inr rfl⟩
  · cases written : writeNat q.num.natAbs with
    | nil => simp [writeNat, toString, Nat.repr_eq_ofList_toDigits, Nat.toDigits_ne_nil] at written
    | cons c cs =>
      exact ⟨c, _, by simp [writeNumber, negative, written]; rfl, .inl (isDigit_writeNat q.num.natAbs c (by simp [written]))⟩

theorem writePrim_first (p : Prim) : ∃ c cs, writePrim p = c :: cs ∧ c ≠ ']' := by
  cases p with
  | null => exact ⟨_, _, rfl, by decide⟩
  | bool b => cases b <;> exact ⟨_, _, rfl, by decide⟩
  | number q =>
    obtain ⟨c, cs, written, first⟩ := writeNumber_first q
    refine ⟨c, cs, written, ?_⟩
    intro same
    subst same
    simp at first
  | string s => exact ⟨_, _, rfl, by decide⟩

theorem write_first (j : Json) : ∃ c cs, write j = c :: cs ∧ c ≠ ']' := by
  match j with
  | .prim p => exact writePrim_first p
  | .arr [] => exact ⟨_, _, rfl, by decide⟩
  | .arr (e :: rest) => exact ⟨_, _, by rw [write], by decide⟩
  | .obj [] => exact ⟨_, _, rfl, by decide⟩
  | .obj ((name, value) :: rest) => exact ⟨_, _, by rw [write], by decide⟩

theorem readValue_writePrim (p : Prim) (fuel : Nat) {rest : List Char} (stops : Stops rest) :
    readValue (fuel + 1) (writePrim p ++ rest) = some (.prim p, rest) := by
  cases p with
  | null => simp [writePrim, readValue, readWord]
  | bool b => cases b <;> simp [writePrim, readValue, readWord]
  | number q =>
    obtain ⟨c, cs, written, first⟩ := writeNumber_first q
    have back := readNumber_writeNumber q stops
    have other : ∀ d ∈ ['n', 't', 'f', quote, '[', '{'], c ≠ d := by
      intro d member same
      subst same
      revert first
      simp only [List.mem_cons, List.not_mem_nil, or_false] at member
      rcases member with rfl | rfl | rfl | rfl | rfl | rfl <;> decide
    simp only [List.mem_cons, List.not_mem_nil, or_false, forall_eq_or_imp, forall_eq] at other
    simp only [writePrim, written, List.cons_append] at back ⊢
    simp [readValue, other, first, back]
  | string s =>
    have different : quote ≠ 'n' ∧ quote ≠ 't' ∧ quote ≠ 'f' := by decide
    simp [writePrim, writeString, readValue, readString_escape, different]

theorem stops_writeElems (es : List Json) (rest : List Char) : Stops (writeElems es ++ rest) := by
  intro c cs same
  cases es <;> simp only [writeElems, List.cons_append, List.nil_append, List.cons.injEq] at same <;>
    · rw [← same.1]
      decide

theorem stops_writeProps (ps : List (String × Json)) (rest : List Char) : Stops (writeProps ps ++ rest) := by
  intro c cs same
  cases ps <;> simp only [writeProps, List.cons_append, List.nil_append, List.cons.injEq] at same <;>
    · rw [← same.1]
      decide

theorem readElems_writeElems {es : List Json}
    (each : ∀ e ∈ es, ∀ fuel rest, (write e).length < fuel → Stops rest → readValue fuel (write e ++ rest) = some (e, rest))
    (fuel : Nat) (rest : List Char) (enough : (writeElems es).length < fuel) :
    readElems fuel (writeElems es ++ rest) = some (es, rest) := by
  induction es generalizing fuel with
  | nil =>
    cases fuel with
    | zero => exact absurd enough (Nat.not_lt_zero _)
    | succ fuel => simp [writeElems, readElems]
  | cons e es ih =>
    cases fuel with
    | zero => exact absurd enough (Nat.not_lt_zero _)
    | succ fuel =>
      simp only [writeElems, List.length_cons, List.length_append] at enough
      have first := each e (by simp) fuel (writeElems es ++ rest) (by omega) (stops_writeElems es rest)
      have others := ih (fun e' member => each e' (List.mem_cons_of_mem _ member)) fuel (by omega)
      simp [writeElems, readElems, first, others]

theorem readProps_writeProps {ps : List (String × Json)}
    (each : ∀ entry ∈ ps, ∀ fuel rest, (write entry.2).length < fuel → Stops rest →
      readValue fuel (write entry.2 ++ rest) = some (entry.2, rest))
    (fuel : Nat) (rest : List Char) (enough : (writeProps ps).length < fuel) :
    readProps fuel (writeProps ps ++ rest) = some (ps, rest) := by
  induction ps generalizing fuel with
  | nil =>
    cases fuel with
    | zero => exact absurd enough (Nat.not_lt_zero _)
    | succ fuel => simp [writeProps, readProps]
  | cons entry ps ih =>
    obtain ⟨name, value⟩ := entry
    cases fuel with
    | zero => exact absurd enough (Nat.not_lt_zero _)
    | succ fuel =>
      simp only [writeProps, List.length_cons, List.length_append] at enough
      have first := each (name, value) (by simp) fuel (writeProps ps ++ rest) (by dsimp only; omega)
        (stops_writeProps ps rest)
      have others := ih (fun entry member => each entry (List.mem_cons_of_mem _ member)) fuel (by omega)
      simp [writeProps, readProps, readName_writeString, first, others]

/-- A written document is read back, whatever follows it. -/
theorem readValue_write (j : Json) : ∀ fuel rest, (write j).length < fuel → Stops rest →
    readValue fuel (write j ++ rest) = some (j, rest) := by
  induction j using Json.induct with
  | prim p =>
    intro fuel rest enough stops
    cases fuel with
    | zero => exact absurd enough (Nat.not_lt_zero _)
    | succ fuel => exact readValue_writePrim p fuel stops
  | arr elems ih =>
    intro fuel rest enough _
    have bracket : '[' ≠ quote := by decide
    cases fuel with
    | zero => exact absurd enough (Nat.not_lt_zero _)
    | succ fuel =>
      cases elems with
      | nil => simp [write, readValue, bracket]
      | cons e es =>
        simp only [write, List.length_cons, List.length_append] at enough
        have first := ih e (by simp) fuel (writeElems es ++ rest) (by omega) (stops_writeElems es rest)
        have others := readElems_writeElems (fun e' member => ih e' (List.mem_cons_of_mem _ member)) fuel rest (by omega)
        obtain ⟨c, cs, written, notEmpty⟩ := write_first e
        simp [write, readValue, bracket, written, notEmpty] at first ⊢
        simp [first, others]
  | obj props ih =>
    intro fuel rest enough _
    have brace : '{' ≠ quote := by decide
    have notEmpty : quote ≠ '}' := by decide
    cases fuel with
    | zero => exact absurd enough (Nat.not_lt_zero _)
    | succ fuel =>
      cases props with
      | nil => simp [write, readValue, brace]
      | cons entry ps =>
        obtain ⟨name, value⟩ := entry
        simp only [write, List.length_cons, List.length_append] at enough
        have first := ih (name, value) (by simp) fuel (writeProps ps ++ rest) (by dsimp only; omega)
          (stops_writeProps ps rest)
        have others := readProps_writeProps (fun entry member => ih entry (List.mem_cons_of_mem _ member)) fuel rest
          (by omega)
        have named := readName_writeString name (write value ++ (writeProps ps ++ rest))
        have head : (writeString name).head? = some quote := rfl
        simp [write, readValue, brace, head, notEmpty, named, first, others]

def plainText : JsonText where
  parse s := match readValue (s.toList.length + 1) s.toList with
    | some (j, []) => some j
    | _ => none
  stringify j := String.ofList (write j)
  parse_stringify j := by
    have back := readValue_write j ((write j).length + 1) [] (Nat.lt_succ_self _) (by rintro c cs ⟨⟩)
    rw [List.append_nil] at back
    exact ⟨j, by simp [back], .refl j⟩

end Js
