import ModelServer.Js.Json
import ModelServer.Library.Masks
import Mathlib.Data.Rat.Defs

namespace Js

section Bitwise

/-- The conversion of a finite number before a bitwise operation: its integer part, modulo 2 ^ 32. -/
def toInt32 (n : Rat) : BitVec 32 := BitVec.ofInt 32 (n.num.tdiv n.den)

def ofInt32 (x : BitVec 32) : Rat := x.toInt

def bitOr (m n : Rat) : Rat := ofInt32 (toInt32 m ||| toInt32 n)

def bitAnd (m n : Rat) : Rat := ofInt32 (toInt32 m &&& toInt32 n)

theorem toInt32_intCast (k : Int) : toInt32 k = BitVec.ofInt 32 k := by
  simp [toInt32]

theorem toInt32_ofInt32 (x : BitVec 32) : toInt32 (ofInt32 x) = x := by
  rw [ofInt32, toInt32_intCast, BitVec.ofInt_toInt]

theorem foldl_bitOr (numbers : List Rat) (x : BitVec 32) :
    numbers.foldl bitOr (ofInt32 x) = ofInt32 (x ||| Bits.orAll (numbers.map toInt32)) := by
  induction numbers generalizing x with
  | nil => simp
  | cons n numbers ih =>
    rw [List.foldl_cons, bitOr, toInt32_ofInt32, ih, List.map_cons, Bits.orAll_cons, BitVec.or_assoc]

/-- A mask of one bit other than the sign bit: `&` gives a positive number where the bit is set. -/
theorem bitAnd_pos_iff {n mask : Rat} {i : Nat} (inside : i < 31) (single : toInt32 mask = BitVec.twoPow 32 i) :
    0 < bitAnd n mask ↔ (toInt32 n).getLsbD i = true := by
  rw [bitAnd, single, ofInt32, BitVec.and_twoPow]
  cases (toInt32 n).getLsbD i with
  | false => simp
  | true =>
    simp only [if_true, iff_true, Rat.intCast_pos]
    have positive : (BitVec.twoPow 32 i).msb = false := by
      simp [BitVec.msb_twoPow]
      omega
    rw [BitVec.toInt_eq_toNat_of_msb positive, BitVec.toNat_twoPow]
    have small : 2 ^ i < 2 ^ 32 := Nat.pow_lt_pow_right (by omega) (by omega)
    rw [Nat.mod_eq_of_lt small]
    exact_mod_cast Nat.two_pow_pos i

end Bitwise

inductive Number
  | nan
  | infinite (negative : Bool)
  | finite (value : Rat)

namespace Number

def positive : Number → Bool
  | nan => false
  | infinite negative => !negative
  | finite value => 0 < value

def toInt32 : Number → BitVec 32
  | nan => 0
  | infinite _ => 0
  | finite value => Js.toInt32 value

end Number

/-- The conversions between strings and numbers, of which nothing is used. -/
structure Conversions where
  stringToNumber : String → Number
  numberToString : Rat → String

variable (convert : Conversions)

def noPrimitive : String := "Cannot convert object to primitive value"

mutual

/-- `ToString`. An own property `toString`, which is no function here, hides the one that objects inherit. -/
def toText : Json → Except String String
  | .prim .null => .ok "null"
  | .prim (.bool true) => .ok "true"
  | .prim (.bool false) => .ok "false"
  | .prim (.number n) => .ok (convert.numberToString n)
  | .prim (.string s) => .ok s
  | .arr elems => do
    let texts ← joined elems
    .ok (",".intercalate texts)
  | .obj props => if (props.lookup "toString").isSome then .error noPrimitive else .ok "[object Object]"

def joined : List Json → Except String (List String)
  | [] => .ok []
  | .prim .null :: rest => do
    let texts ← joined rest
    .ok ("" :: texts)
  | e :: rest => do
    let text ← toText e
    let texts ← joined rest
    .ok (text :: texts)

end

def toNumber : Option Json → Except String Number
  | none => .ok .nan
  | some (.prim .null) => .ok (.finite 0)
  | some (.prim (.bool b)) => .ok (.finite (if b then 1 else 0))
  | some (.prim (.number n)) => .ok (.finite n)
  | some (.prim (.string s)) => .ok (convert.stringToNumber s)
  | some object => do
    let text ← toText convert object
    .ok (convert.stringToNumber text)

def isPositive (value : Option Json) : Except String Bool := do
  let n ← toNumber convert value
  .ok n.positive

def orInto (severity : Rat) (value : Option Json) : Except String Rat := do
  let n ← toNumber convert value
  .ok (ofInt32 (toInt32 severity ||| n.toInt32))

theorem isPositive_number (n : Rat) : isPositive convert (some (.prim (.number n))) = .ok (decide (0 < n)) := rfl

theorem orInto_number (severity n : Rat) :
    orInto convert severity (some (.prim (.number n))) = .ok (bitOr severity n) := rfl

theorem bind_eq_ok {α β : Type} {x : Except String α} {next : α → Except String β} {b : β} :
    (x >>= next) = .ok b ↔ ∃ a, x = .ok a ∧ next a = .ok b := by
  cases x with
  | error e => simp [bind, Except.bind]
  | ok a => simp [bind, Except.bind]

theorem orInto_of_isPositive {value : Option Json} {positive : Bool} (compared : isPositive convert value = .ok positive)
    (severity : Rat) : ∃ result, orInto convert severity value = .ok result := by
  rcases bind_eq_ok.mp compared with ⟨n, converted, -⟩
  exact ⟨_, bind_eq_ok.mpr ⟨n, converted, rfl⟩⟩

end Js
