import ModelServer.Js.Json
import ModelServer.Js.Conversion
import Mathlib.Order.Defs.LinearOrder
import Mathlib.Order.Basic

namespace ModelServer

open Js

def OK : Rat := 0x0

def INFO : Rat := 0x1

def WARNING : Rat := 0x2

def ERROR : Rat := 0x4

def CANCEL : Rat := 0x8

structure Diagnostic where
  severity : Rat
  message : String
  source : String
  code : Rat
  exception : Option Json
  data : List Json
  children : List Diagnostic
  id : String

inductive SeverityLabel
  | OK
  | INFO
  | WARNING
  | ERROR
  | CANCEL
  deriving DecidableEq, Repr

namespace SeverityLabel

def rank : SeverityLabel → Nat
  | OK => 0
  | INFO => 1
  | WARNING => 2
  | ERROR => 3
  | CANCEL => 4

theorem rank_injective : Function.Injective rank := by
  intro left right same
  cases left <;> cases right <;> first | rfl | cases same

instance : LinearOrder SeverityLabel := LinearOrder.lift' rank rank_injective

theorem le_iff (left right : SeverityLabel) : left ≤ right ↔ left.rank ≤ right.rank := Iff.rfl

end SeverityLabel

/-- The label of a severity code: the highest mask that matches. -/
def severityLabel (severityCode : Rat) : SeverityLabel :=
  if 0 < bitAnd severityCode CANCEL then .CANCEL
  else if 0 < bitAnd severityCode ERROR then .ERROR
  else if 0 < bitAnd severityCode WARNING then .WARNING
  else if 0 < bitAnd severityCode INFO then .INFO
  else .OK

theorem level_masks (n : Nat) (bound : n < 2 ^ 4) :
    n.size = if n.testBit 3 then 4 else if n.testBit 2 then 3 else if n.testBit 1 then 2 else
      if n.testBit 0 then 1 else 0 := by
  revert bound
  revert n
  decide

theorem rank_severityLabel (severityCode : Rat) :
    (severityLabel severityCode).rank = Bits.level 4 (toInt32 severityCode) := by
  have cancel : toInt32 CANCEL = BitVec.twoPow 32 3 := by decide
  have error : toInt32 ERROR = BitVec.twoPow 32 2 := by decide
  have warning : toInt32 WARNING = BitVec.twoPow 32 1 := by decide
  have info : toInt32 INFO = BitVec.twoPow 32 0 := by decide
  have low : ∀ i < 4, (toInt32 severityCode).getLsbD i = ((toInt32 severityCode).toNat % 2 ^ 4).testBit i := by
    intro i inside
    rw [Nat.testBit_mod_two_pow, BitVec.getLsbD]
    simp [inside]
  simp only [severityLabel, bitAnd_pos_iff (by decide : 3 < 31) cancel, bitAnd_pos_iff (by decide : 2 < 31) error,
    bitAnd_pos_iff (by decide : 1 < 31) warning, bitAnd_pos_iff (by decide : 0 < 31) info]
  rw [Bits.level, level_masks _ (Nat.mod_lt _ (by decide)), low 3 (by decide), low 2 (by decide), low 1 (by decide),
    low 0 (by decide)]
  repeat' split
  all_goals rfl

namespace Diagnostic

def getSeverityLabel (diagnostic : Diagnostic) : SeverityLabel := severityLabel diagnostic.severity

mutual

/-- The leaves of a diagnostic. One that is OK is not returned. -/
def collectLeaves : Diagnostic → List Diagnostic
  | diagnostic@⟨severity, _, _, _, _, _, children, _⟩ =>
    if 0 < children.length then (leavesByChild children).foldl (· ++ ·) []
    else if 0 < severity then [diagnostic]
    else []

def leavesByChild : List Diagnostic → List (List Diagnostic)
  | [] => []
  | child :: rest => collectLeaves child :: leavesByChild rest

end

def ok : Diagnostic where
  severity := OK
  code := 0
  message := "OK"
  source := ""
  exception := none
  data := []
  children := []
  id := ""

mutual

def nodes : Diagnostic → List Diagnostic
  | diagnostic@⟨_, _, _, _, _, _, children, _⟩ => diagnostic :: nodesBelow children

def nodesBelow : List Diagnostic → List Diagnostic
  | [] => []
  | child :: rest => nodes child ++ nodesBelow rest

end

def childless (diagnostic : Diagnostic) : List Diagnostic := diagnostic.nodes.filter (·.children.isEmpty)

theorem child_induct {P : Diagnostic → Prop} (step : ∀ d, (∀ child ∈ d.children, P child) → P d) (d : Diagnostic) :
    P d := by
  refine step d ?_
  intro child member
  exact child_induct step child
termination_by sizeOf d
decreasing_by
  have below := List.sizeOf_lt_of_mem member
  cases d
  simp only [Diagnostic.mk.sizeOf_spec]
  simp only at below
  omega

theorem leavesByChild_eq (children : List Diagnostic) : leavesByChild children = children.map collectLeaves := by
  induction children with
  | nil => rfl
  | cons child rest ih => rw [leavesByChild, ih, List.map_cons]

theorem nodesBelow_eq (children : List Diagnostic) : nodesBelow children = children.flatMap nodes := by
  induction children with
  | nil => rfl
  | cons child rest ih => rw [nodesBelow, ih, List.flatMap_cons]

theorem nodes_eq (d : Diagnostic) : d.nodes = d :: d.children.flatMap nodes := by
  cases d
  rw [nodes, nodesBelow_eq]

theorem foldl_concat {α : Type} (blocks : List (List α)) : blocks.foldl (· ++ ·) [] = blocks.flatten := by
  have joined := @List.foldl_append_eq_append _ _ blocks (fun block => block) []
  rwa [List.nil_append, List.map_id'] at joined

theorem childless_leaf {d : Diagnostic} (leaf : d.children = []) : d.childless = [d] := by
  rw [childless, nodes_eq, leaf]
  simp [leaf]

theorem childless_inner {d : Diagnostic} (inner : d.children ≠ []) : d.childless = d.children.flatMap childless := by
  rw [childless, nodes_eq, List.filter_cons_of_neg (by simpa using inner), List.filter_flatMap]
  rfl

theorem collectLeaves_leaf {d : Diagnostic} (leaf : d.children = []) :
    d.collectLeaves = if 0 < d.severity then [d] else [] := by
  cases d
  subst leaf
  rfl

theorem collectLeaves_inner {d : Diagnostic} (inner : d.children ≠ []) :
    d.collectLeaves = d.children.flatMap collectLeaves := by
  cases d
  rw [collectLeaves, if_pos (List.length_pos_of_ne_nil inner), leavesByChild_eq, foldl_concat, List.flatMap]

/-- The leaves that are collected are the childless nodes of positive severity. -/
theorem collectLeaves_eq (d : Diagnostic) : d.collectLeaves = d.childless.filter fun node => 0 < node.severity := by
  induction d using child_induct with
  | step d ih =>
    by_cases leaf : d.children = []
    · rw [collectLeaves_leaf leaf, childless_leaf leaf]
      by_cases positive : 0 < d.severity
      · simp [positive]
      · simp [positive]
    · rw [collectLeaves_inner leaf, childless_inner leaf, List.filter_flatMap]
      exact List.flatMap_congr ih

end Diagnostic

end ModelServer
