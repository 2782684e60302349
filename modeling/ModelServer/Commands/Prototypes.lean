import ModelServer.Commands.Edit

namespace ModelServer.Commands
open Js Message

def classOf (command : Json) : Prototype :=
  match command.child "eClass", command.child "type" with
  | some (.prim (.string eClass)), some (.prim (.string type)) =>
    if eClass = ModelServerCommand.URI then
      if type = SetCommand.TYPE then .setCommand
      else if type = AddCommand.TYPE then .addCommand
      else if type = RemoveCommand.TYPE then .removeCommand
      else .modelServerCommand
    else if eClass = CompoundCommand.URI ∧ type = CompoundCommand.TYPE then .compoundCommand
    else .modelServerCommand
  | _, _ => .modelServerCommand

namespace Value

def prototype? : Value → Option Prototype
  | obj prototype _ => some prototype
  | _ => none

def ownProps : Value → List (String × Value)
  | obj _ props => props
  | _ => []

def subcommands (command : Value) : List Value :=
  match command.ownProps.lookup "commands" with
  | some (.arr elems) => if CompoundCommand.is command.toJson then elems else []
  | _ => []

def commandAt : Value → List Nat → Option Value
  | command, [] => some command
  | command, i :: path => command.subcommands[i]?.bind (commandAt · path)

end Value

/-- A tree of commands as it is received: plain objects, with an array of commands in each compound command. -/
inductive CommandTree : Value → Prop
  | single {props : List (String × Value)} (single : CompoundCommand.is (Value.obj .object props).toJson = false) :
      CommandTree (.obj .object props)
  | compound {props : List (String × Value)} {elems : List Value}
      (compound : CompoundCommand.is (Value.obj .object props).toJson = true)
      (commands : props.lookup "commands" = some (.arr elems)) (each : ∀ e ∈ elems, CommandTree e) :
      CommandTree (.obj .object props)

def Restores (cls : Json → Prototype) (received restored : Value) : Prop :=
  ∀ path command, received.commandAt path = some command →
    ∃ command', restored.commandAt path = some command' ∧ command'.prototype? = some (cls command.toJson) ∧
      command'.toJson = command.toJson

theorem subcommands_single {command : Value} (single : CompoundCommand.is command.toJson = false) :
    command.subcommands = [] := by
  unfold Value.subcommands
  split
  · rw [single]; rfl
  · rfl

theorem subcommands_compound {command : Value} {elems : List Value} (compound : CompoundCommand.is command.toJson = true)
    (commands : command.ownProps.lookup "commands" = some (.arr elems)) : command.subcommands = elems := by
  simp only [Value.subcommands, commands, compound, if_true]

theorem not_single_of_compound {command : Json} (compound : CompoundCommand.is command = true) (type : String) :
    isOfType type command = false := by
  cases is : isOfType type command with
  | false => rfl
  | true =>
    rw [isOfType, Bool.and_eq_true] at is
    rw [not_compoundCommand is.1] at compound
    cases compound

theorem ensureCommands_lookup {props : List (String × Value)} {elems elems' : List Value}
    (commands : props.lookup "commands" = some (.arr elems)) (ensured : ensureElems elems = .ok elems')
    (same : Value.toJsonElems elems' = Value.toJsonElems elems) :
    ∃ props', ensureCommands props = .ok props' ∧ props'.lookup "commands" = some (.arr elems') ∧
      Value.toJsonProps props' = Value.toJsonProps props := by
  induction props with
  | nil => cases commands
  | cons entry rest ih =>
    rw [lookup_entry] at commands
    by_cases here : entry.1 = "commands"
    · rw [if_pos here.symm] at commands
      refine ⟨(entry.1, .arr elems') :: rest, ?_, ?_, ?_⟩
      · simp only [ensureCommands, here, if_true, Option.some.inj commands, ensureEach, ensured, bind, Except.bind]
      · rw [lookup_entry, if_pos here.symm]
      · simp only [Value.toJsonProps, Option.some.inj commands, Value.toJson, same]
    · rw [if_neg (Ne.symm here)] at commands
      rcases ih commands with ⟨rest', result, found, written⟩
      refine ⟨entry :: rest', ?_, ?_, ?_⟩
      · simp only [ensureCommands, if_neg here, result, bind, Except.bind]
      · rw [lookup_entry, if_neg (Ne.symm here), found]
      · simp only [Value.toJsonProps, written]

theorem ensureElems_each {P : Value → Value → Prop} {elems : List Value}
    (each : ∀ e ∈ elems, ∃ e', ensureCommandPrototype e = .ok e' ∧ e'.toJson = e.toJson ∧ P e e') :
    ∃ elems', ensureElems elems = .ok elems' ∧ Value.toJsonElems elems' = Value.toJsonElems elems ∧
      List.Forall₂ P elems elems' := by
  induction elems with
  | nil => exact ⟨[], rfl, rfl, .nil⟩
  | cons e rest ih =>
    rcases List.forall_mem_cons.mp each with ⟨⟨e', first, written, related⟩, later⟩
    rcases ih later with ⟨rest', others, writtenRest, relatedRest⟩
    refine ⟨e' :: rest', ?_, ?_, .cons related relatedRest⟩
    · simp only [ensureElems, first, others, bind, Except.bind]
    · rw [Value.toJsonElems, Value.toJsonElems, written, writtenRest]

theorem Restores.of_root {cls : Json → Prototype} {received restored : Value}
    (prototype : restored.prototype? = some (cls received.toJson)) (written : restored.toJson = received.toJson)
    (below : List.Forall₂ (Restores cls) received.subcommands restored.subcommands) : Restores cls received restored := by
  intro path command found
  cases path with
  | nil =>
    cases found
    exact ⟨restored, rfl, prototype, written⟩
  | cons i path =>
    simp only [Value.commandAt, Option.bind_eq_some_iff] at found ⊢
    rcases found with ⟨child, at_i, found⟩
    rcases List.getElem?_eq_some_iff.mp at_i with ⟨bound, rfl⟩
    have bound' : i < restored.subcommands.length := below.length_eq ▸ bound
    rcases below.get bound bound' path command found with ⟨command', found', given⟩
    exact ⟨command', ⟨_, List.getElem?_eq_getElem bound', found'⟩, given⟩

theorem ensureCommandPrototype_restores {command : Value} (tree : CommandTree command) :
    ∃ restored, ensureCommandPrototype command = .ok restored ∧ restored.toJson = command.toJson ∧
      Restores (fun _ => .modelServerCommand) command restored := by
  induction tree with
  | @single props single =>
    have written : (Value.obj .modelServerCommand props).toJson = (Value.obj .object props).toJson := by
      rw [Value.toJson, Value.toJson]
    refine ⟨_, ensureCommandPrototype_leaf single, written, .of_root rfl written ?_⟩
    rw [subcommands_single single, subcommands_single (written ▸ single)]
    exact .nil
  | @compound props elems compound commands each ih =>
    rcases ensureElems_each ih with ⟨elems', ensured, writtenElems, below⟩
    rcases ensureCommands_lookup commands ensured writtenElems with ⟨props', result, commands', writtenProps⟩
    have written : (Value.obj .modelServerCommand props').toJson = (Value.obj .object props).toJson := by
      rw [Value.toJson, Value.toJson, writtenProps]
    refine ⟨.obj .modelServerCommand props', ?_, written, .of_root rfl written ?_⟩
    · have notSet := not_single_of_compound compound SetCommand.TYPE
      have notAdd := not_single_of_compound compound AddCommand.TYPE
      have notRemove := not_single_of_compound compound RemoveCommand.TYPE
      simp only [ensureCommandPrototype, SetCommand.is, AddCommand.is, RemoveCommand.is, notSet, notAdd, notRemove,
        compound, Bool.false_eq_true, if_false, if_true, result, bind, Except.bind, Value.setPrototypeOf]
    · rw [@subcommands_compound (.obj .object props) elems compound commands,
        @subcommands_compound (.obj .modelServerCommand props') elems' (written ▸ compound) commands']
      exact below

theorem classOf_compound {command : Json} (compound : CompoundCommand.is command = true) :
    classOf command = .compoundCommand := by
  have other : CompoundCommand.URI ≠ ModelServerCommand.URI := by decide
  simp only [CompoundCommand.is, Bool.and_eq_true] at compound
  have eClass := child_of_isText compound.1.1.1.2
  have type := child_of_isText compound.1.2
  simp [classOf, eClass, type, other]

/-- A tree is restored just where it is a single command without a class of its own. -/
theorem ensureCommandPrototype_restores_iff {command : Value} (tree : CommandTree command) :
    (∃ restored, ensureCommandPrototype command = .ok restored ∧ Restores classOf command restored) ↔
      classOf command.toJson = .modelServerCommand := by
  rcases ensureCommandPrototype_restores tree with ⟨restored, result, written, flattened⟩
  constructor
  · intro given
    rcases given with ⟨restored', result', restores⟩
    cases result.symm.trans result'
    rcases restores [] command rfl with ⟨root, at_root, prototype, -⟩
    rcases flattened [] command rfl with ⟨root', at_root', prototype', -⟩
    cases at_root.symm.trans at_root'
    exact Option.some.inj (prototype.symm.trans prototype')
  · intro custom
    refine ⟨restored, result, .of_root ?_ written ?_⟩
    · rcases flattened [] command rfl with ⟨root, at_root, prototype, -⟩
      cases at_root
      rw [custom, prototype]
    · have single : CompoundCommand.is command.toJson = false := by
        cases compound : CompoundCommand.is command.toJson with
        | false => rfl
        | true =>
          rw [classOf_compound compound] at custom
          cases custom
      rw [subcommands_single single, subcommands_single (written ▸ single)]
      exact .nil

def renamed : Value :=
  .obj .object [("eClass", Command.text ModelServerCommand.URI), ("type", Command.text SetCommand.TYPE),
    ("feature", Command.text "name"), ("dataValues", .arr [Command.text "Automatic brewing"])]

def layouted : Value :=
  .obj .object [("eClass", Command.text ModelServerCommand.URI), ("type", Command.text "layout")]

def grouped : Value :=
  .obj .object [("eClass", Command.text CompoundCommand.URI), ("type", Command.text CompoundCommand.TYPE),
    ("commands", .arr [renamed, layouted])]

theorem tree_grouped : CommandTree grouped := by
  refine @CommandTree.compound _ [renamed, layouted] rfl rfl ?_
  intro e member
  simp only [List.mem_cons, List.not_mem_nil, or_false] at member
  rcases member with rfl | rfl
  · exact .single rfl
  · exact .single rfl

/-- A compound command loses its class, and so does the command in it that sets a name. -/
theorem ensureCommandPrototype_forgets_class :
    (∃ restored, ensureCommandPrototype grouped = .ok restored ∧ restored.prototype? = some .modelServerCommand ∧
      (restored.commandAt [0]).bind Value.prototype? = some .modelServerCommand) ∧
      classOf grouped.toJson = .compoundCommand ∧ classOf renamed.toJson = .setCommand ∧
      ¬ ∃ restored, ensureCommandPrototype grouped = .ok restored ∧ Restores classOf grouped restored := by
  rcases ensureCommandPrototype_restores tree_grouped with ⟨restored, result, -, flattened⟩
  rcases flattened [] grouped rfl with ⟨root, at_root, prototype, -⟩
  cases at_root
  rcases flattened [0] renamed rfl with ⟨child, at_child, prototype', -⟩
  refine ⟨⟨restored, result, prototype, by rw [at_child]; exact prototype'⟩, by decide, by decide, ?_⟩
  intro given
  rcases given with ⟨restored', result', restores⟩
  cases result.symm.trans result'
  rcases restores [] grouped rfl with ⟨root, at_root, own, -⟩
  cases at_root
  rw [prototype] at own
  revert own
  decide

theorem ensureCommandPrototype_restores_layouted :
    ∃ restored, ensureCommandPrototype layouted = .ok restored ∧ Restores classOf layouted restored :=
  (ensureCommandPrototype_restores_iff (.single rfl)).mpr (by decide)

end ModelServer.Commands
