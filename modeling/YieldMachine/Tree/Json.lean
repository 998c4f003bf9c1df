import YieldMachine.Json.Reader
import YieldMachine.Tree.Basic

/-!
# Trees as JSON

A choice is an object with one field, named for the choice; one without contents may
also be the bare name. Contents with several fields are an object, in which unknown
fields are passed over and known ones stand once, or an array of the fields in their
order. A missing else branch is none.

Reading takes the number of arrays and objects that may stand inside each other;
what is passed over does not count.
-/

namespace YieldMachine

/-! ## Names -/

/-- Binary operators with their names. -/
def BinaryOp.names : List (String × BinaryOp) :=
  [("Add", .add), ("Subtract", .subtract), ("Multiply", .multiply), ("Divide", .divide),
    ("Modulo", .modulo), ("Equal", .equal), ("NotEqual", .notEqual), ("Less", .less),
    ("LessEqual", .lessEqual), ("Greater", .greater), ("GreaterEqual", .greaterEqual),
    ("And", .and), ("Or", .or)]

/-- Unary operators with their names. -/
def UnaryOp.names : List (String × UnaryOp) :=
  [("Negate", .negate), ("Not", .not)]

/-- Primitives with their names. -/
def Primitive.names : List (String × Primitive) :=
  [("ReadLine", .readLine), ("Write", .write), ("Print", .print), ("ToInt", .toInt),
    ("ToFloat", .toFloat), ("ToStr", .toStr), ("Exit", .exit)]

/-- The name that a table gives to a choice. -/
def nameOf {α : Type} [DecidableEq α] (table : List (String × α)) (x : α) : String :=
  ((table.find? fun entry => entry.2 = x).map Prod.fst).getD ""

/-- The choice that a table has under a name. -/
def named? {α : Type} (table : List (String × α)) (name : String) : Option α :=
  (table.find? fun entry => entry.1 == name).map Prod.snd

/-! ## Writing -/

/-- A choice with contents. -/
def Json.choice (name : String) (contents : Json) : Json :=
  .object [(name, contents)]

/-- A literal as JSON. -/
def Literal.toJson : Literal → Json
  | .int n => .choice "Int" (.int n.toInt)
  | .float x => .choice "Float" (.float x.toFloat)
  | .bool b => .choice "Bool" (.bool b)
  | .string s => .choice "String" (.string s)
  | .nil => .string "Nil"

/-- A variable as JSON. -/
def Ref.toJson : Ref → Json
  | .own slot => .choice "Local" (.int slot.toNat)
  | .outer slot => .choice "Closure" (.int slot.toNat)
  | .global name => .choice "Global" (.string name)

mutual

/-- A tree as JSON, with its fields in a fixed order. -/
def Node.toJson : Node → Json
  | .literal value => .choice "Literal" value.toJson
  | .ref target => .choice "Ref" target.toJson
  | .assign target value =>
    .choice "Assign" (.object [("target", target.toJson), ("value", value.toJson)])
  | .unary op operand =>
    .choice "Unary" (.object
      [("operator", .string (nameOf UnaryOp.names op)), ("operand", operand.toJson)])
  | .binary left op right =>
    .choice "Binary" (.object
      [("left", left.toJson), ("operator", .string (nameOf BinaryOp.names op)),
        ("right", right.toJson)])
  | .index target place =>
    .choice "Index" (.object [("target", target.toJson), ("index", place.toJson)])
  | .slice target start stop =>
    .choice "Slice" (.object
      [("target", target.toJson), ("from", start.toJson), ("to", stop.toJson)])
  | .len target => .choice "Len" target.toJson
  | .array elements => .choice "Array" (.array (Node.listToJson elements))
  | .block nodes => .choice "Block" (.array (Node.listToJson nodes))
  | .cond condition thenBranch elseBranch =>
    .choice "If" (.object
      [("condition", condition.toJson), ("then_branch", thenBranch.toJson),
        ("else_branch", Node.optionToJson elseBranch)])
  | .loop condition body =>
    .choice "While" (.object [("condition", condition.toJson), ("body", body.toJson)])
  | .forEach refs iterators body =>
    .choice "For" (.object
      [("refs", .array (refs.map Ref.toJson)), ("iterators", .array (Node.listToJson iterators)),
        ("body", body.toJson)])
  | .yield value => .choice "Yield" value.toJson
  | .function params frameSize body =>
    .choice "Function" (.object
      [("params", .int params.toNat), ("frame_size", .int frameSize.toNat),
        ("body", body.toJson)])
  | .call callee args =>
    .choice "Call" (.object
      [("callee", callee.toJson), ("args", .array (Node.listToJson args))])
  | .ret value => .choice "Return" value.toJson
  | .primitive op args =>
    .choice "Builtin" (.object
      [("builtin", .string (nameOf Primitive.names op)),
        ("args", .array (Node.listToJson args))])

/-- Trees as JSON values. -/
def Node.listToJson : List Node → List Json
  | [] => []
  | node :: nodes => node.toJson :: Node.listToJson nodes

/-- A tree that may be missing, as JSON. -/
def Node.optionToJson : Option Node → Json
  | none => .null
  | some node => node.toJson

end

/-! ## Reading -/

namespace Json

/-- Reads a value below a number of arrays and objects that may still be entered. -/
abbrev Reader (α : Type) := Nat → Json → Option α

/-- The name of a choice and its contents, with the depth left for them. -/
def choice? (depth : Nat) (j : Json) : Option (String × Option (Nat × Json)) :=
  match depth, j with
  | _, .string name => some (name, none)
  | depth + 1, .object [(name, contents)] => some (name, some (depth, contents))
  | _, _ => none

/-- A choice without contents. -/
def unit {α : Type} (table : List (String × α)) : Reader α := fun depth j =>
  match choice? depth j with
  | some (name, none) => named? table name
  | some (name, some (_, .null)) => named? table name
  | _ => none

/-- Items of an array. -/
def list {α : Type} (item : Reader α) : Reader (List α) := fun depth j =>
  match depth, j with
  | depth + 1, .array items => items.mapM (item depth)
  | _, _ => none

/-- The one field with a name; a missing one is null if it may be missing. -/
def oneField? (fields : List (String × Json)) (name : String) (optional : Bool) : Option Json :=
  match fields.filter fun f => f.1 == name with
  | [] => if optional then some .null else none
  | [f] => some f.2
  | _ => none

/-- The contents of named fields in their order, with the depth left for them. -/
def record? (names : List (String × Bool)) (depth : Nat) (j : Json) : Option (Nat × List Json) :=
  match depth, j with
  | depth + 1, .object fields =>
    (names.mapM fun (name, optional) => oneField? fields name optional).map fun js => (depth, js)
  | depth + 1, .array items => if items.length = names.length then some (depth, items) else none
  | _, _ => none

/-- A value that may be null. -/
def option {α : Type} (some? : Reader α) : Reader (Option α) := fun depth j =>
  match j with
  | .null => some none
  | j => (some? depth j).map some

end Json

open Json

/-- Read a literal. -/
def Literal.read : Reader Literal := fun depth j =>
  match choice? depth j with
  | some ("Int", some (_, c)) => c.int64?.map .int
  | some ("Float", some (_, c)) => c.float?.map fun x => .float x
  | some ("Bool", some (_, c)) => c.bool?.map .bool
  | some ("String", some (_, c)) => c.string?.map .string
  | some ("Nil", none) => some .nil
  | some ("Nil", some (_, .null)) => some .nil
  | _ => none

/-- Read a variable. -/
def Ref.read : Reader Ref := fun depth j =>
  match choice? depth j with
  | some ("Local", some (_, c)) => (c.natBelow? UInt16.size).map fun n => .own (UInt16.ofNat n)
  | some ("Closure", some (_, c)) => (c.natBelow? UInt16.size).map fun n => .outer (UInt16.ofNat n)
  | some ("Global", some (_, c)) => c.string?.map .global
  | _ => none

/-- Read a count of 64 bits. -/
def readCount (j : Json) : Option UInt64 :=
  (j.natBelow? UInt64.size).map UInt64.ofNat

/-- Read a tree that is at most `fuel` nodes deep. -/
def Node.readWithin : Nat → Reader Node
  | 0, _, _ => none
  | fuel + 1, depth, j => do
    let node := Node.readWithin fuel
    let (name, contents) ← choice? depth j
    let (depth, contents) ← contents
    let fields (names : List String) := record? (names.map fun name => (name, false)) depth contents
    match name with
    | "Literal" => return .literal (← Literal.read depth contents)
    | "Ref" => return .ref (← Ref.read depth contents)
    | "Assign" =>
      let (depth, [target, value]) ← fields ["target", "value"] | none
      return .assign (← Ref.read depth target) (← node depth value)
    | "Unary" =>
      let (depth, [op, operand]) ← fields ["operator", "operand"] | none
      return .unary (← unit UnaryOp.names depth op) (← node depth operand)
    | "Binary" =>
      let (depth, [left, op, right]) ← fields ["left", "operator", "right"] | none
      return .binary (← node depth left) (← unit BinaryOp.names depth op) (← node depth right)
    | "Index" =>
      let (depth, [target, place]) ← fields ["target", "index"] | none
      return .index (← node depth target) (← node depth place)
    | "Slice" =>
      let (depth, [target, start, stop]) ← fields ["target", "from", "to"] | none
      return .slice (← node depth target) (← node depth start) (← node depth stop)
    | "Len" => return .len (← node depth contents)
    | "Array" => return .array (← list node depth contents)
    | "Block" => return .block (← list node depth contents)
    | "If" =>
      let (depth, [condition, thenBranch, elseBranch]) ← record?
        [("condition", false), ("then_branch", false), ("else_branch", true)] depth contents | none
      return .cond (← node depth condition) (← node depth thenBranch)
        (← option node depth elseBranch)
    | "While" =>
      let (depth, [condition, body]) ← fields ["condition", "body"] | none
      return .loop (← node depth condition) (← node depth body)
    | "For" =>
      let (depth, [refs, iterators, body]) ← fields ["refs", "iterators", "body"] | none
      return .forEach (← list Ref.read depth refs) (← list node depth iterators) (← node depth body)
    | "Yield" => return .yield (← node depth contents)
    | "Function" =>
      let (depth, [params, frameSize, body]) ← fields ["params", "frame_size", "body"] | none
      return .function (← readCount params) (← readCount frameSize) (← node depth body)
    | "Call" =>
      let (depth, [callee, args]) ← fields ["callee", "args"] | none
      return .call (← node depth callee) (← list node depth args)
    | "Return" => return .ret (← node depth contents)
    | "Builtin" =>
      let (depth, [op, args]) ← fields ["builtin", "args"] | none
      return .primitive (← unit Primitive.names depth op) (← list node depth args)
    | _ => none

/-- Read a tree. Each node enters at least one object, so the depth bounds the nodes. -/
def Node.ofJson? (depth : Nat) (j : Json) : Option Node :=
  Node.readWithin (depth + 1) depth j

/-- Read a list of trees. -/
def Node.listOfJson? (depth : Nat) (j : Json) : Option (List Node) :=
  list (Node.readWithin (depth + 1)) depth j

/-- How many arrays and objects of a text may stand inside each other. -/
def Node.textDepth : Nat := 127

/-- Read a program: a text that holds an array of trees. -/
def Node.programOfText? (text : String) : Option (List Node) :=
  (Json.parse? text).bind (Node.listOfJson? Node.textDepth)

end YieldMachine
