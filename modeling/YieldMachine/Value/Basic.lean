import YieldMachine.Decimal.Style
import YieldMachine.Value.Double

/-!
# Values

A value is a 64-bit integer, a double, a boolean, a text, an immutable array, an
error that carries its message, a function or nil. A function knows where its body
starts and, by number, the frame of the activation that made it; frames themselves
live in a heap, so values hold no cycles.

    weakEq    the language's `==`: numbers compare after promotion, functions never equal
    strictEq  same kind and same content; any two functions are the same
-/

namespace YieldMachine

open Decimal

/-! ## Types -/

/-- The number of a frame in the heap. -/
abbrev FrameId := Nat

/-- A function: where its body starts, its parameters, the slots of a frame for one
call, and the frame of the activation that made it. -/
structure Func where
  entry : Nat
  params : Nat
  frameSize : Nat
  captured : Option FrameId
  deriving DecidableEq, Repr, Inhabited

/-- The values of the language. -/
inductive Value where
  | int (n : Int64)
  | float (x : Double)
  | bool (b : Bool)
  | string (s : String)
  | array (items : Array Value)
  | error (message : String)
  | function (f : Func)
  | nil
  deriving Inhabited

/-- The kinds of values. -/
inductive Kind where
  | int | float | bool | string | array | error | function | nil
  deriving DecidableEq, Repr

/-! ## Kinds -/

/-- The name of a kind. -/
def Kind.name : Kind → String
  | .int => "int"
  | .float => "float"
  | .bool => "bool"
  | .string => "string"
  | .array => "array"
  | .error => "error"
  | .function => "function"
  | .nil => "nil"

/-- The kind of a value. -/
def Value.kind : Value → Kind
  | .int _ => .int
  | .float _ => .float
  | .bool _ => .bool
  | .string _ => .string
  | .array _ => .array
  | .error _ => .error
  | .function _ => .function
  | .nil => .nil

/-- Is the value an error? -/
def Value.isError : Value → Bool
  | .error _ => true
  | _ => false

/-- Is the value nil? -/
def Value.isNil : Value → Bool
  | .nil => true
  | _ => false

/-- What is said when a value of another kind was asked for. -/
def Value.mismatch (v : Value) (expected : Kind) : String :=
  "expected " ++ expected.name ++ " value, found " ++ v.kind.name

/-! ## Numbers -/

/-- The double that an integer becomes where it meets one: the nearest, and of two nearest the
one with an even significand. `Int64.toFloat` gives the same, but no proof can look into it. -/
def promote (n : Int64) : Float :=
  .ofModel (.ofInt64 n)

/-! ## Equality -/

mutual

/-- The language's equality: numbers compare after promotion to doubles, arrays
element by element, and a function equals nothing. -/
def Value.weakEq : Value → Value → Bool
  | .int a, .int b => a == b
  | .float a, .float b => a == b
  | .int a, .float b => promote a == b.toFloat
  | .float a, .int b => a.toFloat == promote b
  | .bool a, .bool b => a == b
  | .string a, .string b => a == b
  | .error a, .error b => a == b
  | .array ⟨xs⟩, .array ⟨ys⟩ => Value.weakEqList xs ys
  | .nil, .nil => true
  | _, _ => false

/-- Weak equality of lists of the same length, element by element. -/
def Value.weakEqList : List Value → List Value → Bool
  | [], [] => true
  | x :: xs, y :: ys => x.weakEq y && Value.weakEqList xs ys
  | _, _ => false

end

mutual

/-- Same kind and same content. Doubles compare as numbers, and all functions agree. -/
def Value.strictEq : Value → Value → Bool
  | .int a, .int b => a == b
  | .float a, .float b => a == b
  | .bool a, .bool b => a == b
  | .string a, .string b => a == b
  | .error a, .error b => a == b
  | .array ⟨xs⟩, .array ⟨ys⟩ => Value.strictEqList xs ys
  | .function _, .function _ => true
  | .nil, .nil => true
  | _, _ => false

/-- Strict equality of lists of the same length, element by element. -/
def Value.strictEqList : List Value → List Value → Bool
  | [], [] => true
  | x :: xs, y :: ys => x.strictEq y && Value.strictEqList xs ys
  | _, _ => false

end

/-! ## Text -/

/-- Doubles are positional from `0.0001` up to below `10^16`, a tie goes up, and a
positive exponent has no sign. -/
def Value.floatStyle : Style := ⟨-3, 16, .up, false⟩

mutual

/-- Write a value behind `out`. -/
def Value.write (out : String) : Value → String
  | .int n => out ++ intText n.toInt
  | .float x => out ++ Value.floatStyle.text x.toFloat
  | .bool b => out ++ (if b then "true" else "false")
  | .string s => out ++ s
  | .array ⟨xs⟩ => Value.writeList (out ++ "[") true xs ++ "]"
  | .error message => out ++ "error: " ++ message
  | .function f => out ++ "<fn @" ++ intText f.entry ++ ">"
  | .nil => out ++ "nil"

/-- Write elements behind `out`, with a comma before each but the first of the list. -/
def Value.writeList (out : String) (isFirst : Bool) : List Value → String
  | [] => out
  | x :: xs => Value.writeList (Value.write (if isFirst then out else out ++ ", ") x) false xs

end

/-- The text of a value. -/
def Value.text (v : Value) : String :=
  v.write ""

/-- The text that shows what a function holds. -/
def Func.describe (f : Func) : String :=
  "Function \x7b entry: " ++ intText f.entry ++ ", params: " ++ intText f.params ++
    ", frame_size: " ++ intText f.frameSize ++
    ", captured: " ++ (if f.captured.isSome then "true" else "false") ++ " \x7d"

end YieldMachine
