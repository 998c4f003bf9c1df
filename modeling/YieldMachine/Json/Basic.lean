import YieldMachine.Decimal.Style
import YieldMachine.Text.Quoted

/-!
# JSON values

A JSON value keeps its numbers as they are written and the fields of an object in
their order, repeated ones included. A string with half of a surrogate pair is no
text; such a string, and an object with such a key, is `broken`: it is well formed
and can be passed over, but holds nothing that can be used.
-/

namespace YieldMachine

open Decimal

/-! ## Types -/

/-- A JSON value. -/
inductive Json where
  | null
  | bool (b : Bool)
  | number (lexeme : String)
  | string (s : String)
  | array (items : List Json)
  | object (fields : List (String × Json))
  | broken
  deriving Inhabited

/-! ## Building -/

namespace Json

/-- An integer. -/
def int (n : Int) : Json := .number (intText n)

/-- Doubles are positional from `0.00001` up to below `10^16`, a tie goes to the even digit,
and a positive exponent has a plus sign. -/
def floatStyle : Style := ⟨-4, 16, .even, true⟩

/-- A double; what is not finite is null. -/
def float (x : Float) : Json :=
  match Parts.of x with
  | .finite negative m q => .number (floatStyle.finite negative m q)
  | _ => .null

/-! ## Reading -/

/-- The first field with a name. -/
def field? (j : Json) (name : String) : Option Json :=
  match j with
  | .object fields => (fields.find? fun f => f.1 == name).map Prod.snd
  | _ => none

/-- The items of an array. -/
def items? : Json → Option (List Json)
  | .array items => some items
  | _ => none

/-- The text of a string. -/
def string? : Json → Option String
  | .string s => some s
  | _ => none

/-- The boolean. -/
def bool? : Json → Option Bool
  | .bool b => some b
  | _ => none

/-! ## Writing -/

/-- How one character is written inside a string: a quote, a backslash and control
characters below U+0020 are escaped, and nothing else. -/
def escapeChar (c : Char) : String :=
  match c with
  | '"' => "\\\""
  | '\\' => "\\\\"
  | '\n' => "\\n"
  | '\r' => "\\r"
  | '\t' => "\\t"
  | '\x08' => "\\b"
  | '\x0c' => "\\f"
  | c => if c.toNat < 0x20 then "\\u" ++ Text.hexPadded 4 c.toNat else c.toString

/-- Write a string behind `out`. -/
def writeString (out : String) (s : String) : String :=
  s.toList.foldl (fun out c => out ++ escapeChar c) (out ++ "\"") ++ "\""

mutual

/-- Write a value behind `out`, without blanks. -/
def write (out : String) : Json → String
  | .null => out ++ "null"
  | .bool b => out ++ (if b then "true" else "false")
  | .number lexeme => out ++ lexeme
  | .string s => writeString out s
  | .array items => writeItems (out ++ "[") true items ++ "]"
  | .object fields => writeFields (out ++ "\x7b") true fields ++ "\x7d"
  | .broken => out ++ "null"

/-- Write items behind `out`, with a comma before each but the first of the list. -/
def writeItems (out : String) (isFirst : Bool) : List Json → String
  | [] => out
  | j :: rest => writeItems (write (if isFirst then out else out ++ ",") j) false rest

/-- Write fields behind `out`, with a comma before each but the first of the list. -/
def writeFields (out : String) (isFirst : Bool) : List (String × Json) → String
  | [] => out
  | (name, j) :: rest =>
    writeFields (write (writeString (if isFirst then out else out ++ ",") name ++ ":") j) false rest

end

/-- The text of a value, without blanks. -/
def text (j : Json) : String :=
  j.write ""

end Json

end YieldMachine
