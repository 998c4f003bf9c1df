/-!
# Lines of a text

`lines` cuts a text at every line feed. A carriage return right before the line
feed belongs to the terminator; any other one stays in the line. A terminator at
the end of the text opens no further, empty line.
-/

namespace YieldMachine.Text

/-! ## Algorithm -/

/-- Drop one carriage return at the end. -/
def dropReturn (line : List Char) : List Char :=
  match line.reverse with
  | '\r' :: rest => rest.reverse
  | _ => line

/-- Lines of a list of characters; `seen` holds the current line backwards. -/
def linesFrom (seen : List Char) : List Char → List String
  | [] => if seen.isEmpty then [] else [String.ofList seen.reverse]
  | c :: cs =>
    if c = '\n' then String.ofList (dropReturn seen.reverse) :: linesFrom [] cs
    else linesFrom (c :: seen) cs

/-- The lines of a text, without their terminators. -/
def lines (s : String) : List String :=
  linesFrom [] s.toList

end YieldMachine.Text
