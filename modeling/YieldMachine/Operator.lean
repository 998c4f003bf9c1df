/-!
# Operators and primitives

The binary and unary operators of the language, with the symbol each is written by,
and the primitives for input, output and conversion, with their names and arities.
-/

namespace YieldMachine

/-! ## Types -/

/-- Binary operators. -/
inductive BinaryOp where
  | add | subtract | multiply | divide | modulo
  | equal | notEqual
  | less | lessEqual | greater | greaterEqual
  | and | or
  deriving DecidableEq, Repr, Inhabited

/-- Unary operators. -/
inductive UnaryOp where
  | negate | not
  deriving DecidableEq, Repr, Inhabited

/-- Primitives for input, output, conversion and leaving the program. -/
inductive Primitive where
  | readLine | write | print | toInt | toFloat | toStr | exit
  deriving DecidableEq, Repr, Inhabited

/-! ## Names -/

/-- The symbol of a binary operator. -/
def BinaryOp.symbol : BinaryOp → String
  | .add => "+"
  | .subtract => "-"
  | .multiply => "*"
  | .divide => "/"
  | .modulo => "%"
  | .equal => "=="
  | .notEqual => "!="
  | .less => "<"
  | .lessEqual => "<="
  | .greater => ">"
  | .greaterEqual => ">="
  | .and => "&"
  | .or => "|"

/-- The symbol of a unary operator. -/
def UnaryOp.symbol : UnaryOp → String
  | .negate => "-"
  | .not => "!"

/-- The name of a primitive. -/
def Primitive.name : Primitive → String
  | .readLine => "read_line"
  | .write => "write"
  | .print => "print"
  | .toInt => "int"
  | .toFloat => "float"
  | .toStr => "str"
  | .exit => "exit"

/-- How many arguments a primitive takes. -/
def Primitive.arity : Primitive → Nat
  | .readLine => 0
  | _ => 1

end YieldMachine
