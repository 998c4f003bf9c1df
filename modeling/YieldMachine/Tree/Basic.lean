import YieldMachine.Operator
import YieldMachine.Value.Double

/-!
# Resolved trees

The programs of the language, as trees in which every variable is already known to
be a slot of the running activation, a slot of the activation that made the running
function, or a global.
-/

namespace YieldMachine

/-! ## Types -/

/-- A literal constant. -/
inductive Literal where
  | int (n : Int64)
  | float (x : Double)
  | bool (b : Bool)
  | string (s : String)
  | nil
  deriving Inhabited, BEq

/-- A variable. -/
inductive Ref where
  /-- A slot of the running activation. -/
  | own (slot : UInt16)
  /-- A slot of the activation that made the running function. -/
  | outer (slot : UInt16)
  /-- A global, looked up by name at run time. -/
  | global (name : String)
  deriving DecidableEq, Inhabited

/-- A node of a resolved tree. -/
inductive Node where
  | literal (value : Literal)
  | ref (target : Ref)
  /-- Assignment; its value is the value assigned. -/
  | assign (target : Ref) (value : Node)
  | unary (op : UnaryOp) (operand : Node)
  | binary (left : Node) (op : BinaryOp) (right : Node)
  | index (target place : Node)
  | slice (target start stop : Node)
  | len (target : Node)
  | array (elements : List Node)
  /-- Nodes in order; the value is that of the last, or nil without one. -/
  | block (nodes : List Node)
  | cond (condition thenBranch : Node) (elseBranch : Option Node)
  | loop (condition body : Node)
  /-- One variable per iterator, all advanced once per pass. -/
  | forEach (refs : List Ref) (iterators : List Node) (body : Node)
  /-- Hand a value to the loop that consumes. -/
  | yield (value : Node)
  /-- A function; `frameSize` counts every slot of the body, parameters included. -/
  | function (params frameSize : UInt64) (body : Node)
  | call (callee : Node) (args : List Node)
  | ret (value : Node)
  | primitive (op : Primitive) (args : List Node)
  deriving Inhabited

/-! ## Equality -/

mutual

/-- The same tree; doubles compare as numbers. -/
def Node.same : Node → Node → Bool
  | .literal a, .literal b => a == b
  | .ref a, .ref b => a == b
  | .assign a x, .assign b y => a == b && x.same y
  | .unary a x, .unary b y => a == b && x.same y
  | .binary x a x', .binary y b y' => a == b && x.same y && x'.same y'
  | .index x x', .index y y' => x.same y && x'.same y'
  | .slice x x' x'', .slice y y' y'' => x.same y && x'.same y' && x''.same y''
  | .len x, .len y => x.same y
  | .array xs, .array ys => Node.sameList xs ys
  | .block xs, .block ys => Node.sameList xs ys
  | .cond x x' e, .cond y y' f => x.same y && x'.same y' && Node.sameOption e f
  | .loop x x', .loop y y' => x.same y && x'.same y'
  | .forEach a xs x, .forEach b ys y => a == b && Node.sameList xs ys && x.same y
  | .yield x, .yield y => x.same y
  | .function p s x, .function p' s' y => p == p' && s == s' && x.same y
  | .call x xs, .call y ys => x.same y && Node.sameList xs ys
  | .ret x, .ret y => x.same y
  | .primitive a xs, .primitive b ys => a == b && Node.sameList xs ys
  | _, _ => false

/-- The same trees in the same order. -/
def Node.sameList : List Node → List Node → Bool
  | [], [] => true
  | x :: xs, y :: ys => x.same y && Node.sameList xs ys
  | _, _ => false

/-- Both missing, or the same tree. -/
def Node.sameOption : Option Node → Option Node → Bool
  | none, none => true
  | some x, some y => x.same y
  | _, _ => false

end

end YieldMachine
