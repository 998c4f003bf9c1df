import YieldMachine.Proofs.Machine.Exact
import YieldMachine.Tree.Basic
import YieldMachine.Value.Conversion
import YieldMachine.Value.Sequence

/-!
# Walking the tree

What a program means, without code: a walk evaluates the nodes of a tree from left to
right, the arguments of a call before its callee, and reads each variable when its turn
comes. A call gets a fresh frame, and a function remembers the frame that it was made in.

The text of a function shows where its body starts, so a walk is told the entries that were
chosen for the functions of its tree. It finds the body of a function by its entry, among the
bodies of its own tree and of those before.

    eval bodies fuel locals entries node    the walk through a node
    statement bodies fuel entries node      the walk through a whole tree
-/

namespace YieldMachine.Walk

/-! ## Types -/

/-- The entries of the functions in a tree, by the paths to them. -/
abbrev Entries := List Nat → Nat

/-- The entries in a child of the root. -/
def Entries.under (e : Entries) (i : Nat) : Entries :=
  fun path => e (i :: path)

/-- The entries of a tree, from the root's and those in its children. -/
def Entries.join (root : Nat) (es : Nat → Entries) : Entries
  | [] => root
  | i :: path => es i path

/-- The body of a function, with the entries of the functions in it. -/
structure Body where
  node : Node
  entries : Entries

/-- The bodies of functions, by their entries. -/
abbrev Bodies := Nat → Option Body

/-- No bodies. -/
def Bodies.empty : Bodies :=
  fun _ => none

/-- Bodies with those of a list, which come first. -/
def Bodies.add (bodies : Bodies) (made : List (Nat × Body)) : Bodies :=
  fun entry => (made.lookup entry).or (bodies entry)

/-- The frame of the running activation, and the frame that its function was made in. -/
structure Locals where
  own : Option FrameId
  outer : Option FrameId

/-- Why a walk ends before its tree does. -/
inductive Stop where
  /-- The innermost activation is left. -/
  | returned (v : Value)
  /-- The program stopped itself. -/
  | exited (status : Int64)
  | fatal
  /-- Nobody knows the body of a function that is called. -/
  | lost
  /-- The fuel is spent. -/
  | spent

end Walk

open Walk

/-- A part of a walk, which keeps what it did until it stopped. -/
abbrev Walk (α : Type) := EStateM Stop World α

/-! ## Variables -/

/-- What a variable holds, if there is such a variable. -/
def World.read? (w : World) (l : Locals) : Ref → Option Value
  | .own slot => w.slot? l.own slot.toNat
  | .outer slot => w.slot? l.outer slot.toNat
  | .global name => some (w.globals name)

/-- The world with a variable set, if there is such a variable. -/
def World.write? (w : World) (l : Locals) (target : Ref) (v : Value) : Option World :=
  match target with
  | .own slot => w.setSlot? l.own slot.toNat v
  | .outer slot => w.setSlot? l.outer slot.toNat v
  | .global name => some (w.set name v)

namespace Walk

/-- Read a variable. -/
def read (l : Locals) (target : Ref) : Walk Value := do
  match (← get).read? l target with
  | some v => return v
  | none => throw .fatal

/-- Change the world, if that is possible. -/
def change (f : World → Option World) : Walk Unit := do
  match f (← get) with
  | some w => set w
  | none => throw .fatal

/-! ## Steps of a walk -/

/-- Walk through nodes in order, and gather their values. -/
def each (walk : Entries → Node → Walk Value) (es : Nat → Entries) :
    List Node → Walk (List Value)
  | [] => return []
  | node :: nodes => do
    let v ← walk (es 0) node
    let vs ← each walk (fun i => es (i + 1)) nodes
    return v :: vs

/-- Walk through nodes in order; the value is that of the last, or nil without one. -/
def inOrder (walk : Entries → Node → Walk Value) (es : Nat → Entries) : List Node → Walk Value
  | [] => return .nil
  | [last] => walk (es 0) last
  | node :: nodes => do
    let _ ← walk (es 0) node
    inOrder walk (fun i => es (i + 1)) nodes

/-- Walk through a node that may be missing; then the value is nil. -/
def optional (walk : Node → Walk Value) : Option Node → Walk Value
  | none => return .nil
  | some node => walk node

/-- Only a boolean can be tested. -/
def truth : Value → Walk Bool
  | .bool b => return b
  | _ => throw .fatal

/-- Repeat a body while a test is true; the value is that of the last pass. -/
def whileTrue (test body : Walk Value) : Nat → Value → Walk Value
  | 0, _ => throw .spent
  | fuel + 1, last => do
    if ← truth (← test) then
      let v ← body
      whileTrue test body fuel v
    else return last

/-- Walk through the body of a function, whose frame starts with the arguments. -/
def enter (bodies : Bodies) (walk : Locals → Body → Walk Value) (f : Func) (args : List Value) :
    Walk Value := do
  match bodies f.entry with
  | none => throw .lost
  | some body =>
    let w ← get
    set { w with heap := w.heap.push (Frame.ofArgs args.toArray f.frameSize) }
    walk ⟨some w.heap.size, f.captured⟩ body

/-- A return goes no further. -/
def untilReturn (x : Walk Value) : Walk Value := fun w =>
  match x w with
  | .error (.returned v) w => .ok v w
  | result => result

/-- Call a value. -/
def call (bodies : Bodies) (walk : Locals → Body → Walk Value) (callee : Value)
    (args : List Value) : Walk Value :=
  match callee with
  | .function f =>
    if f.params ≠ args.length then return (ValueError.arity f.params args.length).value
    else untilReturn (enter bodies walk f args)
  | .error message => return .error message
  | other => return (ValueError.notCallable other.kind).value

/-- Read a line; nil at the end of the input. -/
def readLine : Walk Value := do
  let w ← get
  set { w with console := w.console.read.2 }
  return w.console.read.1.elim .nil .string

/-- Write a text. -/
def write (text : String) : Walk Value := do
  modify fun w => { w with console := w.console.write text }
  return .nil

/-- Perform a primitive on its argument, if it has one. -/
def perform (op : Primitive) (arg : Value) : Walk Value :=
  match op with
  | .readLine => readLine
  | .write => write arg.text
  | .print => write (arg.text ++ "\n")
  | .toInt => return arg.toInt
  | .toFloat => return arg.toFloat
  | .toStr => return arg.toStr
  | .exit => throw (.exited arg.exitStatus)

/-! ## Nodes -/

end Walk

mutual

/-- The functions of a tree: their entries and their bodies. -/
def Node.functions (e : Entries) : Node → List (Nat × Body)
  | .literal _ | .ref _ => []
  | .assign _ node | .unary _ node | .len node | .yield node | .ret node =>
    node.functions (e.under 0)
  | .binary left _ right => left.functions (e.under 0) ++ right.functions (e.under 1)
  | .index target place => target.functions (e.under 0) ++ place.functions (e.under 1)
  | .slice target start stop =>
    target.functions (e.under 0) ++ start.functions (e.under 1) ++ stop.functions (e.under 2)
  | .array nodes | .block nodes | .primitive _ nodes => Node.functionsOf e.under nodes
  | .cond condition thenBranch elseBranch =>
    condition.functions (e.under 0) ++ thenBranch.functions (e.under 1) ++
      Node.functionsOption (e.under 2) elseBranch
  | .loop condition body => condition.functions (e.under 0) ++ body.functions (e.under 1)
  | .forEach _ iterators body =>
    body.functions (e.under 0) ++ Node.functionsOf (fun i => e.under (i + 1)) iterators
  | .function _ _ body => (e [], ⟨body, e.under 0⟩) :: body.functions (e.under 0)
  | .call callee args =>
    callee.functions (e.under 0) ++ Node.functionsOf (fun i => e.under (i + 1)) args

/-- The functions of trees in a row. -/
def Node.functionsOf (es : Nat → Entries) : List Node → List (Nat × Body)
  | [] => []
  | node :: nodes => node.functions (es 0) ++ Node.functionsOf (fun i => es (i + 1)) nodes

/-- The functions of a tree that may be missing. -/
def Node.functionsOption (e : Entries) : Option Node → List (Nat × Body)
  | none => []
  | some node => node.functions e

end

namespace Walk

section

variable (bodies : Bodies)

/-- Walk through a node. -/
def eval : Nat → Locals → Entries → Node → Walk Value
  | 0, _, _, _ => throw .spent
  | fuel + 1, l, e, node =>
    match node with
    | .literal value => return value.value
    | .ref target => read l target
    | .assign target value => do
      let v ← eval fuel l (e.under 0) value
      change fun w => w.write? l target v
      return v
    | .unary op operand => do
      return op.apply (← eval fuel l (e.under 0) operand)
    | .binary left op right => do
      let x ← eval fuel l (e.under 0) left
      let y ← eval fuel l (e.under 1) right
      return op.apply x y
    | .index target place => do
      let x ← eval fuel l (e.under 0) target
      let y ← eval fuel l (e.under 1) place
      return x.index y
    | .slice target start stop => do
      let x ← eval fuel l (e.under 0) target
      let y ← eval fuel l (e.under 1) start
      let z ← eval fuel l (e.under 2) stop
      return x.slice y z
    | .len target => do
      return (← eval fuel l (e.under 0) target).len
    | .array elements => do
      return .array (← each (eval fuel l) e.under elements).toArray
    | .block nodes => inOrder (eval fuel l) e.under nodes
    | .cond condition thenBranch elseBranch => do
      if ← truth (← eval fuel l (e.under 0) condition) then eval fuel l (e.under 1) thenBranch
      else optional (eval fuel l (e.under 2)) elseBranch
    | .loop condition body =>
      whileTrue (eval fuel l (e.under 0) condition) (eval fuel l (e.under 1) body) fuel .nil
    | .function params frameSize _ =>
      return .function ⟨e [], params.toNat, max params.toNat frameSize.toNat, l.own⟩
    | .call callee args => do
      let vs ← each (eval fuel l) (fun i => e.under (i + 1)) args
      let f ← eval fuel l (e.under 0) callee
      call bodies (fun l body => eval fuel l body.entries body.node) f vs
    | .ret value => do
      throw (.returned (← eval fuel l (e.under 0) value))
    | .primitive op args => do
      match args with
      | [] => perform op .nil
      | arg :: _ => perform op (← eval fuel l (e.under 0) arg)
    | .forEach .. | .yield _ => throw .fatal

end

/-- Walk through a statement, which runs in no activation, and whose functions are known. -/
def statement (bodies : Bodies) (fuel : Nat) (e : Entries) (node : Node) : Walk Value :=
  eval (bodies.add (node.functions e)) fuel ⟨none, none⟩ e node

/-- The world before the first statement. -/
def fresh (console : Console) : World :=
  ⟨Globals.empty.get, #[], console⟩

end Walk

end YieldMachine
