import YieldMachine.Value.Arithmetic

/-!
# Sequences

Texts and arrays are sequences: a text of its characters, an array of its elements.
They have a length, can be indexed from 0 on, and can be cut by a range `start:stop`
with `0 ≤ start ≤ stop ≤ length`.
-/

namespace YieldMachine

/-! ## Algorithm -/

/-- The length of a sequence; none for other values. -/
def Value.seqLength? : Value → Option Nat
  | .string s => some s.length
  | .array items => some items.size
  | _ => none

/-- The position that an index stands for, when there is one. -/
def position? (index : Int64) (length : Nat) : Option Nat :=
  let i := index.toInt
  if 0 ≤ i ∧ i < length then some i.toNat else none

/-- The element of a sequence at a position inside it. -/
def Value.elementAt? (v : Value) (i : Nat) : Option Value :=
  match v with
  | .string s => s.toList[i]?.map fun c => .string (String.ofList [c])
  | .array items => items[i]?
  | _ => none

/-- The part of a sequence from `start` up to `stop`. -/
def Value.part? (v : Value) (start stop : Nat) : Option Value :=
  match v with
  | .string s => some (.string (String.ofList ((s.toList.drop start).take (stop - start))))
  | .array items => some (.array (items.extract start stop))
  | _ => none

/-- Index a sequence: `target[index]`. -/
def Value.index (target place : Value) : Value :=
  match Value.firstError [target, place] with
  | some e => e
  | none =>
    let refused := (ValueError.operands "[]" target.kind place.kind).value
    match target.seqLength?, place with
    | some length, .int i =>
      ((position? i length).bind target.elementAt?).getD (ValueError.index i.toInt length).value
    | _, _ => refused

/-- Cut a sequence: `target[start:stop]`. -/
def Value.slice (target start stop : Value) : Value :=
  match Value.firstError [target, start, stop] with
  | some e => e
  | none =>
    let refused (v : Value) := (ValueError.operands "[:]" target.kind v.kind).value
    match target.seqLength? with
    | none => refused start
    | some length =>
      match start, stop with
      | .int a, .int b =>
        let i := a.toInt
        let j := b.toInt
        if 0 ≤ i ∧ i ≤ j ∧ j ≤ length then
          (target.part? i.toNat j.toNat).getD (refused start)
        else (ValueError.slice i j length).value
      | .int _, _ => refused stop
      | _, _ => refused start

/-- The number of characters or elements. -/
def Value.len (target : Value) : Value :=
  match target with
  | .error message => .error message
  | _ =>
    match target.seqLength? with
    | some n => .int (Int64.ofNat n)
    | none => (ValueError.operand "len" target.kind).value

end YieldMachine
