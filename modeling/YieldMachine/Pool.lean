import Std.Data.HashMap
import YieldMachine.Value.Basic

/-!
# The constant pool

The constants of a program, numbered in the order in which they were first added.
Nil, integers, doubles, booleans and texts are shared: adding one that is there gives
its number again. Doubles count as the same when their bits are: `0.0` and `-0.0` are two
constants, and so are two that are no numbers but differ in sign or payload. Arrays, errors
and functions are never shared.

    p.index[k]? = some i ↔ the constant at i has the key k
-/

namespace YieldMachine

/-! ## Types -/

/-- What makes two shared constants the same. -/
inductive Key where
  | nil
  | int (n : Int64)
  | float (bits : UInt64)
  | bool (b : Bool)
  | string (s : String)
  deriving DecidableEq, Hashable

/-- The key of a value that is shared. -/
def Value.key? : Value → Option Key
  | .nil => some .nil
  | .int n => some (.int n)
  | .float x => some (.float x.toBits)
  | .bool b => some (.bool b)
  | .string s => some (.string s)
  | _ => none

/-- The constants of a program, with the place of every shared one. -/
structure Pool where
  constants : Array Value
  index : Std.HashMap Key Nat
  index_iff : ∀ k i, index[k]? = some i ↔ constants[i]?.bind Value.key? = some k

/-! ## Lemmas -/

theorem Pool.index_push_none {constants : Array Value} {index : Std.HashMap Key Nat} {v : Value}
    (h : ∀ k i, index[k]? = some i ↔ constants[i]?.bind Value.key? = some k)
    (hv : v.key? = none) (k : Key) (i : Nat) :
    index[k]? = some i ↔ (constants.push v)[i]?.bind Value.key? = some k := by
  rw [h, Array.getElem?_push]
  split
  · next hi => subst hi; simp [hv]
  · rfl

theorem Pool.index_push_some {constants : Array Value} {index : Std.HashMap Key Nat} {v : Value}
    {key : Key} (h : ∀ k i, index[k]? = some i ↔ constants[i]?.bind Value.key? = some k)
    (hv : v.key? = some key) (hk : index[key]? = none) (k : Key) (i : Nat) :
    (index.insert key constants.size)[k]? = some i ↔
      (constants.push v)[i]?.bind Value.key? = some k := by
  rw [Std.HashMap.getElem?_insert, Array.getElem?_push]
  by_cases hkey : key = k
  · subst hkey
    simp only [beq_self_eq_true, if_true, Option.some.injEq]
    split
    · next hi => simp [hi, hv]
    · next hi =>
      rw [← h, hk]
      simp [eq_comm, hi]
  · rw [if_neg (by simpa using hkey), h]
    split
    · next hi => subst hi; simp [hv, hkey]
    · rfl

/-! ## Operations -/

namespace Pool

/-- The pool without constants. -/
def empty : Pool where
  constants := #[]
  index := ∅
  index_iff := by simp

instance : Inhabited Pool := ⟨empty⟩

/-- The number of constants. -/
def size (p : Pool) : Nat :=
  p.constants.size

/-- The constant with a number. -/
def get? (p : Pool) (i : Nat) : Option Value :=
  p.constants[i]?

/-- Add a constant, and give its number. -/
def add (p : Pool) (v : Value) : Nat × Pool :=
  match p with
  | ⟨constants, index, index_iff⟩ =>
    match hv : v.key? with
    | none => (constants.size, ⟨constants.push v, index, index_push_none index_iff hv⟩)
    | some key =>
      match hk : index[key]? with
      | some i => (i, ⟨constants, index, index_iff⟩)
      | none =>
        (constants.size,
          ⟨constants.push v, index.insert key constants.size, index_push_some index_iff hv hk⟩)

/-- Add a text, such as the name of a global variable. -/
def addText (p : Pool) (s : String) : Nat × Pool :=
  p.add (.string s)

end Pool

end YieldMachine
