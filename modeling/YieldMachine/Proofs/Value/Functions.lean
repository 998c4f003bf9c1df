import YieldMachine.Value.Conversion
import YieldMachine.Value.Sequence

/-!
# The functions inside a value

A function may stand in an array, however deep. `v.AllFunctions F` says that every
function inside `v` has the property `F`. No operation makes a function of its own, so
every operation keeps such a property.
-/

namespace YieldMachine

/-! ## Definition -/

mutual

/-- Does every function inside a value have a property? -/
def Value.AllFunctions (F : Func → Prop) : Value → Prop
  | .function f => F f
  | .array ⟨items⟩ => Value.AllFunctionsList F items
  | _ => True

/-- Does every function inside some values have a property? -/
def Value.AllFunctionsList (F : Func → Prop) : List Value → Prop
  | [] => True
  | v :: vs => v.AllFunctions F ∧ Value.AllFunctionsList F vs

end

/-! ## Lemmas -/

variable {F G : Func → Prop}

theorem Value.allFunctionsList_iff (vs : List Value) :
    Value.AllFunctionsList F vs ↔ ∀ v ∈ vs, v.AllFunctions F := by
  induction vs with
  | nil => simp [Value.AllFunctionsList]
  | cons v vs ih => simp [Value.AllFunctionsList, ih]

theorem Value.allFunctions_array {items : Array Value} :
    (Value.array items).AllFunctions F ↔ ∀ v ∈ items, v.AllFunctions F := by
  obtain ⟨items⟩ := items
  rw [Value.AllFunctions, Value.allFunctionsList_iff]
  simp

@[simp] theorem Value.allFunctions_int (n : Int64) : (Value.int n).AllFunctions F := trivial
@[simp] theorem Value.allFunctions_float (x : Double) : (Value.float x).AllFunctions F := trivial
@[simp] theorem Value.allFunctions_bool (b : Bool) : (Value.bool b).AllFunctions F := trivial
@[simp] theorem Value.allFunctions_string (s : String) : (Value.string s).AllFunctions F := trivial
@[simp] theorem Value.allFunctions_error (s : String) : (Value.error s).AllFunctions F := trivial
@[simp] theorem Value.allFunctions_nil : Value.nil.AllFunctions F := trivial
@[simp] theorem ValueError.allFunctions_value (e : ValueError) : e.value.AllFunctions F := trivial

mutual

theorem Value.AllFunctions.mono (h : ∀ f, F f → G f) {v : Value} (hv : v.AllFunctions F) :
    v.AllFunctions G := by
  match v, hv with
  | .function f, hv => exact h f hv
  | .array ⟨items⟩, hv => exact Value.AllFunctionsList.mono h hv
  | .int _, _ | .float _, _ | .bool _, _ | .string _, _ | .error _, _ | .nil, _ => exact trivial

theorem Value.AllFunctionsList.mono (h : ∀ f, F f → G f) {vs : List Value}
    (hv : Value.AllFunctionsList F vs) : Value.AllFunctionsList G vs := by
  match vs, hv with
  | [], _ => exact trivial
  | _ :: _, ⟨hv, hvs⟩ => exact ⟨Value.AllFunctions.mono h hv, Value.AllFunctionsList.mono h hvs⟩

end

mutual

/-- What holds of every function holds of those inside a value. -/
theorem Value.AllFunctions.of_forall (h : ∀ f, F f) (v : Value) : v.AllFunctions F := by
  match v with
  | .function f => exact h f
  | .array ⟨items⟩ => exact Value.AllFunctionsList.of_forall h items
  | .int _ | .float _ | .bool _ | .string _ | .error _ | .nil => exact trivial

theorem Value.AllFunctionsList.of_forall (h : ∀ f, F f) (vs : List Value) :
    Value.AllFunctionsList F vs := by
  match vs with
  | [] => exact trivial
  | v :: vs => exact ⟨Value.AllFunctions.of_forall h v, Value.AllFunctionsList.of_forall h vs⟩

end

/-! ## Operators -/

theorem Value.firstError_allFunctions {vs : List Value} {e : Value}
    (h : Value.firstError vs = some e) : e.AllFunctions F := by
  induction vs with
  | nil => cases h
  | cons v vs ih =>
    unfold Value.firstError at h
    split at h
    · next hv =>
      cases h
      cases e with
      | error message => trivial
      | _ => cases hv
    · exact ih h

theorem BinaryOp.mismatch_allFunctions (op : BinaryOp) (left right : Value) :
    (op.mismatch left right).AllFunctions F := by
  unfold BinaryOp.mismatch
  split <;> trivial

theorem BinaryOp.intArith_allFunctions (op : BinaryOp) (a b : Int64) :
    (op.intArith a b).AllFunctions F := by
  unfold BinaryOp.intArith
  split
  case h_4 | h_5 => split <;> trivial
  case h_6 => exact op.mismatch_allFunctions _ _
  all_goals trivial

theorem BinaryOp.floatArith_allFunctions (op : BinaryOp) (a b : Float) :
    (op.floatArith a b).AllFunctions F := by
  unfold BinaryOp.floatArith
  split
  case h_6 => exact op.mismatch_allFunctions _ _
  all_goals trivial

theorem BinaryOp.arith_allFunctions (op : BinaryOp) {left right : Value}
    (hl : left.AllFunctions F) (hr : right.AllFunctions F) :
    (op.arith left right).AllFunctions F := by
  unfold BinaryOp.arith
  split
  · exact op.intArith_allFunctions _ _
  · exact op.floatArith_allFunctions _ _
  · exact op.floatArith_allFunctions _ _
  · exact op.floatArith_allFunctions _ _
  · split
    · trivial
    · exact op.mismatch_allFunctions _ _
  · split
    · rw [Value.allFunctions_array] at hl hr ⊢
      intro v hv
      rcases Array.mem_append.1 hv with hv | hv
      · exact hl v hv
      · exact hr v hv
    · exact op.mismatch_allFunctions _ _
  · exact op.mismatch_allFunctions _ _

theorem BinaryOp.relational_allFunctions (op : BinaryOp) (left right : Value) :
    (op.relational left right).AllFunctions F := by
  unfold BinaryOp.relational
  split
  case h_6 => exact op.mismatch_allFunctions _ _
  all_goals trivial

theorem BinaryOp.logic_allFunctions (op : BinaryOp) (left right : Value) :
    (op.logic left right).AllFunctions F := by
  unfold BinaryOp.logic
  split <;> trivial

/-- Operators keep what is said about functions. -/
theorem BinaryOp.apply_allFunctions (op : BinaryOp) {left right : Value}
    (hl : left.AllFunctions F) (hr : right.AllFunctions F) :
    (op.apply left right).AllFunctions F := by
  unfold BinaryOp.apply
  split
  · next he => exact Value.firstError_allFunctions he
  · split
    case h_6 | h_7 => trivial
    case h_8 | h_9 | h_10 | h_11 => exact BinaryOp.relational_allFunctions _ _ _
    case h_12 | h_13 => exact BinaryOp.logic_allFunctions _ _ _
    all_goals exact BinaryOp.arith_allFunctions _ hl hr

theorem UnaryOp.apply_allFunctions (op : UnaryOp) (operand : Value) :
    (op.apply operand).AllFunctions F := by
  unfold UnaryOp.apply
  split <;> trivial

/-! ## Sequences and conversions -/

theorem Value.index_allFunctions {target place : Value} (ht : target.AllFunctions F) :
    (target.index place).AllFunctions F := by
  unfold Value.index
  split
  · next he => exact Value.firstError_allFunctions he
  · dsimp only
    split
    · next length i hlen _ =>
      cases hp : (position? i length).bind target.elementAt? with
      | none => trivial
      | some v =>
        obtain ⟨k, -, hk⟩ := Option.bind_eq_some_iff.1 hp
        show v.AllFunctions F
        unfold Value.elementAt? at hk
        split at hk
        · obtain ⟨c, -, rfl⟩ := Option.map_eq_some_iff.1 hk
          trivial
        · exact Value.allFunctions_array.1 ht v (Array.mem_of_getElem? hk)
        · cases hk
    · trivial

theorem Value.part?_allFunctions {target v : Value} {start stop : Nat}
    (ht : target.AllFunctions F) (h : target.part? start stop = some v) : v.AllFunctions F := by
  unfold Value.part? at h
  split at h
  · cases h
    trivial
  · cases h
    rw [Value.allFunctions_array] at ht ⊢
    intro w hw
    obtain ⟨k, hk, rfl⟩ := Array.mem_extract_iff_getElem.1 hw
    exact ht _ (Array.getElem_mem _)
  · cases h

theorem Value.slice_allFunctions {target : Value} (start stop : Value)
    (ht : target.AllFunctions F) : (target.slice start stop).AllFunctions F := by
  unfold Value.slice
  split
  · next he => exact Value.firstError_allFunctions he
  · dsimp only
    split
    · trivial
    · split
      · split
        · cases hp : target.part? _ _ with
          | none => trivial
          | some v => exact Value.part?_allFunctions ht hp
        · trivial
      · trivial
      · trivial

theorem Value.len_allFunctions (target : Value) : target.len.AllFunctions F := by
  unfold Value.len
  split
  · trivial
  · split <;> trivial

theorem Value.toInt_allFunctions (v : Value) : v.toInt.AllFunctions F := by
  unfold Value.toInt
  split
  case h_4 =>
    dsimp only
    split
    · trivial
    · split
      · split <;> trivial
      · trivial
  all_goals trivial

theorem Value.toFloat_allFunctions (v : Value) : v.toFloat.AllFunctions F := by
  unfold Value.toFloat
  split
  case h_4 => split <;> trivial
  all_goals trivial

end YieldMachine
