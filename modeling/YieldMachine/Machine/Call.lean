import YieldMachine.Machine.State
import YieldMachine.Value.Error

/-!
# Calls

A call gives a function's body a fresh frame with the arguments in its first slots,
behind the frame that the function captured. Calling what is no function, or with
another number of arguments, consumes the arguments and gives an error value.

A return leaves the innermost call. An iterator has no call of its own: a return in
one leaves the call of the consumer behind it. Producers of the loops that are left
are discarded without being continued.
-/

namespace YieldMachine

/-! ## Contexts -/

namespace Context

/-- The context that runs a function's body: the arguments above `base` went into the
frame `id`. -/
def enter (c : Context) (f : Func) (base : Nat) (id : FrameId) : Context :=
  match c with
  | ⟨ip, stack, frames, calls, loops, pending⟩ =>
    let record := ⟨ip, base, frames.size, loops.size⟩
    let frames := match f.captured with
      | some captured => frames.push captured
      | none => frames
    ⟨f.entry, stack.shrink base, frames.push id, calls.push record, loops, pending⟩

/-- How many contexts go away with a context's groups above a depth. -/
def discardedAbove (c : Context) (depth : Nat) : Nat :=
  (c.loops.extract depth c.loops.size).toList.foldr (fun group n => Group.discarded group + n) 0

/-- Are frames missing that a caller had? -/
def lacksFrames (c : Context) (depth : Nat) : Bool :=
  c.frames.size < depth

/-- A context after its innermost call: what the call put on the stack, its frames and
its groups are gone. -/
def leave (c : Context) (record : CallRecord) : Context :=
  match c with
  | ⟨ip, stack, frames, calls, loops, pending⟩ =>
    ⟨ip, stack.shrink record.stackBase, frames.shrink record.frameDepth, calls.pop,
      loops.shrink record.loopDepth, pending⟩

end Context

namespace Action

/-! ## Calling -/

/-- Make the function whose body starts by `entry`, with the innermost frame captured. -/
def makeFunction (program : Program) (limits : Limits) (ip : Nat)
    (entry params frameSize : Operand) : Action Unit := do
  let start ← target program ip entry
  let captured := (← get).active.frames.at? 0
  push limits (.function ⟨start, params.address.toNat, frameSize.address.toNat, captured⟩)

/-- Take the arguments off the stack and push the result of a call that is refused. -/
def refuse (limits : Limits) (base : Nat) (result : Value) : Action Unit := do
  truncate base
  push limits result

/-- Run the body of a function with the arguments above `base`. -/
def enter (f : Func) (base : Nat) : Action Unit :=
  modify fun m =>
    match m with
    | ⟨active, consumers, globals, heap, console, journal⟩ =>
      let args := active.stack.extract base active.stack.size
      match heap.alloc (Frame.ofArgs args f.frameSize) with
      | (id, heap) => ⟨active.enter f base id, consumers, globals, heap, console, journal⟩

/-- Call the value at `callee` with the top values of the stack. -/
def call (program : Program) (limits : Limits) (count callee : Operand) : Action Unit := do
  let callee ← fetch program callee
  let argc := count.address.toNat
  let height := (← get).active.stack.size
  if height < argc then throw .stackUnderflow
  let base := height - argc
  match callee with
  | .function f =>
    if f.params ≠ argc then refuse limits base (ValueError.arity f.params argc).value
    else if limits.maxCalls ≤ (← get).active.calls.size then throw (.frameOverflow limits.maxCalls)
    else enter f base
  | .error message => refuse limits base (.error message)
  | other => refuse limits base (ValueError.notCallable other.kind).value

/-! ## Returning -/

/-- Leave producers that have no call until a context with one is active. Gives that
context, the consumers behind it and how many contexts went away; none when there is
no call at all. -/
def leaveProducers (active : Context) (consumers : Array Context) (gone : Nat) :
    Option (Context × Array Context × Nat) :=
  if active.calls.isEmpty then
    if h : 0 < consumers.size then
      let consumer := consumers[consumers.size - 1]
      leaveProducers { consumer with pending := none } consumers.pop (gone + active.discard)
    else none
  else some (active, consumers, gone)
termination_by consumers.size
decreasing_by
  rw [Array.size_pop]
  omega

/-- Return a value from the innermost call. -/
def ret (program : Program) (limits : Limits) (ip : Nat) (value : Operand) : Action Unit := do
  let v ← fetch program value
  let m ← get
  match m with
  | ⟨active, consumers, globals, heap, console, journal⟩ =>
    match leaveProducers active consumers 0 with
    | none => throw .returnOutsideCall
    | some (active, consumers, gone) =>
      match active.calls.back? with
      | none => throw .returnOutsideCall
      | some call =>
        let gone := gone + active.discardedAbove call.loopDepth
        let short := active.lacksFrames call.frameDepth
        let leave : Action Unit := do
          set (Machine.mk (active.leave call) consumers globals heap console journal)
          if 0 < gone then record (.unwound ip gone)
        if short then
          leave
          throw .frameUnderflow
        else
          leave
          push limits v
          goto call.returnIp

end Action

end YieldMachine
