import YieldMachine.Machine.State

/-!
# Context switches

A for loop runs each iterator as a producer in a context of its own. While a producer
runs, its consumer waits; a yield parks the producer in its slot of the consumer's
innermost group and hands the value over. A producer that comes to the end of its
iterator ends the loop, and the producers still parked are discarded.
-/

namespace YieldMachine

/-! ## Contexts -/

namespace Context

/-- Open one more slot in the innermost group. -/
def openSlot (c : Context) : Context :=
  match c with
  | ⟨ip, stack, frames, calls, loops, pending⟩ =>
    ⟨ip, stack, frames, calls, loops.modify (loops.size - 1) (·.push none), pending⟩

/-- Put something into a slot of the innermost group. -/
def setSlot (c : Context) (slot : Nat) (content : Option Context) : Context :=
  match c with
  | ⟨ip, stack, frames, calls, loops, pending⟩ =>
    ⟨ip, stack, frames, calls,
      loops.modify (loops.size - 1) (·.setIfInBounds slot content), pending⟩

/-- Close the innermost group. -/
def closeGroup (c : Context) : Context :=
  match c with
  | ⟨ip, stack, frames, calls, loops, pending⟩ => ⟨ip, stack, frames, calls, loops.pop, pending⟩

/-- What is in a slot of the innermost group, if there is such a slot. -/
def slot? (c : Context) (slot : Nat) : Option (Option Context) :=
  c.loops.back?.bind fun group => group[slot]?

/-- The context, waiting for a producer. -/
def waiting (c : Context) (pending : Pending) : Context :=
  { c with pending := some pending }

/-- The context, to go on at `ip`. -/
def moved (c : Context) (ip : Nat) : Context :=
  { c with ip }

/-- The context, waiting for nothing. -/
def awake (c : Context) : Context :=
  { c with pending := none }

end Context

namespace Action

/-! ## Switches -/

/-- May one more consumer wait? -/
def checkDepth (limits : Limits) : Action Unit := do
  if limits.maxContexts ≤ (← get).consumers.size then throw (.contextOverflow limits.maxContexts)

/-- Open a group for a for loop. -/
def openGroup : Action Unit :=
  modify fun m => { m with active := { m.active with loops := m.active.loops.push #[] } }

/-- Start a producer for the next iterator of the innermost loop, behind the
instruction at `ip`. It shares the two addressable frames of its consumer. -/
def spawn (program : Program) (limits : Limits) (ip : Nat) (continuation onDrop : Operand) :
    Action Unit := do
  checkDepth limits
  let cont ← target program ip continuation
  let dropIp ← target program ip onDrop
  let m ← get
  match m with
  | ⟨active, consumers, globals, heap, console, journal⟩ =>
    match active.loops.back? with
    | none => throw (.contextMisuse .spawnOutsideLoop)
    | some group =>
      let slot := group.size
      let producer := Context.start active.ip active.frames.addressable
      let consumer := (active.openSlot.moved cont).waiting ⟨slot, dropIp⟩
      let consumers := consumers.push consumer
      let depth := consumers.size
      set (Machine.mk producer consumers globals heap console journal)
      record (.spawned ip slot depth)

/-- Hand a value to the consumer that waits, and park the producer. -/
def yield (program : Program) (limits : Limits) (ip : Nat) (value : Operand) : Action Unit := do
  let v ← fetch program value
  let m ← get
  match m with
  | ⟨active, consumers, globals, heap, console, journal⟩ =>
    match consumers.back? with
    | none => throw (.contextMisuse .yieldOutsideProducer)
    | some consumer =>
      let consumers := consumers.pop
      match consumer.pending with
      | none => throw (.contextMisuse .consumerNotWaiting)
      | some pending =>
        match consumer.slot? pending.slot with
        | none => throw (.contextMisuse .consumerWithoutSlot)
        | some _ =>
          let consumer := (consumer.setSlot pending.slot (some active.awake)).awake
          let depth := consumers.size
          set (Machine.mk consumer consumers globals heap console journal)
          record (.yielded ip pending.slot depth)
          push limits v

/-- Continue a parked producer of the innermost loop. -/
def resume (program : Program) (limits : Limits) (ip : Nat) (slot onDrop : Operand) :
    Action Unit := do
  checkDepth limits
  let dropIp ← target program ip onDrop
  let slot := slot.address.toNat
  let m ← get
  match m with
  | ⟨active, consumers, globals, heap, console, journal⟩ =>
    match active.slot? slot with
    | some (some producer) =>
      let consumer := (active.setSlot slot none).waiting ⟨slot, dropIp⟩
      let consumers := consumers.push consumer
      let depth := consumers.size
      set (Machine.mk producer.awake consumers globals heap console journal)
      record (.resumed ip slot depth)
    | _ => throw (.contextMisuse .nothingToResume)

/-- The running producer has no more values: drop it and leave the loop. -/
def endIteration (ip : Nat) : Action Unit := do
  let m ← get
  match m with
  | ⟨active, consumers, globals, heap, console, journal⟩ =>
    match consumers.back? with
    | none => throw (.contextMisuse .finishWithoutConsumer)
    | some consumer =>
      let consumers := consumers.pop
      match consumer.pending with
      | none => throw (.contextMisuse .consumerNotWaiting)
      | some pending =>
        set (Machine.mk { consumer with ip := pending.onDrop, pending := none } consumers
          globals heap console journal)
        record (.dropped ip pending.slot active.discard)

/-- Close the group of the innermost loop, and discard the producers parked in it. -/
def closeGroup (ip : Nat) : Action Unit := do
  let m ← get
  match m with
  | ⟨active, consumers, globals, heap, console, journal⟩ =>
    match active.loops.back? with
    | none => throw (.contextMisuse .noLoopToClose)
    | some group =>
      let gone := Group.discarded group
      set (Machine.mk active.closeGroup consumers globals heap console journal)
      if 0 < gone then record (.discarded ip gone)

end Action

end YieldMachine
