import YieldMachine.Value.Basic

/-!
# Frames

A frame is the array of local slots of one activation. Frames are shared between an
activation, the functions made in it and the producers it runs, so they live in a
heap and are named by their numbers. A chain lists the frames of a context, the
innermost last; only its last two can be addressed.
-/

namespace YieldMachine

/-! ## Types -/

/-- The slots of one activation. -/
abbrev Frame := Array Value

/-- All frames, each at the place of its number. -/
abbrev Heap := Array Frame

/-- The frames of a context, the innermost last. -/
abbrev Chain := Array FrameId

/-! ## Frames and heap -/

/-- A frame of nil slots. -/
def Frame.fresh (size : Nat) : Frame :=
  Array.replicate size .nil

/-- A frame that starts with the given values, nil in the slots behind them. -/
def Frame.ofArgs (args : Array Value) (size : Nat) : Frame :=
  args ++ Array.replicate (size - args.size) Value.nil

/-- Do two frames hold strictly equal values? -/
def Frame.same (f g : Frame) : Bool :=
  Value.strictEqList f.toList g.toList

/-- Put a frame on the heap, and give its number. -/
def Heap.alloc (heap : Heap) (frame : Frame) : FrameId × Heap :=
  (heap.size, heap.push frame)

/-- The frame with a number. -/
def Heap.frame (heap : Heap) (id : FrameId) : Frame :=
  heap.getD id #[]

/-- Store into a slot of a frame. -/
def Heap.store (heap : Heap) (id : FrameId) (slot : Nat) (v : Value) : Heap :=
  heap.modify id fun frame => frame.setIfInBounds slot v

/-! ## Chains -/

/-- The frame that stands `depth` places behind the innermost. -/
def Chain.at? (chain : Chain) (depth : Nat) : Option FrameId :=
  if depth < chain.size then chain[chain.size - (depth + 1)]? else none

/-- Drop inner frames down to `depth`, if there are that many. -/
def Chain.truncate? (chain : Chain) (depth : Nat) : Option Chain :=
  if depth ≤ chain.size then some (chain.shrink depth) else none

/-- The last two frames. -/
def Chain.addressable (chain : Chain) : Chain :=
  chain.extract (chain.size - 2) chain.size

end YieldMachine
