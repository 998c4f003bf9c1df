import YieldMachine.Proofs.Run.Seat
import YieldMachine.Proofs.Scope.Place
import YieldMachine.Proofs.Suspension.Coherent

/-!
# Frames of activations

Code of a scope runs on frames whose last two have the sizes that the scope says. Each
activation of a context has frames of its own, those that its call left on top; the
groups that it opened are those above the loops its call began with.

    frames.Suits called heap y   the last two frames are what the scope `y` says
    c.ground                     the frames of a context under all its calls
    c.framesAt g                 the frames of the activation that opened group `g`
-/

namespace YieldMachine

/-! ## Definitions -/

/-- Where a scope asks for a frame, there is one of that size. -/
def Heap.Sized (heap : Heap) (id? : Option FrameId) (size? : Option Nat) : Prop :=
  ∀ n, size? = some n → ∃ id, id? = some id ∧ id < heap.size ∧ (heap.frame id).size = n

/-- The last two frames have the sizes that a scope says. The last one belongs to the call
of a function; the one before it, where the scope has one, is the one that this function
captured. -/
structure Chain.Suits (frames : Chain) (called : FrameId → Func → Prop) (heap : Heap)
    (y : Scope) : Prop where
  own : heap.Sized (frames.at? 0) y[0]?
  outer : heap.Sized (frames.at? 1) y[1]?
  bound : ∀ id, frames.at? 0 = some id →
    ∃ f, called id f ∧ ∀ n, y[1]? = some n → frames.at? 1 = f.captured

/-- Code cannot tell the two chains apart. -/
structure Chain.Alike (frames frames' : Chain) : Prop where
  own : frames.at? 0 = frames'.at? 0
  outer : frames.at? 1 = frames'.at? 1

/-- The frames of a context under all its calls. -/
def Context.ground (c : Context) : Chain :=
  match c.calls[0]? with
  | some r => c.frames.shrink r.frameDepth
  | none => c.frames

/-- The frames of the activation of a context that opened a group: up to the first call
that began with more groups. -/
def Context.framesAt (c : Context) (group : Nat) : Chain :=
  match c.calls.toList.find? fun r => group < r.loopDepth with
  | some r => c.frames.shrink r.frameDepth
  | none => c.frames

/-! ## Chains -/

section

variable {called : FrameId → Func → Prop} {heap heap' : Heap} {frames frames' frames'' : Chain}
  {y : Scope} {o : Operand}

theorem Heap.Sized.kept {id? : Option FrameId} {size? : Option Nat} (hk : heap.Kept heap')
    (h : heap.Sized id? size?) : heap'.Sized id? size? := by
  intro n hn
  obtain ⟨id, hid, hlt, hsize⟩ := h n hn
  exact ⟨id, hid, Nat.lt_of_lt_of_le hlt hk.le, (hk.size id hlt).trans hsize⟩

theorem Chain.Suits.kept (hk : heap.Kept heap') (h : frames.Suits called heap y) :
    frames.Suits called heap' y :=
  ⟨h.own.kept hk, h.outer.kept hk, h.bound⟩

theorem Chain.Alike.refl (frames : Chain) : frames.Alike frames :=
  ⟨rfl, rfl⟩

theorem Chain.Alike.trans (h : frames.Alike frames') (h' : frames'.Alike frames'') :
    frames.Alike frames'' :=
  ⟨h.own.trans h'.own, h.outer.trans h'.outer⟩

theorem Chain.Suits.alike (ha : frames'.Alike frames) (h : frames.Suits called heap y) :
    frames'.Suits called heap y :=
  ⟨ha.own ▸ h.own, ha.outer ▸ h.outer, fun id hid => ha.outer ▸ h.bound id (ha.own ▸ hid)⟩

/-- A producer addresses the frames of the context that spawns it. -/
theorem Chain.addressable_alike (frames : Chain) : frames.addressable.Alike frames := by
  have hat : ∀ depth, depth < 2 → frames.addressable.at? depth = frames.at? depth := by
    intro depth hd
    unfold Chain.at? Chain.addressable
    rw [Array.size_extract, Nat.min_self]
    split
    · next hlt =>
      rw [if_pos (by omega), Array.getElem?_extract, if_pos (by omega)]
      congr 1
      omega
    · next hge => rw [if_neg (by omega)]
  exact ⟨hat 0 (by omega), hat 1 (by omega)⟩

theorem Func.own_frames (f : Func) (frames : Chain) (id : FrameId) :
    (f.frames frames id).at? 0 = some id := by
  unfold Func.frames Chain.at?
  simp

theorem Func.outer_frames (f : Func) (frames : Chain) (id : FrameId) {captured : FrameId}
    (h : f.captured = some captured) : (f.frames frames id).at? 1 = some captured := by
  unfold Func.frames Chain.at?
  rw [h]
  simp only [Array.size_push]
  rw [if_pos (by omega), Array.getElem?_push, if_neg (by simp only [Array.size_push]; omega),
    Array.getElem?_push, if_pos (by omega)]

/-- A frame that a call allocates has room for the arguments and the other slots. -/
theorem Frame.size_ofArgs (args : Array Value) (size : Nat) :
    (Frame.ofArgs args size).size = max args.size size := by
  rw [Frame.ofArgs, Array.size_append, Array.size_replicate]
  omega

theorem Heap.frame_push (heap : Heap) (frame : Frame) :
    Heap.frame (heap.push frame) heap.size = frame := by
  rw [Heap.frame, Array.getD_eq_getD_getElem?, Array.getElem?_push, if_pos rfl, Option.getD_some]

/-- The body of a function runs on the new frame and the one that it captured. -/
theorem Func.suits_frames {f : Func} {args : Array Value} (id : FrameId)
    (hid : id < heap.size) (hframe : heap.frame id = Frame.ofArgs args f.frameSize)
    (hargs : args.size = f.params) (hcaptured : heap.Sized f.captured y[0]?)
    (hcalled : called id f) :
    (f.frames frames id).Suits called heap (max f.params f.frameSize :: y) := by
  constructor
  case own =>
    rintro n ⟨⟩
    exact ⟨id, f.own_frames frames id, hid, by rw [hframe, Frame.size_ofArgs, hargs]⟩
  case outer =>
    intro n hn
    obtain ⟨captured, hc, hlt, hsize⟩ := hcaptured n hn
    exact ⟨captured, f.outer_frames frames id hc, hlt, hsize⟩
  case bound =>
    intro id' hid'
    rw [f.own_frames] at hid'
    cases hid'
    refine ⟨f, hcalled, fun n hn => ?_⟩
    obtain ⟨captured, hc, -⟩ := hcaptured n hn
    rw [f.outer_frames frames id hc, hc]

/-- A slot that is in scope is not missing. -/
theorem Chain.Suits.not_missing {cause : Cause} (h : frames.Suits called heap y) (ho : o.InScope y) :
    ¬ Missing frames heap o cause := by
  have hsized : ∀ {depth}, o.depth? = some depth → heap.Sized (frames.at? depth) y[depth]? := by
    intro depth hd
    unfold Operand.depth? at hd
    split at hd
    · cases hd
      exact h.own
    · cases hd
      exact h.outer
    · cases hd
  intro hmissing
  cases hmissing with
  | @frame depth hd hat =>
    obtain ⟨n, hn, -, -⟩ := ho depth hd
    obtain ⟨id, hid, -, -⟩ := hsized hd n hn
    rw [hat] at hid
    cases hid
  | @slot depth id hd hat hslot =>
    obtain ⟨n, hn, hpos, hlt⟩ := ho depth hd
    obtain ⟨id', hid, -, hsize⟩ := hsized hd n hn
    cases hat.symm.trans hid
    rw [Action.at?, if_pos hpos, Array.getElem?_eq_none_iff] at hslot
    omega

end

/-! ## Activations of a context -/

namespace Context

variable {c d : Context} {r : CallRecord} {g : Nat}

theorem ground_of_eq (hc : d.calls = c.calls) (hf : d.frames = c.frames) :
    d.ground = c.ground := by
  rw [ground, ground, hc, hf]

theorem framesAt_of_eq (hc : d.calls = c.calls) (hf : d.frames = c.frames) :
    d.framesAt g = c.framesAt g := by
  rw [framesAt, framesAt, hc, hf]

theorem ground_of_calls (h : c.calls.size = 0) : c.ground = c.frames := by
  rw [ground, Array.getElem?_eq_none (by omega)]

theorem shrink_shrink {frames : Chain} {a b : Nat} (h : a ≤ b) :
    (frames.shrink b).shrink a = frames.shrink a := by
  apply Array.ext'
  rw [Array.toList_shrink, Array.toList_shrink, Array.toList_shrink, List.take_take,
    Nat.min_eq_left h]

theorem ground_enter (h : c.Nested) (f : Func) (b : Nat) (id : FrameId) :
    (c.enter f b id).ground = c.ground := by
  rw [enter_eq, ground, ground]
  dsimp only
  by_cases hempty : c.calls.size = 0
  · rw [Array.getElem?_push, if_pos hempty.symm, Array.getElem?_eq_none (by omega)]
    exact f.frames_shrink c.frames id
  · rw [Array.getElem?_push, if_neg (fun h => hempty h.symm),
      Array.getElem?_eq_getElem (by omega)]
    exact f.shrink_frames id (Nat.le_of_lt (h.below _ (Array.getElem_mem (by omega))))

theorem ground_leave (h : c.Nested) (hr : c.calls.back? = some r) :
    (c.leave r).ground = c.ground := by
  have hcalls := calls_eq_push hr
  have hlt := h.lt_back hr
  rw [leave_eq, ground, ground]
  dsimp only
  rw [← Array.getElem?_toList, ← Array.getElem?_toList, hcalls]
  cases hpop : c.calls.pop.toList with
  | nil => rfl
  | cons s rest =>
    rw [hpop] at hlt
    exact shrink_shrink (Nat.le_of_lt (hlt s List.mem_cons_self))

theorem framesAt_enter (h : c.Nested) (f : Func) (b : Nat) (id : FrameId)
    (hg : g < c.loops.size) : (c.enter f b id).framesAt g = c.framesAt g := by
  rw [enter_eq, framesAt, framesAt]
  dsimp only
  rw [Array.toList_push, List.find?_append]
  cases hfind : c.calls.toList.find? fun r => decide (g < r.loopDepth) with
  | none =>
    rw [Option.none_or, List.find?_singleton, if_pos (decide_eq_true hg)]
    exact f.frames_shrink c.frames id
  | some s =>
    have hs := List.mem_of_find?_eq_some hfind
    exact f.shrink_frames id (Nat.le_of_lt (h.below s (Array.mem_def.2 hs)))

theorem framesAt_leave (h : c.Nested) (hr : c.calls.back? = some r) (hg : g < r.loopDepth) :
    (c.leave r).framesAt g = c.framesAt g := by
  have hlt := h.lt_back hr
  rw [leave_eq, framesAt, framesAt]
  dsimp only
  rw [calls_eq_push hr, List.find?_append]
  cases hfind : c.calls.pop.toList.find? fun r => decide (g < r.loopDepth) with
  | none =>
    rw [Option.none_or, List.find?_singleton, if_pos (decide_eq_true hg)]
  | some s => exact shrink_shrink (Nat.le_of_lt (hlt s (List.mem_of_find?_eq_some hfind)))

/-- The innermost activation opened the groups that no call began with. -/
theorem framesAt_innermost (h : ∀ r ∈ c.calls, r.loopDepth ≤ g) : c.framesAt g = c.frames := by
  have hnone : c.calls.toList.find? (fun r => decide (g < r.loopDepth)) = none := by
    rw [List.find?_eq_none]
    intro r hr
    simpa using h r (Array.mem_def.2 hr)
  rw [framesAt, hnone]

/-- Inside a loop of the innermost activation its last group is its own. -/
theorem Poised.framesAt_last {P : Footing} {base : Home} {i : Instruction} (h : c.Poised P base)
    (hs : Supports P c.calls.size c.ip i) (hi : ∀ s, i.Admits s → s.loops ≠ []) :
    c.framesAt (c.loops.size - 1) = c.frames := by
  obtain ⟨ls, hst, hf⟩ := h.stacked
  obtain ⟨s, rest, hq, rfl, hdepth⟩ := hst.loopDepth_le
  have hsize := hf.length_eq
  rw [List.length_append, length_inward] at hsize
  have hpos := List.length_pos_of_ne_nil (hi s (hs s hq).1)
  refine framesAt_innermost fun r hr => ?_
  have := hdepth r (mem_inward.2 hr)
  omega

/-- A context that waits does so for a producer of its innermost activation. -/
theorem Awaiting.framesAt_last {P : Footing} {base : Home} (h : c.Awaiting P base) :
    c.framesAt (c.loops.size - 1) = c.frames := by
  obtain ⟨p, k, rest, group, groups, -, hst, hl, -, hf⟩ := h.stacked
  obtain ⟨s, outer, hq, hls, hdepth⟩ := hst.loopDepth_le
  obtain ⟨own, hown, -, -⟩ := hq.loops
  have hsize := congrArg List.length hl
  have hlen := congrArg List.length hls
  have hrest := hf.length_eq
  rw [hown] at hlen
  simp only [length_inward, List.length_cons, List.length_append] at hsize hlen
  refine framesAt_innermost fun r hr => ?_
  have := hdepth r (mem_inward.2 hr)
  omega

end Context

end YieldMachine
