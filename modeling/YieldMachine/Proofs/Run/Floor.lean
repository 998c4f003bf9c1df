import YieldMachine.Proofs.Run.Seat

/-!
# Floors

A part of what a context does rests on what the context had when that part began: calls,
values, frames and groups. Whatever the context does leaves these as they were until the
part is over, because no instruction reaches below it.

    c.RestsOn b   the floor `b` is in the context, and what is above it stays above
    c.Clear b i   an instruction does not reach down to the floor
-/

namespace YieldMachine

/-! ## Definitions -/

/-- What a part of a context rests on: what there was below it, and the frames it runs on. -/
structure Floor where
  calls : List CallRecord
  stack : List Value
  frames : Chain
  loops : List Group

/-- The floor is in a context, and calls above it return to what is above it. -/
structure Context.RestsOn (c : Context) (b : Floor) : Prop where
  calls : b.calls <+: c.calls.toList
  stack : b.stack <+: c.stack.toList
  frames : b.frames.toList <+: c.frames.toList
  loops : b.loops <+: c.loops.toList
  own : c.calls.size = b.calls.length → c.frames = b.frames
  above : ∀ r ∈ c.calls.toList.drop b.calls.length,
    b.stack.length ≤ r.stackBase ∧ b.loops.length ≤ r.loopDepth ∧ b.frames.size ≤ r.frameDepth
  next : ∀ r, c.calls[b.calls.length]? = some r → r.frameDepth = b.frames.size

/-- What an instruction takes, and the loops that it needs, are above the floor. -/
structure Context.Clear (c : Context) (b : Floor) (i : Instruction) : Prop where
  stack : b.stack.length + i.takes ≤ c.stack.size
  loops : ∃ s, i.Admits s ∧ b.loops.length + s.loops.length ≤ c.loops.size

/-! ## The part of the innermost activation -/

namespace Context

variable {P : Footing} {base : Home} {c : Context} {i : Instruction} {r : CallRecord}

theorem Poised.floor (h : c.Poised P base) (hs : Supports P c.calls.size c.ip i)
    (hr : c.calls.back? = some r) :
    r.stackBase + i.takes ≤ c.stack.size ∧
      ∃ s, i.Admits s ∧ r.loopDepth + s.loops.length = c.loops.size := by
  obtain ⟨ls, hst, hf⟩ := h.stacked
  rw [inward_eq_cons.2 ⟨hr, rfl⟩] at hst
  obtain ⟨k, own, rest, hheight, rfl, hlen, -, hq, -⟩ := hst
  have hadm := (hs _ hq).1
  have htakes := hadm.1
  have hloops := hf.length_eq
  rw [length_inward, List.length_append] at hloops
  dsimp only at htakes
  refine ⟨by omega, _, hadm, ?_⟩
  dsimp only
  omega

theorem Awaiting.floor (h : c.Awaiting P base) (hr : c.calls.back? = some r) :
    r.stackBase ≤ c.stack.size ∧ r.loopDepth < c.loops.size := by
  obtain ⟨p, k, inner, group, groups, hp, hst, hl, -, hf⟩ := h.stacked
  rw [inward_eq_cons.2 ⟨hr, rfl⟩] at hst
  obtain ⟨n, own, rest, hheight, hls, hlen, -, hq, -⟩ := hst
  obtain ⟨own', hown, -, -⟩ := hq.loops
  dsimp only at hown
  subst hown
  rw [List.cons_append, List.cons.injEq] at hls
  obtain ⟨-, rfl⟩ := hls
  have hgroups := congrArg List.length hl
  have hloops := hf.length_eq
  rw [length_inward, List.length_cons] at hgroups
  rw [List.length_append] at hloops
  exact ⟨by omega, by omega⟩

end Context

/-! ## Lists that stay -/

section

variable {α : Type} {xs : List α} {ys : Array α}

theorem isPrefix_shrink {n : Nat} (h : xs <+: ys.toList) (hn : xs.length ≤ n) :
    xs <+: (ys.shrink n).toList := by
  rw [Array.toList_shrink]
  exact List.prefix_take_iff.2 ⟨h, hn⟩

theorem isPrefix_append (h : xs <+: ys.toList) (zs : Array α) : xs <+: (ys ++ zs).toList := by
  rw [Array.toList_append]
  exact h.trans (List.prefix_append _ _)

theorem isPrefix_push (h : xs <+: ys.toList) (y : α) : xs <+: (ys.push y).toList := by
  rw [Array.toList_push]
  exact h.trans (List.prefix_append _ _)

theorem isPrefix_pop (h : xs <+: ys.toList) (hn : xs.length < ys.size) :
    xs <+: ys.pop.toList := by
  rw [Array.toList_pop, List.dropLast_eq_take]
  have hsize : ys.toList.length = ys.size := Array.length_toList
  exact List.prefix_take_iff.2 ⟨h, by omega⟩

theorem isPrefix_modify {k : Nat} (h : xs <+: ys.toList) (hk : xs.length ≤ k) (f : α → α) :
    xs <+: (ys.modify k f).toList := by
  rw [List.prefix_iff_getElem?] at h ⊢
  intro n hn
  rw [Array.getElem?_toList, Array.getElem?_modify, if_neg (by omega), ← Array.getElem?_toList]
  exact h n hn

theorem eq_shrink_of_isPrefix (h : xs <+: ys.toList) : (ys.shrink xs.length).toList = xs := by
  rw [Array.toList_shrink]
  exact (List.prefix_iff_eq_take.1 h).symm

end

/-! ## Staying on a floor -/

namespace Context.RestsOn

variable {b : Floor} {c d : Context} {i : Instruction} {r : CallRecord}

theorem length_le (h : c.RestsOn b) : b.calls.length ≤ c.calls.size := by
  have := h.calls.length_le
  rwa [Array.length_toList] at this

/-- The innermost call is among those above any height. -/
theorem mem_drop_back {n : Nat} (hr : c.calls.back? = some r) (hn : n < c.calls.size) :
    r ∈ c.calls.toList.drop n := by
  refine List.mem_of_getElem? (i := c.calls.size - 1 - n) ?_
  rw [List.getElem?_drop, Array.getElem?_toList,
    show n + (c.calls.size - 1 - n) = c.calls.size - 1 by omega, ← Array.back?_eq_getElem?, hr]

/-- What leaves calls and frames alone and keeps what lies below stays on the floor. -/
theorem of_eq (h : c.RestsOn b) (hcalls : d.calls = c.calls) (hframes : d.frames = c.frames)
    (hstack : b.stack <+: d.stack.toList) (hloops : b.loops <+: d.loops.toList) : d.RestsOn b := by
  refine ⟨hcalls ▸ h.calls, hstack, hframes ▸ h.frames, hloops, ?_, hcalls ▸ h.above,
    hcalls ▸ h.next⟩
  rw [hcalls, hframes]
  exact h.own

theorem swap {n : Nat} {vs : Array Value} (h : c.RestsOn b)
    (hn : b.stack.length + n ≤ c.stack.size) : (c.swap n vs).RestsOn b :=
  h.of_eq rfl rfl (isPrefix_append (isPrefix_shrink h.stack (by omega)) vs) h.loops

theorem moved (h : c.RestsOn b) (ip : Nat) : (c.moved ip).RestsOn b :=
  h.of_eq rfl rfl h.stack h.loops

theorem awake (h : c.RestsOn b) : c.awake.RestsOn b :=
  h.of_eq rfl rfl h.stack h.loops

theorem waiting (h : c.RestsOn b) (p : Pending) : (c.waiting p).RestsOn b :=
  h.of_eq rfl rfl h.stack h.loops

theorem openSlot (h : c.RestsOn b) (hl : b.loops.length < c.loops.size) :
    c.openSlot.RestsOn b := by
  rw [Context.openSlot_eq]
  exact h.of_eq rfl rfl h.stack (isPrefix_modify h.loops (by omega) _)

theorem setSlot {slot : Nat} {content : Option Context} (h : c.RestsOn b)
    (hl : b.loops.length < c.loops.size) : (c.setSlot slot content).RestsOn b := by
  rw [Context.setSlot_eq]
  exact h.of_eq rfl rfl h.stack (isPrefix_modify h.loops (by omega) _)

theorem closeGroup (h : c.RestsOn b) (hl : b.loops.length < c.loops.size) :
    c.closeGroup.RestsOn b := by
  rw [Context.closeGroup_eq]
  exact h.of_eq rfl rfl h.stack (isPrefix_pop h.loops hl)

theorem enter {f : Func} {n : Nat} {id : FrameId} (h : c.RestsOn b) (hn : b.stack.length ≤ n)
    (hl : b.loops.length ≤ c.loops.size) : (c.enter f n id).RestsOn b := by
  have hle := h.length_le
  rw [Context.enter_eq]
  constructor
  case calls => exact isPrefix_push h.calls _
  case stack => exact isPrefix_shrink h.stack hn
  case frames =>
    refine isPrefix_push ?_ id
    split
    · exact isPrefix_push h.frames _
    · exact h.frames
  case loops => exact h.loops
  case own =>
    intro hsize
    simp only [Array.size_push] at hsize
    omega
  case above =>
    intro r hr
    simp only [Array.toList_push] at hr
    rw [List.drop_append_of_le_length (by rw [Array.length_toList]; omega)] at hr
    rcases List.mem_append.1 hr with hr | hr
    · exact h.above r hr
    · cases List.mem_singleton.1 hr
      exact ⟨hn, hl, h.frames.length_le⟩
  case next =>
    intro r hr
    simp only [Array.getElem?_push] at hr
    split at hr
    · next hsize =>
      cases hr
      rw [h.own hsize.symm]
    · exact h.next r hr

/-- A call above the floor is left. -/
theorem leave (h : c.RestsOn b) (hr : c.calls.back? = some r)
    (hsize : b.calls.length < c.calls.size) : (c.leave r).RestsOn b := by
  have hlast : c.calls[c.calls.size - 1]? = some r := by rw [← Array.back?_eq_getElem?, hr]
  obtain ⟨hstack, hloops, hframes⟩ := h.above r (mem_drop_back hr hsize)
  rw [Context.leave_eq]
  constructor
  case calls => exact isPrefix_pop h.calls hsize
  case stack => exact isPrefix_shrink h.stack hstack
  case frames => exact isPrefix_shrink h.frames hframes
  case loops => exact isPrefix_shrink h.loops hloops
  case own =>
    intro heq
    simp only [Array.size_pop] at heq
    have hnext := h.next r (by rw [← hlast]; congr 1; omega)
    apply Array.ext'
    rw [hnext]
    exact eq_shrink_of_isPrefix h.frames
  case above =>
    intro r' hr'
    rw [Array.toList_pop, List.dropLast_eq_take, List.drop_take] at hr'
    exact h.above r' (List.mem_of_mem_take hr')
  case next =>
    intro r' hr'
    simp only [Array.getElem?_pop] at hr'
    split at hr'
    · exact h.next r' hr'
    · cases hr'

/-- In a call above the floor an instruction does not reach down to it. -/
theorem clear {P : Footing} {base : Home} (h : c.RestsOn b) (hc : c.Poised P base)
    (hs : Supports P c.calls.size c.ip i) (hlt : b.calls.length < c.calls.size) :
    c.Clear b i := by
  have hr : c.calls.back? = some c.calls[c.calls.size - 1] := by
    rw [Array.back?_eq_getElem?, Array.getElem?_eq_getElem]
  obtain ⟨hstack, hloops, -⟩ := h.above _ (mem_drop_back hr hlt)
  obtain ⟨hroom, s, hadm, hsize⟩ := hc.floor hs hr
  exact ⟨by omega, s, hadm, by omega⟩

/-- Whatever a context does above its floor leaves the floor as it was. -/
theorem turn {F : Func → Prop} (h : c.RestsOn b) (hclear : c.Clear b i) (ht : c.Turn F i d)
    (hd : b.calls.length ≤ d.calls.size) : d.RestsOn b := by
  obtain ⟨hroom, s, hadm, hsize⟩ := hclear
  cases ht with
  | stay hl _ _ => exact (h.moved _).swap hroom
  | enter he hf =>
    have hcells : i.b.cells ≤ i.takes := by
      rw [Instruction.takes, he]
      exact Nat.le_add_right _ _
    refine ((h.moved _).swap ?_).enter (by omega) ?_
    · show _ ≤ c.stack.size
      omega
    · show _ ≤ c.loops.size
      omega
  | @leave r v he hr =>
    have hpop : b.calls.length ≤ c.calls.size - 1 := by
      rw [Context.swap, Context.moved, Context.leave_eq] at hd
      simpa [Context.swap, Context.moved] using hd
    have hpos : 0 < c.calls.size := by
      obtain ⟨hlt, -⟩ := Array.getElem?_eq_some_iff.1 (Array.back?_eq_getElem? ▸ hr)
      omega
    have hlt : b.calls.length < c.calls.size := by omega
    obtain ⟨hstack, -, -⟩ := h.above r (mem_drop_back hr hlt)
    refine ((((h.moved _).swap hroom).leave hr hlt).moved _).swap ?_
    rw [Context.leave_eq, Context.moved]
    simp only [Array.size_shrink, Context.size_swap]
    show _ ≤ min r.stackBase (c.stack.size - i.takes + 0)
    omega
  | openGroup he => exact h.of_eq rfl rfl h.stack (isPrefix_push h.loops _)
  | spawn he hg =>
    obtain ⟨k, rest, hk⟩ := Context.admits_spawn he hadm
    rw [hk, List.length_cons] at hsize
    exact ((h.openSlot (by omega)).moved _).waiting _
  | yield he => exact ((h.moved _).swap hroom).awake
  | resume he hp =>
    obtain ⟨k, rest, hk, -⟩ := Context.admits_resume he hadm
    rw [hk, List.length_cons] at hsize
    exact ((h.moved _).setSlot (by show _ < c.loops.size; omega)).waiting _
  | closeGroup he hg =>
    obtain ⟨rest, hk⟩ := Context.admits_closeGroup he hadm
    rw [hk, List.length_cons] at hsize
    exact (h.moved _).closeGroup (by show _ < c.loops.size; omega)

/-- A context that wakes goes on above its floor. -/
theorem wake (h : c.RestsOn b) (hl : b.loops.length < c.loops.size) (hw : c.Wake i d)
    (hd : b.calls.length ≤ d.calls.size) : d.RestsOn b := by
  have hstack : b.stack.length ≤ c.stack.size := by
    rw [← Array.length_toList]
    exact h.stack.length_le
  cases hw with
  | @yield p producer v he hp =>
    refine ((h.setSlot hl).awake).swap ?_
    rw [Context.setSlot_eq]
    exact hstack
  | endIteration he hp => exact (h.moved _).awake
  | @leave r v he hr =>
    have hpop : b.calls.length ≤ c.calls.size - 1 := by
      rw [Context.swap, Context.moved, Context.leave_eq] at hd
      simpa [Context.awake] using hd
    have hpos : 0 < c.calls.size := by
      obtain ⟨hlt, -⟩ := Array.getElem?_eq_some_iff.1 (Array.back?_eq_getElem? ▸ hr)
      omega
    have hlt : b.calls.length < c.calls.size := by omega
    obtain ⟨hbase, -, -⟩ := h.above r (mem_drop_back hr hlt)
    refine ((h.awake.leave hr hlt).moved _).swap ?_
    rw [Context.leave_eq, Context.moved]
    simp only [Array.size_shrink]
    show _ ≤ min r.stackBase c.stack.size
    omega

end Context.RestsOn

end YieldMachine
