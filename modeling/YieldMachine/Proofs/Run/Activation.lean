import YieldMachine.Proofs.Run.Floor

/-!
# Activations

An activation rests on what its context had when it began: calls, values, frames and
groups. As long as the record of its call is there, whatever the context does leaves
these as they were, because no instruction reaches below the part of the innermost
activation. So a return finds them again.

    Activation.In   the activation is in a context, on what it began with
-/

namespace YieldMachine

/-! ## Definitions -/

/-- What an activation began with, and the frames it runs on. -/
structure Activation where
  record : CallRecord
  calls : List CallRecord
  stack : List Value
  frames : Chain
  loops : List Group

/-- The heights that the record names are those of what was there. -/
structure Activation.Based (a : Activation) : Prop where
  stack : a.record.stackBase = a.stack.length
  loops : a.record.loopDepth = a.loops.length

/-- The activation is in a context, and what it began with is still there. -/
structure Activation.In (a : Activation) (c : Context) : Prop where
  calls : a.calls ++ [a.record] <+: c.calls.toList
  stack : a.stack <+: c.stack.toList
  frames : a.frames.toList <+: c.frames.toList
  loops : a.loops <+: c.loops.toList
  own : c.calls.size = a.calls.length + 1 → c.frames = a.frames
  above : ∀ r ∈ c.calls.toList.drop a.calls.length,
    a.stack.length ≤ r.stackBase ∧ a.loops.length ≤ r.loopDepth
  inner : ∀ r ∈ c.calls.toList.drop (a.calls.length + 1), a.frames.size ≤ r.frameDepth
  next : ∀ r, c.calls[a.calls.length + 1]? = some r → r.frameDepth = a.frames.size

/-! ## Staying in a context -/

/-- What the activation rests on: what it began with, and its own record. -/
def Activation.floor (a : Activation) : Floor :=
  ⟨a.calls ++ [a.record], a.stack, a.frames, a.loops⟩

namespace Activation.In

variable {a : Activation} {c d : Context} {i : Instruction} {r : CallRecord}

theorem length_floor (a : Activation) : a.floor.calls.length = a.calls.length + 1 :=
  List.length_append

theorem length_lt (h : a.In c) : a.calls.length < c.calls.size := by
  have := h.calls.length_le
  rw [List.length_append, List.length_singleton, Array.length_toList] at this
  omega

theorem innermost (h : a.In c) : ∃ r, c.calls.back? = some r ∧
    a.stack.length ≤ r.stackBase ∧ a.loops.length ≤ r.loopDepth := by
  have hlt := h.length_lt
  refine ⟨c.calls[c.calls.size - 1], ?_, h.above _ (Context.RestsOn.mem_drop_back ?_ hlt)⟩
  all_goals rw [Array.back?_eq_getElem?, Array.getElem?_eq_getElem]

/-- The record of the activation stands on what the activation began with. -/
theorem record (h : a.In c) :
    a.stack.length ≤ a.record.stackBase ∧ a.loops.length ≤ a.record.loopDepth := by
  obtain ⟨rest, hrest⟩ := h.calls
  refine h.above _ ?_
  rw [← hrest, List.append_assoc, List.drop_left]
  exact List.mem_cons_self

theorem restsOn (h : a.In c) : c.RestsOn a.floor := by
  refine ⟨h.calls, h.stack, h.frames, h.loops, fun hsize => h.own (hsize.trans (length_floor a)),
    fun r hr => ?_, fun r hr => h.next r (length_floor a ▸ hr)⟩
  rw [length_floor] at hr
  obtain ⟨hstack, hloops⟩ := h.above r (List.drop_subset_drop_left _ (Nat.le_succ _) hr)
  exact ⟨hstack, hloops, h.inner r hr⟩

theorem of_restsOn (hc : c.RestsOn a.floor)
    (hr : a.stack.length ≤ a.record.stackBase ∧ a.loops.length ≤ a.record.loopDepth) :
    a.In c := by
  have hlen := length_floor a
  refine ⟨hc.calls, hc.stack, hc.frames, hc.loops, fun hsize => hc.own (hsize.trans hlen.symm),
    fun r hmem => ?_, fun r hmem => (hc.above r (hlen.symm ▸ hmem)).2.2,
    fun r hget => hc.next r (hlen.symm ▸ hget)⟩
  obtain ⟨rest, hrest⟩ := hc.calls
  have habove := hc.above r
  rw [← hrest, hlen] at habove
  rw [← hrest] at hmem
  simp only [floor, List.append_assoc, List.drop_left, List.singleton_append] at habove hmem
  rcases List.mem_cons.1 hmem with rfl | hmem
  · exact hr
  · obtain ⟨hstack, hloops, -⟩ := habove (by
      rw [List.drop_append, List.drop_of_length_le (Nat.le_succ _), Nat.add_sub_cancel_left]
      exact hmem)
    exact ⟨hstack, hloops⟩

theorem moved (h : a.In c) (ip : Nat) : a.In (c.moved ip) :=
  of_restsOn (h.restsOn.moved ip) h.record

theorem swap {n : Nat} {vs : Array Value} (h : a.In c) (hn : a.stack.length + n ≤ c.stack.size) :
    a.In (c.swap n vs) :=
  of_restsOn (h.restsOn.swap hn) h.record

theorem awake (h : a.In c) : a.In c.awake :=
  of_restsOn h.restsOn.awake h.record

/-- Whatever a context does, its activations stay as long as their records do. -/
theorem turn {F : Func → Prop} {P : Footing} {base : Home} (h : a.In c) (hc : c.Poised P base)
    (hs : Supports P c.calls.size c.ip i) (ht : c.Turn F i d) (hd : a.calls.length < d.calls.size) :
    a.In d := by
  obtain ⟨r, hr, hstack, hloops⟩ := h.innermost
  obtain ⟨hroom, s, hadm, hsize⟩ := hc.floor hs hr
  have hclear : c.Clear a.floor i :=
    ⟨Nat.le_trans (Nat.add_le_add_right hstack _) hroom, s, hadm,
      hsize ▸ Nat.add_le_add_right hloops _⟩
  exact of_restsOn (h.restsOn.turn hclear ht (length_floor a ▸ hd)) h.record

theorem wake {P : Footing} {base : Home} (h : a.In c) (hc : c.Awaiting P base) (hw : c.Wake i d)
    (hd : a.calls.length < d.calls.size) : a.In d := by
  obtain ⟨r, hr, -, hloops⟩ := h.innermost
  obtain ⟨-, hlt⟩ := hc.floor hr
  exact of_restsOn (h.restsOn.wake (Nat.lt_of_le_of_lt hloops hlt) hw (length_floor a ▸ hd))
    h.record

/-- In the activation itself, a return finds what there was when it began. -/
theorem left (h : a.In c) (hb : a.Based)
    (hsize : c.calls.size = a.calls.length + 1) :
    c.calls.back? = some a.record ∧ c.leave a.record = ⟨c.ip, a.stack.toArray,
      a.frames.shrink a.record.frameDepth, a.calls.toArray, a.loops.toArray, c.pending⟩ := by
  have hcalls : c.calls.toList = a.calls ++ [a.record] := by
    refine (h.calls.eq_of_length ?_).symm
    rw [List.length_append, List.length_singleton, Array.length_toList, hsize]
  have hpush : c.calls = a.calls.toArray.push a.record := by
    apply Array.ext'
    rw [hcalls, Array.toList_push]
  refine ⟨by rw [hpush, Array.back?_push], ?_⟩
  rw [Context.leave_eq, h.own hsize, hb.stack, hb.loops, hpush, Array.pop_push]
  simp only [Context.mk.injEq, true_and, and_true]
  refine ⟨?_, ?_⟩
  · apply Array.ext'
    exact eq_shrink_of_isPrefix h.stack
  · apply Array.ext'
    exact eq_shrink_of_isPrefix h.loops

end Activation.In

end YieldMachine
