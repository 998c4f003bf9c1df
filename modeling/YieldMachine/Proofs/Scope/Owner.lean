import YieldMachine.Proofs.Run.Balance
import YieldMachine.Proofs.Run.Origin
import YieldMachine.Proofs.Run.Return
import YieldMachine.Proofs.Scope.Sharing

/-!
# Whose frames they are

What the active context does is done for the innermost activation of the first context
from the front that has a call. All contexts in front of that one are producers that run
iterators for this activation, and they all run on its frames: the new frame of the call
that started it, and behind it the frame that the function captured.

    Sharing.served        code that has a frame of its own serves an activation
    Machine.Calls.alike   code that serves an activation runs on the frames of its call
-/

namespace YieldMachine

variable {program : Program} {limits : Limits} {m m₁ m' : Machine} {n : Nat}
  {seat : Seat} {f : Func}

/-! ## Heaps along a run -/

/-- No run takes a frame from the heap, or a slot from a frame. -/
theorem Machine.run_kept (h : Machine.run program limits n m = .running m') :
    m.heap.Kept m'.heap := by
  induction n generalizing m' with
  | zero =>
    cases h
    exact .refl _
  | succ n ih =>
    obtain ⟨m₁, hrun, hstep⟩ := Machine.run_last h
    have htaken := m₁.step_taken program limits
    rw [hstep] at htaken
    cases htaken with
    | running hi hm => exact (ih hrun).trans hm.kept

/-- Following a context is running. -/
theorem Machine.run_of_follow {keep : Context → Bool} {seat' : Seat}
    (h : m.follow program limits keep n seat = some (m', seat')) :
    Machine.run program limits n m = .running m' := by
  induction n generalizing m seat with
  | zero =>
    cases h
    rfl
  | succ n ih =>
    obtain ⟨i, m₁, c, -, hstep, -, -, hrest⟩ := Machine.follow_succ h
    rw [Machine.run_succ, hstep]
    exact ih hrest

/-! ## Contexts in front of an activation -/

/-- Contexts without calls run on the frames of the one behind them. -/
theorem Context.alike_of_front {c d : Context} {front rest chain : List Context}
    (h : (d :: chain).IsChain fun d c => d.ground.Alike c.frames)
    (hsplit : d :: chain = front ++ c :: rest) (hfront : ∀ e ∈ front, e.calls.size = 0) :
    d.frames.Alike c.frames := by
  induction front generalizing d chain with
  | nil =>
    cases hsplit
    exact .refl _
  | cons e front ih =>
    rw [List.cons_append, List.cons.injEq] at hsplit
    obtain ⟨rfl, rfl⟩ := hsplit
    have hground := Context.ground_of_calls (hfront _ List.mem_cons_self)
    obtain ⟨hnext, hchain⟩ := List.isChain_cons.1 h
    cases hrest : front ++ c :: rest with
    | nil => simp at hrest
    | cons d' chain' =>
      rw [hrest] at hnext hchain
      exact (hground ▸ hnext d' rfl).trans
        (ih hchain hrest.symm fun e he => hfront e (List.mem_cons_of_mem _ he))

theorem Machine.chain_eq (m : Machine) : m.chain = inward m.spine :=
  (inward_push m.consumers m.active).symm

/-- The level of a context is the number of contexts behind it. -/
theorem Machine.spine_of_chain {c : Context} {front rest : List Context}
    (h : m.chain = front ++ c :: rest) : m.spine.toList = rest.reverse ++ c :: front.reverse ∧
      m.spine[rest.length]? = some c := by
  have hlist : m.spine.toList = rest.reverse ++ c :: front.reverse := by
    rw [Machine.chain_eq, inward] at h
    rw [← List.reverse_reverse m.spine.toList, h]
    simp
  refine ⟨hlist, ?_⟩
  rw [← Array.getElem?_toList, hlist, ← List.length_reverse, List.getElem?_append_right
    (Nat.le_refl _), Nat.sub_self]
  rfl

/-- The contexts above a level stand in front of the one at that level. -/
theorem Machine.chain_of_spine {c : Context} {k : Nat} (h : m.spine[k]? = some c) :
    ∃ front rest, m.chain = front ++ c :: rest ∧
      ∀ d ∈ front, ∃ j, k < j ∧ m.spine[j]? = some d := by
  rw [← Array.getElem?_toList] at h
  obtain ⟨hlt, hc⟩ := List.getElem?_eq_some_iff.1 h
  have hlist : m.spine.toList = m.spine.toList.take k ++ c :: m.spine.toList.drop (k + 1) := by
    rw [← hc, ← List.drop_eq_getElem_cons hlt]
    exact (List.take_append_drop k m.spine.toList).symm
  refine ⟨(m.spine.toList.drop (k + 1)).reverse, (m.spine.toList.take k).reverse, ?_, ?_⟩
  · rw [Machine.chain_eq]
    exact (congrArg List.reverse hlist).trans (by simp)
  · intro d hd
    obtain ⟨n, hn⟩ := List.mem_iff_getElem?.1 (List.mem_reverse.1 hd)
    rw [List.getElem?_drop, Array.getElem?_toList] at hn
    exact ⟨k + 1 + n, by omega, hn⟩

/-- What serves an activation runs on the frames of the context of that activation. -/
theorem Machine.Sharing.alike_of_serves {depth : Nat} (h : m.Sharing)
    (hs : m.Serves seat depth) : ∃ c, m.seat? seat = some c ∧ c.calls.size = depth ∧
      m.active.frames.Alike c.frames := by
  obtain ⟨c, hc, hsize⟩ := hs.context
  obtain ⟨front, rest, hsplit, hfront⟩ := Machine.chain_of_spine hc
  refine ⟨c, Machine.seat?_eq_some.2 ⟨c, hc, by rw [hs.path]; rfl⟩, hsize, ?_⟩
  refine Context.alike_of_front h.spine hsplit fun d hd => ?_
  obtain ⟨j, hj, hget⟩ := hfront d hd
  exact hs.front j d hj hget

/-- The first context from the front that has a call is served. -/
theorem Machine.serves_of_chain {c : Context} {front rest : List Context}
    (h : m.chain = front ++ c :: rest) (hfront : ∀ d ∈ front, d.calls.size = 0) :
    m.Serves ⟨rest.length, []⟩ c.calls.size := by
  obtain ⟨hlist, hget⟩ := Machine.spine_of_chain h
  refine ⟨rfl, ⟨c, hget, rfl⟩, fun k d hk hd => hfront d ?_⟩
  rw [← Array.getElem?_toList, hlist, List.getElem?_append_right (by simp; exact Nat.le_of_lt hk),
    List.length_reverse, ← Nat.succ_pred_eq_of_pos (Nat.sub_pos_of_lt hk),
    List.getElem?_cons_succ] at hd
  exact List.mem_reverse.1 (List.mem_of_getElem? hd)

/-- Code for which a call was made serves an activation. -/
theorem Machine.serves_of_calls (h : ∃ c ∈ m.chain, c.calls.size ≠ 0) :
    ∃ seat depth, m.Serves seat (depth + 1) := by
  cases hfind : m.chain.find? fun c => c.calls.size ≠ 0 with
  | some c =>
    obtain ⟨hc, front, rest, hsplit, hfront⟩ := List.find?_eq_some_iff_append.1 hfind
    have hserves := Machine.serves_of_chain hsplit fun d hd => by simpa using hfront d hd
    obtain ⟨depth, hdepth⟩ := Nat.exists_eq_succ_of_ne_zero (of_decide_eq_true hc)
    exact ⟨_, depth, hdepth ▸ hserves⟩
  | none =>
    obtain ⟨c, hc, hcalls⟩ := h
    exact absurd hcalls (by simpa using List.find?_eq_none.1 hfind c hc)

/-- Code that runs for a statement alone has no frame. -/
theorem Machine.Sharing.unframed (h : m.Sharing) (hg : m.Grounded)
    (hnone : ∀ c ∈ m.chain, c.calls.size = 0) : m.active.frames.at? 0 = none := by
  -- its frames are those of the statement
  obtain ⟨c, hc⟩ := m.seat?_bottom
  obtain ⟨d, hd, hunder⟩ := Machine.seat?_eq_some.1 hc
  cases hunder
  obtain ⟨front, rest, hsplit, -⟩ := Machine.chain_of_spine hd
  rw [hsplit] at hnone
  have halike := Context.alike_of_front h.spine hsplit fun e he =>
    hnone e (List.mem_append_left _ he)
  have hcalls := hnone c (List.mem_append_right _ List.mem_cons_self)
  have hframes : c.frames = #[] := by
    have hground := hg c hc
    rw [Context.Grounded, Array.getElem?_eq_none (by omega)] at hground
    exact Array.eq_empty_of_size_eq_zero hground
  rw [halike.own, hframes]
  rfl

/-- Code that has a frame of its own serves an activation. -/
theorem Machine.Sharing.served {id : FrameId} (h : m.Sharing) (hg : m.Grounded)
    (hid : m.active.frames.at? 0 = some id) : ∃ seat depth, m.Serves seat (depth + 1) := by
  refine Machine.serves_of_calls (Classical.byContradiction fun hnone => ?_)
  rw [h.unframed hg (by simpa using hnone)] at hid
  cases hid

/-! ## The frames of an activation -/

/-- Code that serves an activation runs on the frames of its call: on the new one, and on the
one that the function captured. The new frame has room for all slots. -/
theorem Machine.Calls.alike (h : m.Calls program limits f m' seat) (hm : m.Sound program)
    (hl : m'.Sharing) (hs : m'.Serves seat (m.active.calls.size + 1)) :
    m'.active.frames.Alike (f.frames m.active.frames m.heap.size) ∧ m.heap.size < m'.heap.size ∧
      (m'.heap.frame m.heap.size).size = max f.params f.frameSize := by
  obtain ⟨m₁, n, ⟨i, hi, hcall, hval, hstep, hdepth⟩, hlives⟩ := h
  obtain ⟨f', args, hval', harity, hheap, hseated⟩ := hm.enters hi hcall hstep hdepth
  cases hval.symm.trans hval'
  obtain ⟨c, hc, hsize, halike⟩ := hl.alike_of_serves hs
  obtain ⟨-, c', hc', hin⟩ := hseated.follow hlives
  cases hc.symm.trans hc'
  have hkept := Machine.run_kept (Machine.run_of_follow hlives)
  have hlt : m.heap.size < m₁.heap.size := by
    rw [hheap, Array.size_push]
    exact Nat.lt_succ_self _
  have hframes : c.frames = f.frames m.active.frames m.heap.size := hin.own (by rw [hsize]; rfl)
  refine ⟨hframes ▸ halike, Nat.lt_of_lt_of_le hlt hkept.le, ?_⟩
  rw [hkept.size _ hlt, hheap, Heap.frame_push, Frame.size_ofArgs, harity]

/-- A call in a run allocates a frame, which is there from then on. -/
theorem Machine.Enters.size_lt {start m₂ : Machine} {k : Nat} (hs : start.Sound program)
    (hrun : Machine.run program limits n start = .running m)
    (hrun' : Machine.run program limits k start = .running m') (hlt : n < k)
    (he : m.Enters program limits f m₂) : m.heap.size < m'.heap.size := by
  obtain ⟨i, hi, hcall, -, hstep, hdepth⟩ := he
  have hsound := hs.run limits n
  rw [hrun] at hsound
  obtain ⟨_, _, -, -, hheap, -⟩ := Machine.Sound.enters hsound hi hcall hstep hdepth
  have hsize : m.heap.size < m₂.heap.size := by
    rw [hheap, Array.size_push]
    exact Nat.lt_succ_self _
  obtain ⟨l, rfl⟩ := Nat.exists_eq_add_of_lt hlt
  rw [Nat.add_assoc, Nat.add_comm l, ← Nat.add_assoc, Machine.run_add] at hrun'
  have hnext : Machine.run program limits (n + 1) start = .running m₂ := by
    rw [Machine.run_add, hrun]
    exact Machine.run_one.trans hstep
  rw [hnext] at hrun'
  exact Nat.lt_of_lt_of_le hsize (Machine.run_kept hrun').le

/-- A frame belongs to one call of a run only. -/
theorem Machine.Enters.unique {start m₂ m₂' : Machine} {f' : Func} {k : Nat}
    (hs : start.Sound program) (hrun : Machine.run program limits n start = .running m)
    (hrun' : Machine.run program limits k start = .running m')
    (he : m.Enters program limits f m₂) (he' : m'.Enters program limits f' m₂')
    (hheap : m.heap.size = m'.heap.size) : f = f' := by
  rcases Nat.lt_trichotomy n k with hlt | rfl | hlt
  · exact absurd hheap (Nat.ne_of_lt (he.size_lt hs hrun hrun' hlt))
  · cases hrun.symm.trans hrun'
    obtain ⟨i, hi, -, hval, -⟩ := he
    obtain ⟨i', hi', -, hval', -⟩ := he'
    cases hi.symm.trans hi'
    cases hval.symm.trans hval'
    rfl
  · exact absurd hheap.symm (Nat.ne_of_lt (he'.size_lt hs hrun' hrun hlt))

end YieldMachine
