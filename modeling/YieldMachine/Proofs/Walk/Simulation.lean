import YieldMachine.Proofs.Walk.Layout

/-!
# Machines that follow a walk

`Performs program cs c₀ c x w post`: runs from the context `c₀` in the world `w` do what the
walk `x` does. Where the walk gives a value they come to a context with `post`, where it
returns they leave the innermost call of `c`, and where it exits they exit. Only limits below
some bound may prevent that, and the bound does not depend on the limits.

    Context.Leads.step   one instruction
    Performs.bind        walks in a row, and the code that performs them
-/

namespace YieldMachine

open Walk

/-! ## Contexts that go on -/

/-- The context at another place, with more values on its stack. -/
def Context.plus (c : Context) (ip : Nat) (vs : Array Value) : Context :=
  { c with ip, stack := c.stack ++ vs }

namespace Context

variable {c : Context} {ip ip' : Nat} {vs ws : Array Value}

theorem plus_self (c : Context) : c.plus c.ip #[] = c := by
  obtain ⟨ip, stack, frames, calls, loops, pending⟩ := c
  simp only [plus, Array.append_empty]

theorem plus_plus : (c.plus ip vs).plus ip' ws = c.plus ip' (vs ++ ws) := by
  simp only [plus, Array.append_assoc]

theorem plus_append : c.plus ip (vs ++ ws) = (c.plus ip vs).plus ip ws :=
  plus_plus.symm

theorem moved_plus : (c.plus ip vs).moved ip' = c.plus ip' vs := by
  obtain ⟨ip, stack, frames, calls, loops, pending⟩ := c
  rfl

theorem swap_plus_append {n : Nat} {us : Array Value} (h : n = us.size) :
    (c.plus ip (vs ++ us)).swap n ws = c.plus ip (vs ++ ws) := by
  simp only [swap, plus, mk.injEq, true_and, and_true]
  apply Array.ext'
  simp only [h, Array.toList_append, Array.toList_shrink, Array.size_append]
  rw [show c.stack.size + (vs.size + us.size) - us.size = (c.stack.toList ++ vs.toList).length by
    simp; omega, ← List.append_assoc, List.take_left, List.append_assoc]

theorem swap_plus {n : Nat} (h : n = vs.size) : (c.plus ip vs).swap n ws = c.plus ip ws := by
  have : (c.plus ip (#[] ++ vs)).swap n ws = c.plus ip (#[] ++ ws) := swap_plus_append h
  rwa [Array.empty_append, Array.empty_append] at this

theorem swap_zero_moved : (c.swap 0 vs).moved ip = c.plus ip vs := by
  obtain ⟨ip, stack, frames, calls, loops, pending⟩ := c
  simp [swap, moved, plus]

theorem swap_zero_plus : (c.plus ip vs).swap 0 ws = c.plus ip (vs ++ ws) := by
  have : (c.plus ip (vs ++ #[])).swap 0 ws = c.plus ip (vs ++ ws) := swap_plus_append rfl
  rwa [Array.append_empty] at this

theorem size_plus : (c.plus ip vs).stack.size = c.stack.size + vs.size :=
  Array.size_append

/-- Leaving a call forgets what was put on the stack since. -/
theorem leave_plus {r : CallRecord} (h : r.stackBase ≤ c.stack.size) :
    ((c.plus ip vs).leave r).plus ip' ws = (c.leave r).plus ip' ws := by
  rw [leave_eq, leave_eq]
  simp only [plus, mk.injEq, true_and, and_true]
  congr 1
  apply Array.ext'
  simp [h]

end Context

/-! ## Operands -/

/-- A value can be read at an operand that is not the stack. -/
def Shows (program : Program) (w : World) (c : Context) (o : Operand) (v : Value) : Prop :=
  o.isStack ∨ w.look program c o = some v

/-- The frames of a context are those of a walk, as far as the walk has them. -/
structure Walk.Locals.Fits (l : Locals) (frames : Chain) : Prop where
  own : frames.at? 0 = l.own
  outer : ∀ id, l.outer = some id → frames.at? 1 = some id

section

variable {program : Program} {w w' : World} {c : Context} {o : Operand} {v : Value} {ip : Nat}
  {us : Array Value}

theorem World.look_plus (ho : o.isStack = false) :
    w.look program (c.plus ip us) o = w.look program c o := by
  obtain ⟨mode, address⟩ := o
  cases mode with
  | stack => cases ho
  | immediate | global | frame | closure | data => rfl

theorem Shows.look (h : Shows program w c o v) (ip : Nat) (us : Array Value) :
    w.look program (c.plus ip (us ++ o.received v)) o = some v := by
  cases ho : o.isStack with
  | true =>
    have hreceived : o.received v = #[v] := by
      rw [Operand.received, if_pos ho]
    obtain ⟨mode, address⟩ := o
    obtain rfl : mode = .stack := of_decide_eq_true ho
    rw [hreceived]
    show (c.stack ++ (us ++ #[v])).back? = some v
    rw [← Array.append_assoc, Array.append_singleton, Array.back?_push]
  | false =>
    rw [World.look_plus ho]
    exact h.resolve_left (by rw [ho]; exact Bool.false_ne_true)

theorem Shows.look_received (h : Shows program w c o v) (ip : Nat) :
    w.look program (c.plus ip (o.received v)) o = some v := by
  have := h.look ip #[]
  rwa [Array.empty_append] at this

theorem shows_plus : Shows program w (c.plus ip us) o v ↔ Shows program w c o v := by
  unfold Shows
  cases ho : o.isStack with
  | true => simp
  | false => rw [World.look_plus ho]

/-- What an operand shows that is no variable does not depend on the world. -/
theorem Shows.still (h : Shows program w c o v) (hw : o.isVariable → w' = w) :
    Shows program w' c o v := by
  cases ho : o.isVariable with
  | true =>
    rw [hw ho]
    exact h
  | false =>
    refine h.imp_right fun h => ?_
    obtain ⟨mode, address⟩ := o
    cases mode with
    | global | frame | closure => cases ho
    | immediate | stack | data => exact h

theorem shows_of_constant {pool : Pool} (hp : program.pool = pool) (h : pool.Constant o v) :
    Shows program w c o v := by
  obtain ⟨i, rfl, hi⟩ := h
  refine .inr ?_
  rw [← hp] at hi
  exact (Action.at?_natCast _ _).trans hi

theorem shows_of_put (h : w.put? program c o v = some w') : Shows program w' c o v := by
  cases ho : o.isVariable with
  | true => exact .inr (World.look_put ho h)
  | false =>
    obtain ⟨mode, address⟩ := o
    cases mode with
    | global | frame | closure => cases ho
    | immediate | data => cases h
    | stack => exact .inl rfl

theorem Heap.store_self {heap : Heap} {id : FrameId} {slot : Nat}
    (h : (heap.frame id)[slot]? = some v) : heap.store id slot v = heap := by
  have hframe : (heap.frame id).setIfInBounds slot v = heap.frame id := by
    apply Array.ext_getElem?
    intro i
    rw [Array.getElem?_setIfInBounds]
    split
    · next heq =>
      subst heq
      rw [h, if_pos (Array.getElem?_eq_some_iff.1 h).1]
    · rfl
  apply Array.ext_getElem?
  intro i
  rw [Heap.store, Array.getElem?_modify]
  split
  · next heq =>
    subst heq
    cases hi : heap[id]? with
    | none => rfl
    | some frame =>
      have hid : heap.frame id = frame := by
        rw [Heap.frame, Array.getD_eq_getD_getElem?, hi, Option.getD_some]
      rw [hid] at hframe
      rw [Option.map_some, hframe]
  · rfl

theorem World.setSlot?_slot {frame : Option FrameId} {slot : Int}
    (h : w.slot? frame slot = some v) : w.setSlot? frame slot v = some w := by
  obtain ⟨id, rfl, hv⟩ := Option.bind_eq_some_iff.1 h
  unfold Action.at? at hv
  split at hv
  · next hpos =>
    have hlt := (Array.getElem?_eq_some_iff.1 hv).1
    rw [World.setSlot?, Option.bind_some, if_pos ⟨hpos, by omega⟩, Heap.store_self hv]
  · cases hv

/-- A variable can be set to what it holds, which changes nothing. -/
theorem World.put?_look (ho : o.isVariable) (h : w.look program c o = some v) :
    w.put? program c o v = some w := by
  obtain ⟨mode, address⟩ := o
  cases mode with
  | immediate | stack | data => cases ho
  | global =>
    obtain ⟨name, hname, rfl⟩ := Option.map_eq_some_iff.1 h
    have hset : w.set name (w.globals name) = w := by
      obtain ⟨globals, heap, console⟩ := w
      simp only [World.set, World.mk.injEq, and_true]
      funext other
      split
      · next heq => rw [heq]
      · rfl
    rw [World.put?]
    dsimp only
    rw [hname, Option.map_some, hset]
  | frame | closure => exact World.setSlot?_slot h

/-- To set a variable to what it shows changes nothing. -/
theorem Shows.put_eq (h : Shows program w c o v) (hp : w.put? program c o v = some w') :
    w' = w := by
  cases ho : o.isVariable with
  | true =>
    have hlook : w.look program c o = some v := h.resolve_left fun hs => by
      obtain ⟨mode, address⟩ := o
      obtain rfl : mode = .stack := of_decide_eq_true hs
      cases ho
    rw [World.put?_look ho hlook] at hp
    exact (Option.some.inj hp).symm
  | false =>
    obtain ⟨mode, address⟩ := o
    cases mode with
    | global | frame | closure => cases ho
    | immediate | data => cases hp
    | stack => exact (Option.some.inj hp).symm

end

/-! ## Runs -/

/-- A limit of the machine was reached, and it is below the bound. -/
def Fault.Overflows (limits : Limits) (bound : Nat) (fault : Fault) : Prop :=
  fault.cause = .stackOverflow limits.maxStack ∧ limits.maxStack < bound ∨
    fault.cause = .frameOverflow limits.maxCalls ∧ limits.maxCalls < bound

/-- The run goes on with the contexts and the world given. -/
def Step.Comes (c : Context) (cs : Array Context) (w : World) : Step → Prop
  | .running m => m.At c cs w
  | _ => False

/-- Runs from a context lead where `Q` says, unless the limits are below some bound, which
depends on nothing but where they start. -/
def Context.Leads (program : Program) (c : Context) (cs : Array Context) (w : World)
    (Q : Step → Prop) : Prop :=
  ∃ bound, ∀ (limits : Limits) (m : Machine), m.At c cs w → ∃ n,
    Q (Machine.run program limits n m) ∨ ∃ fault m',
      Machine.run program limits n m = .faulted fault m' ∧ fault.Overflows limits bound

section

variable {program : Program} {c c' c'' : Context} {cs cs' : Array Context} {w w' w'' : World}
  {Q : Step → Prop} {i : Instruction}

theorem Fault.Overflows.mono {limits : Limits} {fault : Fault} {bound bound' : Nat}
    (h : fault.Overflows limits bound) (hle : bound ≤ bound') : fault.Overflows limits bound' :=
  h.imp (And.imp_right fun h => Nat.lt_of_lt_of_le h hle)
    (And.imp_right fun h => Nat.lt_of_lt_of_le h hle)

namespace Context.Leads

theorem refl (program : Program) (c : Context) (cs : Array Context) (w : World) :
    c.Leads program cs w (Step.Comes c cs w) :=
  ⟨0, fun _ _ hm => ⟨0, .inl hm⟩⟩

theorem trans (h : c.Leads program cs w (Step.Comes c' cs' w'))
    (h' : c'.Leads program cs' w' Q) : c.Leads program cs w Q := by
  obtain ⟨bound, h⟩ := h
  obtain ⟨bound', h'⟩ := h'
  refine ⟨max bound bound', fun limits m hm => ?_⟩
  obtain ⟨n, hn | ⟨fault, m', hn, hf⟩⟩ := h limits m hm
  · cases hrun : Machine.run program limits n m with
    | running m₁ =>
      rw [hrun] at hn
      obtain ⟨n', hn'⟩ := h' limits m₁ hn
      refine ⟨n + n', ?_⟩
      rw [Machine.run_add, hrun]
      exact hn'.imp_right fun ⟨fault, m', hn', hf⟩ =>
        ⟨fault, m', hn', hf.mono (Nat.le_max_right _ _)⟩
    | finished v m₁ | exited status m₁ | faulted fault m₁ =>
      rw [hrun] at hn
      exact hn.elim
  · exact ⟨n, .inr ⟨fault, m', hn, hf.mono (Nat.le_max_left _ _)⟩⟩

/-- One instruction. -/
theorem step {y : Limits → Action Unit} (hi : program.instruction? c.ip = some i)
    (he : ∀ limits, i.effect.run program limits c.ip i = do y limits; return Flow.next)
    (hy : ∀ (limits : Limits) (m : Machine), m.At (c.moved (c.ip + 1)) cs w →
      Action.Reaches limits (c.moved (c.ip + 1)) (y limits) m c' cs' w') :
    c.Leads program cs w (Step.Comes c' cs' w') := by
  refine ⟨max c.stack.size c.calls.size + 1, fun limits m hm => ⟨1, ?_⟩⟩
  have hstep := hm.step hi (he limits) (hy limits)
  rw [Machine.run_one]
  cases hs : m.step program limits with
  | running m' =>
    rw [hs] at hstep
    exact .inl hstep
  | faulted fault m' =>
    rw [hs] at hstep
    refine .inr ⟨fault, m', rfl, ?_⟩
    exact hstep.imp (And.imp_right fun h => by omega) (And.imp_right fun h => by omega)
  | finished v m' | exited status m' =>
    rw [hs] at hstep
    exact hstep.elim

end Context.Leads

end

/-! ## Walks and runs -/

section

variable (program : Program)

/-- Where runs from the context `c₀` lead when a walk stops: a return leaves the call that is
innermost in the context `c`. -/
def Stops (cs : Array Context) (c₀ c : Context) (w : World) : Stop → World → Prop
  | .returned v, w' =>
    ∀ r, c.calls.back? = some r → r.stackBase ≤ c.stack.size → r.frameDepth ≤ c.frames.size →
      c₀.Leads program cs w (Step.Comes ((c.leave r).plus r.returnIp #[v]) cs w')
  | .exited status, w' => c₀.Leads program cs w fun st => ∃ m, st = .exited status m ∧ m.world = w'
  | .fatal, _ | .lost, _ | .spent, _ => True

/-- Runs from the context `c₀` do what the walk does, and come to a context with `post`. -/
def Performs {α : Type} (cs : Array Context) (c₀ c : Context) (x : Walk α) (w : World)
    (post : α → World → Context → Prop) : Prop :=
  match x w with
  | .ok a w' => ∃ c', c₀.Leads program cs w (Step.Comes c' cs w') ∧ post a w' c'
  | .error s w' => Stops program cs c₀ c w s w'

end

section

variable {program : Program} {c c₀ c₁ : Context} {cs : Array Context} {w w' w₁ : World}
  {α β : Type} {x x' : Walk α} {f : α → Walk β} {post : α → World → Context → Prop}
  {post' : β → World → Context → Prop} {ip : Nat} {vs : Array Value} {s : Stop}

theorem Walk.bind_of_ok {a : α} (h : x w = .ok a w') : (x >>= f) w = f a w' := by
  show EStateM.bind x f w = _
  rw [EStateM.bind, h]

theorem Walk.bind_of_error (h : x w = .error s w') : (x >>= f) w = .error s w' := by
  show EStateM.bind x f w = _
  rw [EStateM.bind, h]

theorem Stops.of_leads (h : c₀.Leads program cs w (Step.Comes c₁ cs w₁))
    (h' : Stops program cs c₁ c w₁ s w') : Stops program cs c₀ c w s w' := by
  cases s with
  | returned v => exact fun r hr hs hf => h.trans (h' r hr hs hf)
  | exited status =>
    unfold Stops at h' ⊢
    exact h.trans h'
  | fatal | lost | spent => trivial

/-- A return from further on leaves the same call. -/
theorem Stops.of_plus (h : Stops program cs c₀ (c.plus ip vs) w s w') :
    Stops program cs c₀ c w s w' := by
  cases s with
  | returned v =>
    intro r hr hs hf
    have := h r hr (by rw [Context.size_plus]; omega) hf
    rwa [Context.leave_plus hs] at this
  | exited status => exact h
  | fatal | lost | spent => trivial

namespace Performs

/-- Code that has done what a walk does first. -/
theorem of_leads_to (h : c₀.Leads program cs w (Step.Comes c₁ cs w₁))
    (hx' : Performs program cs c₁ c x' w₁ post) (hx : x w = x' w₁) :
    Performs program cs c₀ c x w post := by
  unfold Performs at hx' ⊢
  rw [hx]
  split at hx'
  · obtain ⟨c', hc', hp⟩ := hx'
    exact ⟨c', h.trans hc', hp⟩
  · exact hx'.of_leads h

theorem of_leads (h : c₀.Leads program cs w (Step.Comes c₁ cs w))
    (hx : Performs program cs c₁ c x w post) : Performs program cs c₀ c x w post :=
  of_leads_to h hx rfl

theorem of_plus (hx : Performs program cs c₀ (c.plus ip vs) x w post) :
    Performs program cs c₀ c x w post := by
  unfold Performs at hx ⊢
  split at hx
  · exact hx
  · exact hx.of_plus

theorem mono {post' : α → World → Context → Prop} (hx : Performs program cs c₀ c x w post)
    (hp : ∀ a w' c', post a w' c' → post' a w' c') : Performs program cs c₀ c x w post' := by
  unfold Performs at hx ⊢
  split at hx
  · obtain ⟨c', hc', ha⟩ := hx
    exact ⟨c', hc', hp _ _ _ ha⟩
  · exact hx

theorem pure {a : α} (h : post a w c₀) : Performs program cs c₀ c (pure a) w post :=
  ⟨c₀, .refl program c₀ cs w, h⟩

theorem fatal (h : x w = .error .fatal w') : Performs program cs c₀ c x w post := by
  unfold Performs
  rw [h]
  trivial

/-- Walks in a row are performed by codes in a row. -/
theorem bind (hx : Performs program cs c₀ c x w post)
    (hf : ∀ a w' c', x w = .ok a w' → post a w' c' → Performs program cs c' c (f a) w' post') :
    Performs program cs c₀ c (x >>= f) w post' := by
  unfold Performs at hx
  cases hxw : x w with
  | ok a w' =>
    rw [hxw] at hx
    obtain ⟨c', hc', ha⟩ := hx
    exact of_leads_to hc' (hf a w' c' hxw ha) (Walk.bind_of_ok hxw)
  | error s w' =>
    rw [hxw] at hx
    unfold Performs
    rwa [Walk.bind_of_error hxw]

/-- A walk that fails more often is performed as well. -/
theorem refine_walk (hx : Performs program cs c₀ c x w post)
    (h : x' w = x w ∨ ∃ w', x' w = .error .fatal w') : Performs program cs c₀ c x' w post := by
  obtain h | ⟨w', h⟩ := h
  · unfold Performs at hx ⊢
    rwa [h]
  · exact fatal h

end Performs

end

end YieldMachine
