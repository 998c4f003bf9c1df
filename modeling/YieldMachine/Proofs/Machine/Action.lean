import YieldMachine.Proofs.Flow.Shape

/-!
# What actions lead to

`x.Leads m Q E` says where an action leads from a machine: to a state with `Q`, or to
a fault with `E`. Operands are read and written without a fault unless the limit of the
stack is reached, or a frame or slot is missing that the operand names.

Values are followed only as far as the functions in them go: `F` holds of every
function that memory and stacks hold.
-/

namespace YieldMachine

/-! ## Contexts and memory -/

/-- The context with `n` values taken off the stack and others put there. -/
def Context.swap (c : Context) (n : Nat) (vs : Array Value) : Context :=
  { c with stack := c.stack.shrink (c.stack.size - n) ++ vs }

/-- The machine with `n` values taken off the stack. -/
def Machine.cut (m : Machine) (n : Nat) : Machine :=
  { m with active := m.active.swap n #[] }

/-- Every function in the globals and in the frames has a property. -/
structure Machine.Memory (F : Func → Prop) (m : Machine) : Prop where
  globals : ∀ name, (m.globals.get name).AllFunctions F
  heap : ∀ frame ∈ m.heap, ∀ v ∈ frame, v.AllFunctions F

/-- Every function on a stack has a property. -/
def Context.Stack (F : Func → Prop) (c : Context) : Prop :=
  ∀ v ∈ c.stack, v.AllFunctions F

/-- The frames of a heap are in another one, as large as they were. -/
structure Heap.Kept (h h' : Heap) : Prop where
  le : h.size ≤ h'.size
  size : ∀ id, id < h.size → (h'.frame id).size = (h.frame id).size

/-- What an operand holds; on the stack, what is on top. -/
def Machine.value? (program : Program) (m : Machine) (o : Operand) : Option Value :=
  match o.mode with
  | .immediate => some (.int (Int64.ofInt o.address))
  | .global =>
    match Action.at? program.pool.constants o.address with
    | some (.string name) => some (m.globals.get name)
    | _ => none
  | .frame => (m.active.frames.at? 0).bind fun id => Action.at? (m.heap.frame id) o.address
  | .closure => (m.active.frames.at? 1).bind fun id => Action.at? (m.heap.frame id) o.address
  | .stack => m.active.stack.back?
  | .data => Action.at? program.pool.constants o.address

/-- How far behind the innermost frame an operand looks for its slot. -/
def Operand.depth? (o : Operand) : Option Nat :=
  match o.mode with
  | .frame => some 0
  | .closure => some 1
  | _ => none

/-- What the stack receives of a value that is stored at an operand. -/
def Operand.received (o : Operand) (v : Value) : Array Value :=
  if o.isStack then #[v] else #[]

/-- An operand names a frame or a slot that is not there. -/
inductive Missing (frames : Chain) (heap : Heap) (o : Operand) : Cause → Prop
  | frame {depth : Nat} : o.depth? = some depth → frames.at? depth = none →
      Missing frames heap o .frameUnderflow
  | slot {depth : Nat} {id : FrameId} : o.depth? = some depth → frames.at? depth = some id →
      Action.at? (heap.frame id) o.address = none →
      Missing frames heap o (.slotOutOfRange o.address (heap.frame id).size)

/-! ## Contexts field by field -/

/-- The frames of a context that enters a function's body, whose own frame is `id`. -/
def Func.frames (f : Func) (frames : Chain) (id : FrameId) : Chain :=
  (match f.captured with
    | some captured => frames.push captured
    | none => frames).push id

/-- Entering a body leaves the frames of the caller as they are. -/
theorem Func.shrink_frames (f : Func) {frames : Chain} (id : FrameId) {n : Nat}
    (h : n ≤ frames.size) : (f.frames frames id).shrink n = frames.shrink n := by
  apply Array.ext'
  have hlen : n ≤ frames.toList.length := by rwa [Array.length_toList]
  rw [Array.toList_shrink, Array.toList_shrink, Func.frames, Array.toList_push]
  cases f.captured with
  | none => exact List.take_append_of_le_length hlen
  | some captured =>
    rw [Array.toList_push, List.append_assoc]
    exact List.take_append_of_le_length hlen

theorem Func.frames_shrink (f : Func) (frames : Chain) (id : FrameId) :
    (f.frames frames id).shrink frames.size = frames := by
  rw [f.shrink_frames id (Nat.le_refl _)]
  apply Array.ext'
  rw [Array.toList_shrink, List.take_of_length_le (Nat.le_of_eq Array.length_toList)]

theorem Func.size_frames (f : Func) (frames : Chain) (id : FrameId) :
    frames.size < (f.frames frames id).size := by
  unfold Func.frames
  split <;> simp only [Array.size_push] <;> omega

namespace Context

variable (c : Context)

theorem openSlot_eq :
    c.openSlot = { c with loops := c.loops.modify (c.loops.size - 1) (·.push none) } := by
  cases c
  rfl

theorem setSlot_eq (slot : Nat) (content : Option Context) :
    c.setSlot slot content = { c with
      loops := c.loops.modify (c.loops.size - 1) (·.setIfInBounds slot content) } := by
  cases c
  rfl

theorem closeGroup_eq : c.closeGroup = { c with loops := c.loops.pop } := by
  cases c
  rfl

@[simp] theorem calls_openSlot : c.openSlot.calls = c.calls := by
  rw [openSlot_eq]

@[simp] theorem frames_openSlot : c.openSlot.frames = c.frames := by
  rw [openSlot_eq]

@[simp] theorem calls_setSlot (slot : Nat) (content : Option Context) :
    (c.setSlot slot content).calls = c.calls := by
  rw [setSlot_eq]

@[simp] theorem frames_setSlot (slot : Nat) (content : Option Context) :
    (c.setSlot slot content).frames = c.frames := by
  rw [setSlot_eq]

@[simp] theorem calls_closeGroup : c.closeGroup.calls = c.calls := by
  rw [closeGroup_eq]

@[simp] theorem frames_closeGroup : c.closeGroup.frames = c.frames := by
  rw [closeGroup_eq]

theorem leave_eq (r : CallRecord) :
    c.leave r = ⟨c.ip, c.stack.shrink r.stackBase, c.frames.shrink r.frameDepth, c.calls.pop,
      c.loops.shrink r.loopDepth, c.pending⟩ := by
  cases c
  rfl

theorem enter_eq (f : Func) (b : Nat) (id : FrameId) :
    c.enter f b id = ⟨f.entry, c.stack.shrink b, f.frames c.frames id,
      c.calls.push ⟨c.ip, b, c.frames.size, c.loops.size⟩, c.loops, c.pending⟩ := by
  cases c
  rfl

end Context

/-! ## Stacks -/

theorem Context.swap_zero (c : Context) : c.swap 0 #[] = c := by
  obtain ⟨ip, stack, frames, calls, loops, pending⟩ := c
  simp [Context.swap]

theorem Context.size_swap (c : Context) (n : Nat) (vs : Array Value) :
    (c.swap n vs).stack.size = c.stack.size - n + vs.size := by
  simp [Context.swap]

theorem Context.swap_swap (c : Context) (a b : Nat) (vs : Array Value) :
    (c.swap a #[]).swap b vs = c.swap (a + b) vs := by
  have hsize : (c.swap a #[]).stack.size = c.stack.size - a := by
    rw [Context.size_swap]
    rfl
  obtain ⟨ip, stack, frames, calls, loops, pending⟩ := c
  simp only [Context.swap, Context.mk.injEq, true_and, and_true] at hsize ⊢
  rw [hsize]
  apply Array.ext'
  simp only [Array.append_empty, Array.toList_append, Array.toList_shrink, List.take_take]
  rw [show min (stack.size - a - b) (stack.size - a) = stack.size - (a + b) by omega]

theorem Machine.cut_zero (m : Machine) : m.cut 0 = m := by
  obtain ⟨active, consumers, globals, heap, console, journal⟩ := m
  rw [Machine.cut, Context.swap_zero]

theorem Context.Stack.swap {F : Func → Prop} {c : Context} (h : c.Stack F) (n : Nat)
    {vs : Array Value} (hv : ∀ v ∈ vs, v.AllFunctions F) : (c.swap n vs).Stack F := by
  intro v hmem
  simp only [Context.swap] at hmem
  rcases Array.mem_append.1 hmem with hmem | hmem
  · rw [Array.mem_def, Array.toList_shrink] at hmem
    exact h v (Array.mem_def.2 (List.mem_of_mem_take hmem))
  · exact hv v hmem

theorem Machine.Memory.cut {F : Func → Prop} {m : Machine} (h : m.Memory F) (n : Nat) :
    (m.cut n).Memory F :=
  ⟨h.globals, h.heap⟩

theorem Heap.frame_allFunctions {F : Func → Prop} {heap : Heap}
    (h : ∀ frame ∈ heap, ∀ v ∈ frame, v.AllFunctions F) (id : FrameId) :
    ∀ v ∈ heap.frame id, v.AllFunctions F := by
  unfold Heap.frame
  rcases Nat.lt_or_ge id heap.size with hlt | hge
  · rw [Array.getD_eq_getD_getElem?, Array.getElem?_eq_getElem hlt]
    exact h _ (Array.getElem_mem hlt)
  · rw [Array.getD_eq_getD_getElem?, Array.getElem?_eq_none hge]
    simp

theorem Machine.Memory.frame {F : Func → Prop} {m : Machine} (h : m.Memory F) (id : FrameId) :
    ∀ v ∈ m.heap.frame id, v.AllFunctions F :=
  Heap.frame_allFunctions h.heap id

theorem Heap.Kept.refl (h : Heap) : h.Kept h :=
  ⟨Nat.le_refl _, fun _ _ => rfl⟩

theorem Heap.Kept.trans {h h' h'' : Heap} (hk : h.Kept h') (hk' : h'.Kept h'') : h.Kept h'' :=
  ⟨Nat.le_trans hk.le hk'.le, fun id hid =>
    (hk'.size id (Nat.lt_of_lt_of_le hid hk.le)).trans (hk.size id hid)⟩

theorem Heap.Kept.store (h : Heap) (id : FrameId) (slot : Nat) (v : Value) :
    h.Kept (h.store id slot v) := by
  unfold Heap.store
  refine ⟨Nat.le_of_eq Array.size_modify.symm, fun k hk => ?_⟩
  simp only [Heap.frame, Array.getD_eq_getD_getElem?, Array.getElem?_modify,
    Array.getElem?_eq_getElem hk]
  split
  · exact Array.size_setIfInBounds
  · rfl

theorem Heap.Kept.push (h : Heap) (frame : Frame) : h.Kept (h.push frame) := by
  refine ⟨by rw [Array.size_push]; exact Nat.le_succ _, fun k hk => ?_⟩
  simp only [Heap.frame, Array.getD_eq_getD_getElem?, Array.getElem?_push]
  rw [if_neg (Nat.ne_of_lt hk)]

theorem Globals.get_set_allFunctions {F : Func → Prop} (g : Globals) (name other : String)
    {v : Value} (hg : ∀ name, (g.get name).AllFunctions F) (hv : v.AllFunctions F) :
    ((g.set name v).get other).AllFunctions F := by
  unfold Globals.get
  by_cases h : other = name
  · rw [h, Globals.get?_set_self]
    exact hv
  · rw [Globals.get?_set_of_ne g h]
    exact hg other

theorem Operand.size_received (o : Operand) (v : Value) : (o.received v).size = o.cells := by
  unfold Operand.received Operand.cells
  split <;> rfl

theorem Operand.received_allFunctions {F : Func → Prop} (o : Operand) {v : Value}
    (hv : v.AllFunctions F) : ∀ w ∈ o.received v, w.AllFunctions F := by
  unfold Operand.received
  intro w hw
  split at hw
  · cases Array.mem_singleton.1 hw
    exact hv
  · simp at hw

/-! ## Leading to a state -/

/-- An action leads to a state as `Q` says, or to a fault as `E` says. -/
def Action.Leads {α : Type} (x : Action α) (m : Machine) (Q : α → Machine → Prop)
    (E : Cause → Machine → Prop) : Prop :=
  match x m with
  | .ok a m' => Q a m'
  | .error cause m' => E cause m'

namespace Action

variable {α β : Type} {x : Action α} {f : α → Action β} {m : Machine}
  {Q : β → Machine → Prop} {P P' : α → Machine → Prop} {E E' : Cause → Machine → Prop}

theorem Leads.bind (hx : Leads x m P E) (hf : ∀ a m', P a m' → Leads (f a) m' Q E) :
    Leads (x >>= f) m Q E := by
  unfold Leads at hx ⊢
  show match EStateM.bind x f m with
    | .ok a m' => Q a m'
    | .error cause m' => E cause m'
  unfold EStateM.bind
  cases hxm : x m with
  | ok a m' =>
    rw [hxm] at hx
    exact hf a m' hx
  | error cause m' =>
    rw [hxm] at hx
    exact hx

theorem Leads.mono (hx : Leads x m P E) (hp : ∀ a m', P a m' → P' a m')
    (he : ∀ cause m', E cause m' → E' cause m') : Leads x m P' E' := by
  unfold Leads at hx ⊢
  cases hxm : x m with
  | ok a m' =>
    rw [hxm] at hx
    exact hp a m' hx
  | error cause m' =>
    rw [hxm] at hx
    exact he cause m' hx

theorem Leads.of_ok {a : α} {m' : Machine} (h : x m = .ok a m') (hp : P a m') : Leads x m P E := by
  unfold Leads
  rw [h]
  exact hp

theorem Leads.of_error {cause : Cause} {m' : Machine} (h : x m = .error cause m')
    (he : E cause m') : Leads x m P E := by
  unfold Leads
  rw [h]
  exact he

theorem get_bind (f : Machine → Action α) (m : Machine) : (get >>= f) m = f m m :=
  rfl

theorem Leads.get {f : Machine → Action α} (h : Leads (f m) m P E) :
    Leads (MonadState.get >>= f) m P E :=
  h

theorem Leads.ok {a : α} {m' : Machine} (h : Leads x m P E) (hx : x m = .ok a m') : P a m' := by
  unfold Leads at h
  rw [hx] at h
  exact h

theorem Leads.error {cause : Cause} {m' : Machine} (h : Leads x m P E)
    (hx : x m = .error cause m') : E cause m' := by
  unfold Leads at h
  rw [hx] at h
  exact h

/-! ## Operands -/

variable {F : Func → Prop} {program : Program} {limits : Limits} {o : Operand} {v : Value}

theorem pop_eq (h : m.active.stack.back? = some v) : pop m = .ok v (m.cut 1) := by
  obtain ⟨⟨ip, stack, frames, calls, loops, pending⟩, consumers, globals, heap, console, journal⟩ := m
  have hback : stack.back? = some v := h
  have hpop : stack.pop = stack.shrink (stack.size - 1) ++ #[] := by
    apply Array.ext'
    simp [List.dropLast_eq_take]
  rw [pop, get_bind]
  simp only [hback]
  simp only [Machine.cut, Context.swap, ← hpop]
  rfl

theorem globalName_eq {index : Int} {name : String}
    (h : at? program.pool.constants index = some (.string name)) :
    globalName program index = pure name := by
  unfold globalName
  rw [h]

theorem at?_mem {γ : Type} {items : Array γ} {index : Int} {x : γ}
    (h : at? items index = some x) : x ∈ items := by
  unfold at? at h
  split at h
  · exact Array.mem_of_getElem? h
  · cases h

theorem frameAt_leads {depth : Nat} (hd : o.depth? = some depth) :
    Leads (frameAt depth) m
      (fun id m' => m.active.frames.at? depth = some id ∧ m' = m)
      (fun cause m' => Missing m.active.frames m.heap o cause ∧ m' = m) := by
  refine Leads.get ?_
  cases hat : m.active.frames.at? depth with
  | none => exact Leads.of_error rfl ⟨.frame hd hat, rfl⟩
  | some id => exact Leads.of_ok rfl ⟨rfl, rfl⟩

theorem readSlot_leads {depth : Nat} (hd : o.depth? = some depth) (hm : m.Memory F) :
    Leads (readSlot depth o.address) m
      (fun v m' => m' = m ∧ v.AllFunctions F ∧ (m.active.frames.at? depth).bind
        (fun id => at? (m.heap.frame id) o.address) = some v)
      (fun cause m' => Missing m.active.frames m.heap o cause ∧ m' = m) := by
  unfold readSlot
  refine (frameAt_leads hd).bind fun id m' ⟨hid, hm'⟩ => ?_
  subst hm'
  refine Leads.get ?_
  dsimp only
  cases hat : at? (m'.heap.frame id) o.address with
  | none => exact Leads.of_error rfl ⟨.slot hd hid hat, rfl⟩
  | some v =>
    refine Leads.of_ok rfl ⟨rfl, hm.frame id v (at?_mem hat), ?_⟩
    rw [hid]
    exact hat

theorem heap_store_mem {heap : Heap} {id : FrameId} {slot : Nat}
    (hm : ∀ frame ∈ heap, ∀ v ∈ frame, v.AllFunctions F) (hv : v.AllFunctions F) :
    ∀ frame ∈ heap.store id slot v, ∀ w ∈ frame, w.AllFunctions F := by
  intro frame hf w hw
  unfold Heap.store at hf
  obtain ⟨k, hk, rfl⟩ := Array.mem_iff_getElem.1 hf
  rw [Array.size_modify] at hk
  rw [Array.getElem_modify] at hw
  split at hw
  · rcases Array.mem_or_eq_of_mem_setIfInBounds hw with hw | rfl
    · exact hm _ (Array.getElem_mem hk) w hw
    · exact hv
  · exact hm _ (Array.getElem_mem hk) w hw

theorem writeSlot_leads {depth : Nat} (hd : o.depth? = some depth) (hm : m.Memory F)
    (hv : v.AllFunctions F) :
    Leads (writeSlot depth o.address v) m
      (fun _ m' => ∃ heap, m' = { m with heap } ∧ m'.Memory F ∧ m.heap.Kept heap)
      (fun cause m' => Missing m.active.frames m.heap o cause ∧ m' = m) := by
  unfold writeSlot
  refine (frameAt_leads hd).bind fun id m' ⟨hid, hm'⟩ => ?_
  subst hm'
  refine Leads.get ?_
  dsimp only
  split
  · obtain ⟨active, consumers, globals, heap, console, journal⟩ := m'
    exact Leads.of_ok rfl ⟨_, rfl, ⟨hm.globals, heap_store_mem hm.heap hv⟩, .store _ _ _ _⟩
  · next hslot =>
    refine Leads.of_error rfl ⟨.slot hd hid ?_, rfl⟩
    unfold at?
    split
    · next hpos =>
      apply Array.getElem?_eq_none
      omega
    · rfl

/-- Reading an operand takes what it stands for off the stack, or something is missing. -/
theorem fetch_leads (hr : program.Readable o) (hc : o.cells ≤ m.active.stack.size)
    (hs : m.active.Stack F) (hm : m.Memory F) :
    Leads (fetch program o) m
      (fun v m' => m' = m.cut o.cells ∧ v.AllFunctions F ∧ m.value? program o = some v)
      (fun cause m' => Missing m.active.frames m.heap o cause ∧ m' = m) := by
  obtain ⟨mode, address⟩ := o
  cases mode with
  | immediate => exact Leads.of_ok rfl ⟨m.cut_zero.symm, trivial, rfl⟩
  | global =>
    obtain ⟨name, hname⟩ := hr
    show Leads (globalName program address >>= _) m _ _
    rw [globalName_eq hname, pure_bind]
    refine Leads.of_ok rfl ⟨m.cut_zero.symm, hm.globals name, ?_⟩
    simp only [Machine.value?]
    rw [hname]
  | frame =>
    refine (readSlot_leads (o := ⟨.frame, address⟩) rfl hm).mono ?_ fun _ _ h => h
    rintro v m' ⟨rfl, hv, hval⟩
    exact ⟨m'.cut_zero.symm, hv, hval⟩
  | closure =>
    refine (readSlot_leads (o := ⟨.closure, address⟩) rfl hm).mono ?_ fun _ _ h => h
    rintro v m' ⟨rfl, hv, hval⟩
    exact ⟨m'.cut_zero.symm, hv, hval⟩
  | stack =>
    have hpos : 0 < m.active.stack.size := hc
    have hback : m.active.stack.back? = some m.active.stack[m.active.stack.size - 1] := by
      rw [Array.back?, Array.getElem?_eq_getElem]
    exact Leads.of_ok (pop_eq hback) ⟨rfl, hs _ (Array.getElem_mem _), hback⟩
  | data =>
    obtain ⟨v, hv, hk⟩ := hr
    refine Leads.of_ok ?_ ⟨m.cut_zero.symm, ?_, hv⟩
    · simp only [fetch]
      rw [hv]
      rfl
    · cases v with
      | array items => cases hk
      | function f => cases hk
      | _ => trivial

theorem push_leads : Leads (push limits v) m
    (fun _ m' => m' = { m with active := m.active.swap 0 #[v] })
    (fun cause m' => cause = .stackOverflow limits.maxStack ∧ m' = m) := by
  refine Leads.get ?_
  split
  · exact Leads.of_error rfl ⟨rfl, rfl⟩
  · refine Leads.of_ok rfl ?_
    simp [Context.swap]

/-- A yield that knows its consumer makes it active, and gives it the value. -/
theorem deliver_leads {c : Context} {cs : Array Context} {g : Globals} {h : Heap} {co : Console}
    {j : Journal} (e : Event) :
    Leads (do set (Machine.mk c cs g h co j); record e; push limits v) m
      (fun _ m' => ∃ j', m' = ⟨c.swap 0 #[v], cs, g, h, co, j'⟩)
      (fun cause m' => cause = .stackOverflow limits.maxStack ∧
        ∃ j', m' = ⟨c, cs, g, h, co, j'⟩) := by
  refine Leads.bind (P := fun _ m' => m' = ⟨c, cs, g, h, co, j⟩) (Leads.of_ok rfl rfl) ?_
  rintro _ _ rfl
  refine Leads.bind (P := fun _ m' => ∃ j', m' = ⟨c, cs, g, h, co, j'⟩)
    (Leads.of_ok rfl ⟨_, rfl⟩) ?_
  rintro _ _ ⟨j', rfl⟩
  refine push_leads.mono ?_ ?_
  · rintro _ _ rfl
    exact ⟨j', rfl⟩
  · rintro _ _ ⟨hcause, rfl⟩
    exact ⟨hcause, j', rfl⟩

/-- Writing an operand puts what it stands for on the stack, or something is missing. -/
theorem store_leads (hw : program.Writable o) (hm : m.Memory F) (hv : v.AllFunctions F) :
    Leads (store program limits o v) m
      (fun _ m' => ∃ globals heap, m' = ⟨m.active.swap 0 (o.received v), m.consumers, globals,
        heap, m.console, m.journal⟩ ∧ m'.Memory F ∧ m.heap.Kept heap)
      (fun cause m' => (cause = .stackOverflow limits.maxStack ∨
        Missing m.active.frames m.heap o cause) ∧ m' = m) := by
  obtain ⟨mode, address⟩ := o
  cases mode with
  | immediate | data => exact hw.elim
  | global =>
    obtain ⟨name, hname⟩ := hw
    show Leads (globalName program address >>= _) m _ _
    rw [globalName_eq hname, pure_bind]
    obtain ⟨active, consumers, globals, heap, console, journal⟩ := m
    refine Leads.of_ok rfl ⟨globals.set name v, heap, ?_, ⟨?_, hm.heap⟩, .refl _⟩
    · rw [show (Operand.mk .global address).received v = #[] from rfl, active.swap_zero]
    · intro other
      exact globals.get_set_allFunctions name other hm.globals hv
  | frame =>
    refine (writeSlot_leads (o := ⟨.frame, address⟩) rfl hm hv).mono ?_
      fun cause m' ⟨h, hm'⟩ => ⟨.inr h, hm'⟩
    rintro _ m' ⟨heap, rfl, hmem⟩
    refine ⟨m.globals, heap, ?_, hmem⟩
    rw [show (Operand.mk .frame address).received v = #[] from rfl, m.active.swap_zero]
  | closure =>
    refine (writeSlot_leads (o := ⟨.closure, address⟩) rfl hm hv).mono ?_
      fun cause m' ⟨h, hm'⟩ => ⟨.inr h, hm'⟩
    rintro _ m' ⟨heap, rfl, hmem⟩
    refine ⟨m.globals, heap, ?_, hmem⟩
    rw [show (Operand.mk .closure address).received v = #[] from rfl, m.active.swap_zero]
  | stack =>
    refine push_leads.mono ?_ fun cause m' ⟨h, hm'⟩ => ⟨.inl h, hm'⟩
    rintro _ m' rfl
    exact ⟨m.globals, m.heap, rfl, ⟨hm.globals, hm.heap⟩, .refl _⟩

theorem target_eq {ip : Nat} (h : program.InRange ip o) :
    target program ip o = pure (Program.jumpTarget ip o) := by
  unfold target
  exact if_pos h

end Action

end YieldMachine
