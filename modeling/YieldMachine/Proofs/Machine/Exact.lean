import YieldMachine.Proofs.Machine.Move

/-!
# Exact steps

`World` is what a program can see of a machine besides its contexts. `m.At c cs w` gives
contexts and world of a machine and leaves its journal open. An instruction whose
operands can be read and written leads to one state, unless a limit is reached.

    At.step   a step of an instruction whose effect is known
-/

namespace YieldMachine

/-! ## Worlds -/

/-- What outlives a run, as a program sees it. -/
structure World where
  globals : String → Value
  heap : Heap
  console : Console

/-- The text of a value that is one. -/
def Value.string? : Value → Option String
  | .string s => some s
  | _ => none

/-- The name that a global operand stands for. -/
def Program.name? (program : Program) (o : Operand) : Option String :=
  (Action.at? program.pool.constants o.address).bind Value.string?

namespace World

/-- The world with a global set. -/
def set (w : World) (name : String) (v : Value) : World :=
  { w with globals := fun other => if other = name then v else w.globals other }

/-- What a slot of a frame holds. -/
def slot? (w : World) (frame : Option FrameId) (slot : Int) : Option Value :=
  frame.bind fun id => Action.at? (w.heap.frame id) slot

/-- The world with a slot of a frame set, if there is such a slot. -/
def setSlot? (w : World) (frame : Option FrameId) (slot : Int) (v : Value) : Option World :=
  frame.bind fun id =>
    if 0 ≤ slot ∧ slot < (w.heap.frame id).size then
      some { w with heap := w.heap.store id slot.toNat v }
    else none

/-- What an operand holds; on the stack, what is on top. -/
def look (program : Program) (w : World) (c : Context) (o : Operand) : Option Value :=
  match o.mode with
  | .immediate => some (.int (Int64.ofInt o.address))
  | .global => (program.name? o).map w.globals
  | .frame => w.slot? (c.frames.at? 0) o.address
  | .closure => w.slot? (c.frames.at? 1) o.address
  | .stack => c.stack.back?
  | .data => Action.at? program.pool.constants o.address

/-- The world when a value is stored at an operand; the stack is no part of it. -/
def put? (program : Program) (w : World) (c : Context) (o : Operand) (v : Value) : Option World :=
  match o.mode with
  | .immediate | .data => none
  | .global => (program.name? o).map fun name => w.set name v
  | .frame => w.setSlot? (c.frames.at? 0) o.address v
  | .closure => w.setSlot? (c.frames.at? 1) o.address v
  | .stack => some w

end World

/-- The world of a machine. -/
def Machine.world (m : Machine) : World :=
  ⟨m.globals.get, m.heap, m.console⟩

/-- The contexts and the world of a machine, whatever its journal. -/
structure Machine.At (m : Machine) (c : Context) (cs : Array Context) (w : World) : Prop where
  active : m.active = c
  consumers : m.consumers = cs
  world : m.world = w

/-! ## Operands -/

theorem Program.name?_eq_some {program : Program} {o : Operand} {name : String} :
    program.name? o = some name ↔
      Action.at? program.pool.constants o.address = some (.string name) := by
  unfold Program.name?
  cases Action.at? program.pool.constants o.address with
  | none => simp
  | some v => cases v <;> simp [Value.string?]

variable {program : Program} {limits : Limits} {m m' : Machine} {c c' : Context}
  {cs cs' : Array Context} {w w' : World} {o : Operand} {v : Value} {i : Instruction}

theorem Machine.at_self (m : Machine) : m.At m.active m.consumers m.world :=
  ⟨rfl, rfl, rfl⟩

theorem Machine.At.globals (h : m.At c cs w) : m.globals.get = w.globals := by
  rw [← h.world]
  rfl

theorem Machine.At.heap (h : m.At c cs w) : m.heap = w.heap := by
  rw [← h.world]
  rfl

theorem Machine.At.console (h : m.At c cs w) : m.console = w.console := by
  rw [← h.world]
  rfl

theorem Machine.At.value? (h : m.At c cs w) (o : Operand) :
    m.value? program o = w.look program c o := by
  obtain ⟨mode, address⟩ := o
  cases mode with
  | global =>
    simp only [Machine.value?, World.look, Program.name?, h.globals]
    cases Action.at? program.pool.constants address with
    | none => rfl
    | some v => cases v <;> rfl
  | frame | closure | stack =>
    simp only [Machine.value?, World.look, World.slot?, h.active, h.heap]
  | immediate | data => rfl

theorem Machine.At.cut (h : m.At c cs w) (n : Nat) : (m.cut n).At (c.swap n #[]) cs w := by
  refine ⟨?_, h.consumers, h.world⟩
  rw [← h.active]
  rfl

theorem Machine.At.goto (h : m.At c cs w) (ip : Nat) : (m.goto ip).At (c.moved ip) cs w := by
  refine ⟨?_, h.consumers, h.world⟩
  rw [← h.active]
  rfl

theorem Machine.At.record (h : m.At c cs w) (e : Event) : (m.record e).At c cs w := by
  obtain ⟨active, consumers, globals, heap, console, journal⟩ := m
  exact ⟨h.active, h.consumers, h.world⟩

theorem Globals.get_set (g : Globals) (name : String) (v : Value) :
    (g.set name v).get = fun other => if other = name then v else g.get other := by
  funext other
  unfold Globals.get
  split
  · next h => rw [h, Globals.get?_set_self, Option.getD_some]
  · next h => rw [Globals.get?_set_of_ne g h]

namespace Action

theorem readSlot_exact {depth : Nat} {slot : Int}
    (h : (m.active.frames.at? depth).bind (fun id => at? (m.heap.frame id) slot) = some v) :
    readSlot depth slot m = .ok v m := by
  obtain ⟨id, hid, hv⟩ := Option.bind_eq_some_iff.1 h
  have hframe : frameAt depth m = .ok id m := by
    rw [frameAt, get_bind, hid]
    rfl
  show EStateM.bind (frameAt depth) _ m = _
  unfold EStateM.bind
  rw [hframe]
  dsimp only
  rw [get_bind]
  simp only [hv]
  rfl

/-- An operand that holds a value can be read. -/
theorem fetch_exact (h : m.At c cs w) (hv : w.look program c o = some v) :
    fetch program o m = .ok v (m.cut o.cells) := by
  rw [← h.value?] at hv
  obtain ⟨mode, address⟩ := o
  cases mode with
  | immediate =>
    cases hv
    rw [show Operand.cells ⟨.immediate, address⟩ = 0 from rfl, Machine.cut_zero]
    rfl
  | global =>
    rw [show Operand.cells ⟨.global, address⟩ = 0 from rfl, Machine.cut_zero]
    simp only [Machine.value?] at hv
    split at hv
    · next name hname =>
      cases hv
      show (globalName program address >>= _) m = _
      rw [globalName_eq hname, pure_bind]
      rfl
    · cases hv
  | frame =>
    rw [show Operand.cells ⟨.frame, address⟩ = 0 from rfl, Machine.cut_zero]
    exact readSlot_exact hv
  | closure =>
    rw [show Operand.cells ⟨.closure, address⟩ = 0 from rfl, Machine.cut_zero]
    exact readSlot_exact hv
  | stack => exact pop_eq hv
  | data =>
    rw [show Operand.cells ⟨.data, address⟩ = 0 from rfl, Machine.cut_zero]
    simp only [fetch]
    rw [show at? program.pool.constants address = some v from hv]
    rfl

theorem fetch_at {E : Cause → Machine → Prop} (h : m.At c cs w)
    (hv : w.look program c o = some v) :
    Leads (fetch program o) m (fun a m' => a = v ∧ m'.At (c.swap o.cells #[]) cs w) E :=
  Leads.of_ok (fetch_exact h hv) ⟨rfl, h.cut _⟩

theorem push_at (h : m.At c cs w) :
    Leads (push limits v) m (fun _ m' => m'.At (c.swap 0 #[v]) cs w)
      (fun cause _ => cause = .stackOverflow limits.maxStack ∧ limits.maxStack ≤ c.stack.size) := by
  refine Leads.get ?_
  rw [h.active]
  split
  · next hfull => exact Leads.of_error rfl ⟨rfl, hfull⟩
  · refine Leads.of_ok rfl ⟨?_, h.consumers, h.world⟩
    simp [Context.swap]

theorem writeSlot_at {E : Cause → Machine → Prop} {depth : Nat} {slot : Int} (h : m.At c cs w)
    (hp : w.setSlot? (c.frames.at? depth) slot v = some w') :
    Leads (writeSlot depth slot v) m (fun _ m' => m'.At c cs w') E := by
  obtain ⟨id, hid, hv⟩ := Option.bind_eq_some_iff.1 hp
  have hframe : frameAt depth m = .ok id m := by
    rw [frameAt, get_bind, h.active, hid]
    rfl
  refine Leads.bind (P := fun a m' => a = id ∧ m' = m) (Leads.of_ok hframe ⟨rfl, rfl⟩) ?_
  rintro id m ⟨rfl, rfl⟩
  refine Leads.get ?_
  dsimp only
  rw [← h.heap] at hv
  split at hv
  · next hslot =>
    rw [if_pos hslot]
    cases hv
    obtain ⟨active, consumers, globals, heap, console, journal⟩ := m
    refine Leads.of_ok rfl ⟨h.active, h.consumers, ?_⟩
    rw [← h.world]
    rfl
  · cases hv

/-- A value can be stored where there is room for it. -/
theorem store_at (h : m.At c cs w) (hp : w.put? program c o v = some w') :
    Leads (store program limits o v) m (fun _ m' => m'.At (c.swap 0 (o.received v)) cs w')
      (fun cause _ => cause = .stackOverflow limits.maxStack ∧
        limits.maxStack ≤ c.stack.size) := by
  obtain ⟨mode, address⟩ := o
  cases mode with
  | immediate | data => cases hp
  | stack =>
    cases hp
    exact push_at h
  | global =>
    obtain ⟨name, hname, rfl⟩ := Option.map_eq_some_iff.1 hp
    rw [show Operand.received ⟨.global, address⟩ v = #[] from rfl, Context.swap_zero]
    show Leads (globalName program address >>= _) m _ _
    rw [globalName_eq (Program.name?_eq_some.1 hname), pure_bind]
    obtain ⟨active, consumers, globals, heap, console, journal⟩ := m
    refine Leads.of_ok rfl ⟨h.active, h.consumers, ?_⟩
    rw [← h.world]
    simp only [Machine.world, World.set, Globals.get_set]
  | frame | closure =>
    rw [show Operand.received _ v = #[] from rfl, Context.swap_zero]
    exact writeSlot_at h hp

/-- A value cannot be stored where there is no room for it. -/
theorem store_nowhere (h : m.At c cs w) (hp : w.put? program c o v = none) :
    Leads (store program limits o v) m (fun _ _ => False) (fun _ _ => True) := by
  have hslot : ∀ {depth : Nat} {slot : Int},
      w.setSlot? (c.frames.at? depth) slot v = none →
      Leads (writeSlot depth slot v) m (fun _ _ => False) (fun _ _ => True) := by
    intro depth slot hnone
    unfold writeSlot
    refine Leads.bind (P := fun id m' => c.frames.at? depth = some id ∧ m' = m)
      ?_ fun id m' ⟨hid, hm'⟩ => ?_
    · refine Leads.get ?_
      rw [h.active]
      cases c.frames.at? depth with
      | none => exact Leads.of_error rfl trivial
      | some id => exact Leads.of_ok rfl ⟨rfl, rfl⟩
    · subst hm'
      rw [hid] at hnone
      refine Leads.get ?_
      dsimp only
      rw [h.heap]
      split
      · next hin =>
        simp only [World.setSlot?, Option.bind_some, if_pos hin] at hnone
        cases hnone
      · exact Leads.of_error rfl trivial
  obtain ⟨mode, address⟩ := o
  cases mode with
  | immediate | data => exact Leads.of_error rfl trivial
  | stack => cases hp
  | global =>
    show Leads (globalName program address >>= _) m _ _
    refine Leads.bind (P := fun _ _ => False) ?_ fun _ _ hfalse => hfalse.elim
    unfold globalName
    split
    · next name hname =>
      have hname' : program.name? ⟨.global, address⟩ = some name := Program.name?_eq_some.2 hname
      simp only [World.put?, hname', Option.map_some] at hp
      cases hp
    · exact Leads.of_error rfl trivial
    · exact Leads.of_error rfl trivial
  | frame | closure => exact hslot hp

end Action

/-- Where a variable is depends on the frames of a context alone. -/
theorem World.put?_of_frames (ho : o.isVariable) (hf : c'.frames = c.frames) :
    w.put? program c' o v = w.put? program c o v := by
  obtain ⟨mode, address⟩ := o
  cases mode with
  | immediate | data | stack => cases ho
  | global => rfl
  | frame | closure => simp only [World.put?, hf]

/-- What was stored at a variable can be read there. -/
theorem World.look_put (ho : o.isVariable) (hp : w.put? program c o v = some w') :
    w'.look program c o = some v := by
  have hslot : ∀ {frame : Option FrameId} {slot : Int},
      w.setSlot? frame slot v = some w' → w'.slot? frame slot = some v := by
    intro frame slot hset
    obtain ⟨id, rfl, hroom⟩ := Option.bind_eq_some_iff.1 hset
    split at hroom
    · next hin =>
      cases hroom
      obtain ⟨hpos, hlt⟩ := hin
      have hid : id < w.heap.size := by
        refine Nat.lt_of_not_le fun hge => ?_
        rw [Heap.frame, Array.getD_eq_getD_getElem?, Array.getElem?_eq_none hge] at hlt
        simp only [Option.getD_none, List.size_toArray, List.length_nil] at hlt
        omega
      have hframe : (w.heap.store id slot.toNat v).frame id =
          (w.heap.frame id).setIfInBounds slot.toNat v := by
        simp only [Heap.store, Heap.frame, Array.getD_eq_getD_getElem?, Array.getElem?_modify,
          if_pos, Array.getElem?_eq_getElem hid, Option.map_some, Option.getD_some]
      rw [World.slot?, Option.bind_some, hframe, Action.at?, if_pos hpos,
        Array.getElem?_setIfInBounds_self, if_pos (by omega)]
    · cases hroom
  obtain ⟨mode, address⟩ := o
  cases mode with
  | immediate | data | stack => cases ho
  | global =>
    obtain ⟨name, hname, rfl⟩ := Option.map_eq_some_iff.1 hp
    simp only [World.look]
    rw [show program.name? ⟨.global, address⟩ = some name from hname, Option.map_some]
    simp [World.set]
  | frame | closure => exact hslot hp

/-! ## Instructions -/

/-- What a call of a value with `n` arguments gives that enters no body. -/
def Value.refusal? (callee : Value) (n : Nat) : Option Value :=
  match callee with
  | .function f => if f.params ≠ n then some (ValueError.arity f.params n).value else none
  | .error message => some (.error message)
  | other => some (ValueError.notCallable other.kind).value

/-- A context has as many values or calls as the machine may have. -/
def Cause.Overflow (limits : Limits) (c : Context) (cause : Cause) : Prop :=
  cause = .stackOverflow limits.maxStack ∧ limits.maxStack ≤ c.stack.size ∨
    cause = .frameOverflow limits.maxCalls ∧ limits.maxCalls ≤ c.calls.size

/-- The state of a run, unless the context `c₀` had reached a limit. -/
def Step.At (limits : Limits) (c₀ c : Context) (cs : Array Context) (w : World) : Step → Prop
  | .running m => m.At c cs w
  | .faulted fault _ => fault.cause.Overflow limits c₀
  | _ => False

/-- An action leads from the context `c₀` to a state, unless a limit is reached. -/
def Action.Reaches {α : Type} (limits : Limits) (c₀ : Context) (x : Action α) (m : Machine)
    (c : Context) (cs : Array Context) (w : World) : Prop :=
  Action.Leads x m (fun _ m' => m'.At c cs w) (fun cause _ => cause.Overflow limits c₀)

theorem Context.size_swap_le (c : Context) (n : Nat) : (c.swap n #[]).stack.size ≤ c.stack.size := by
  rw [Context.size_swap]
  exact Nat.sub_le _ _

/-- A context reaches a limit that it reaches with fewer values. -/
theorem Action.Reaches.of_swap {α : Type} {x : Action α} {n : Nat}
    (h : Action.Reaches limits (c.swap n #[]) x m c' cs' w') :
    Action.Reaches limits c x m c' cs' w' :=
  Action.Leads.mono h (fun _ _ h => h) fun _ _ h =>
    h.imp_left fun h => ⟨h.1, Nat.le_trans h.2 (c.size_swap_le n)⟩

namespace Action

variable {ip : Nat}

theorem store_cut_at {n : Nat} (h : m.At (c.swap n #[]) cs w)
    (hp : w.put? program c o v = some w') :
    Reaches limits c (store program limits o v) m (c.swap n (o.received v)) cs w' := by
  have hp' : w.put? program (c.swap n #[]) o v = some w' := hp
  refine (store_at h hp').mono ?_ fun _ _ h => .inl ⟨h.1, Nat.le_trans h.2 (c.size_swap_le n)⟩
  intro _ m' h'
  rwa [Context.swap_swap] at h'

/-- An action takes `n` values from the stack of a context, and stores a value. -/
def Stores (program : Program) (limits : Limits) (x : Action Unit) (m : Machine) (c : Context)
    (cs : Array Context) (w : World) (n : Nat) (o : Operand) (v : Value) : Prop :=
  ∃ m', x m = store program limits o v m' ∧ m'.At (c.swap n #[]) cs w

theorem Stores.reaches {x : Action Unit} {n : Nat}
    (h : Stores program limits x m c cs w n o v) (hp : w.put? program c o v = some w') :
    Reaches limits c x m (c.swap n (o.received v)) cs w' := by
  obtain ⟨m', hx, hm'⟩ := h
  have hstore : Reaches limits c (store program limits o v) m' _ cs w' := store_cut_at hm' hp
  unfold Reaches Leads at hstore ⊢
  rwa [hx]

theorem unary_stores {f : Value → Value} (h : m.At c cs w) (hb : w.look program c i.b = some v) :
    Stores program limits (unary program limits i f) m c cs w i.b.cells i.a (f v) := by
  refine ⟨m.cut i.b.cells, ?_, h.cut _⟩
  show EStateM.bind (fetch program i.b) _ m = _
  unfold EStateM.bind
  rw [fetch_exact h hb]

theorem binary_stores {f : Value → Value → Value} {left right : Value} (h : m.At c cs w)
    (hc : w.look program c i.c = some right)
    (hb : w.look program (c.swap i.c.cells #[]) i.b = some left) :
    Stores program limits (binary program limits i f) m c cs w (i.c.cells + i.b.cells) i.a
      (f left right) := by
  have hm := (h.cut i.c.cells).cut i.b.cells
  rw [Context.swap_swap] at hm
  refine ⟨_, ?_, hm⟩
  show EStateM.bind (fetch program i.c) _ m = _
  unfold EStateM.bind
  rw [fetch_exact h hc]
  show EStateM.bind (fetch program i.b) _ _ = _
  unfold EStateM.bind
  rw [fetch_exact (h.cut i.c.cells) hb]

theorem unary_at {f : Value → Value} (h : m.At c cs w) (hb : w.look program c i.b = some v)
    (hp : w.put? program c i.a (f v) = some w') :
    Reaches limits c (unary program limits i f) m (c.swap i.b.cells (i.a.received (f v))) cs w' :=
  (unary_stores h hb).reaches hp

theorem binary_at {f : Value → Value → Value} {left right : Value} (h : m.At c cs w)
    (hc : w.look program c i.c = some right)
    (hb : w.look program (c.swap i.c.cells #[]) i.b = some left)
    (hp : w.put? program c i.a (f left right) = some w') :
    Reaches limits c (binary program limits i f) m
      (c.swap (i.c.cells + i.b.cells) (i.a.received (f left right))) cs w' :=
  (binary_stores h hc hb).reaches hp

theorem push_cut_at {n : Nat} (h : m.At (c.swap n #[]) cs w) :
    Reaches limits c (push limits v) m (c.swap n #[v]) cs w := by
  refine (push_at h).mono ?_ fun _ _ h => .inl ⟨h.1, Nat.le_trans h.2 (c.size_swap_le n)⟩
  intro _ m' h'
  rwa [Context.swap_swap] at h'

theorem slice_at {target start stop : Value} (h : m.At c cs w)
    (hc : w.look program c i.c = some stop)
    (hb : w.look program (c.swap i.c.cells #[]) i.b = some start)
    (ha : w.look program (c.swap (i.c.cells + i.b.cells) #[]) i.a = some target) :
    Reaches limits c (slice program limits i) m
      (c.swap (i.c.cells + i.b.cells + i.a.cells) #[target.slice start stop]) cs w := by
  refine (fetch_at h hc).bind ?_
  rintro stop m₁ ⟨rfl, h₁⟩
  refine (fetch_at h₁ hb).bind ?_
  rintro start m₂ ⟨rfl, h₂⟩
  rw [Context.swap_swap] at h₂
  refine (fetch_at h₂ ha).bind ?_
  rintro target m₃ ⟨rfl, h₃⟩
  rw [Context.swap_swap] at h₃
  exact push_cut_at h₃

theorem pop_at (h : m.At c cs w) (hv : c.stack.back? = some v) :
    Reaches limits c (discard pop) m (c.swap 1 #[]) cs w := by
  refine Leads.of_ok (?_ : discard pop m = .ok () (m.cut 1)) (h.cut 1)
  show EStateM.map _ pop m = _
  unfold EStateM.map
  rw [pop_eq (h.active ▸ hv)]

theorem truncate_at {height : Nat} (h : m.At c cs w) (hle : height ≤ c.stack.size) :
    truncate height m = .ok () (m.cut (c.stack.size - height)) := by
  rw [← h.active]
  exact truncate_eq height (h.active ▸ hle)

theorem makeArray_stores {n : Nat} (h : m.At c cs w) (hn : i.b.address = n)
    (hle : n ≤ c.stack.size) :
    Stores program limits (makeArray program limits i) m c cs w n i.a
      (.array (c.stack.extract (c.stack.size - n) c.stack.size)) := by
  refine ⟨m.cut n, ?_, h.cut n⟩
  unfold makeArray
  rw [get_bind]
  dsimp only
  rw [h.active, hn, if_pos (by omega), Int.toNat_natCast]
  show EStateM.bind (truncate _) _ m = _
  unfold EStateM.bind
  rw [truncate_at h (Nat.sub_le _ _), show c.stack.size - (c.stack.size - n) = n by omega]

theorem makeArray_at {n : Nat} (h : m.At c cs w) (hn : i.b.address = n) (hle : n ≤ c.stack.size)
    (hp : w.put? program c i.a (.array (c.stack.extract (c.stack.size - n) c.stack.size)) =
      some w') :
    Reaches limits c (makeArray program limits i) m (c.swap n (i.a.received
      (.array (c.stack.extract (c.stack.size - n) c.stack.size)))) cs w' :=
  (makeArray_stores h hn hle).reaches hp

theorem readLine_at (h : m.At c cs w)
    (hp : World.put? program { w with console := w.console.read.2 } c i.a
      (w.console.read.1.elim .nil .string) = some w') :
    Reaches limits c (readLine program limits i) m
      (c.swap 0 (i.a.received (w.console.read.1.elim .nil .string))) cs w' := by
  obtain ⟨active, consumers, globals, heap, console, journal⟩ := m
  have hco : console = w.console := h.console
  subst hco
  refine Leads.bind (P := fun line m' => line = w.console.read.1 ∧
    m' = ⟨active, consumers, globals, heap, w.console.read.2, journal⟩)
    (Leads.of_ok rfl ⟨rfl, rfl⟩) ?_
  rintro line _ ⟨rfl, rfl⟩
  refine store_cut_at (c := c) (n := 0) ?_ hp
  rw [Context.swap_zero]
  refine ⟨h.active, h.consumers, ?_⟩
  rw [← h.world]
  rfl

theorem write_at {ending : String} (h : m.At c cs w) (hb : w.look program c i.b = some v)
    (hp : World.put? program { w with console := w.console.write (v.text ++ ending) } c i.a .nil =
      some w') :
    Reaches limits c (write program limits i ending) m (c.swap i.b.cells (i.a.received .nil)) cs
      w' := by
  refine (fetch_at h hb).bind ?_
  rintro v m₁ ⟨rfl, h₁⟩
  obtain ⟨active, consumers, globals, heap, console, journal⟩ := m₁
  have hco : console = w.console := h₁.console
  subst hco
  refine Leads.bind (P := fun _ m' => m' = ⟨active, consumers, globals, heap,
    w.console.write (v.text ++ ending), journal⟩) (Leads.of_ok rfl rfl) ?_
  rintro _ _ rfl
  refine store_cut_at ?_ hp
  refine ⟨h₁.active, h₁.consumers, ?_⟩
  rw [← h₁.world]
  rfl

/-! ## Jumps and calls -/

theorem jump_at (h : m.At c cs w) (hj : program.InRange ip o) :
    Reaches limits c (do goto (← target program ip o)) m (c.moved (Program.jumpTarget ip o)) cs w := by
  rw [target_eq hj, pure_bind]
  exact Leads.of_ok rfl (h.goto _)

theorem jumpIfFalse_at {b : Bool} (h : m.At c cs w) (hj : program.InRange ip i.a)
    (hb : w.look program c i.b = some (.bool b)) :
    Reaches limits c (jumpIfFalse program ip i) m
      ((if b then c else c.moved (Program.jumpTarget ip i.a)).swap i.b.cells #[]) cs w := by
  refine (fetch_at h hb).bind ?_
  intro v m₁ ⟨hv, h₁⟩
  cases hv
  cases b with
  | true => exact Leads.of_ok rfl h₁
  | false => exact (jump_at h₁ hj).of_swap

theorem makeFunction_at {entry params frameSize : Operand} (h : m.At c cs w)
    (hj : program.InRange ip entry) :
    Reaches limits c (makeFunction program limits ip entry params frameSize) m
      (c.swap 0 #[.function ⟨Program.jumpTarget ip entry, params.address.toNat,
        frameSize.address.toNat, c.frames.at? 0⟩]) cs w := by
  unfold makeFunction
  rw [target_eq hj, pure_bind]
  refine Leads.get ?_
  rw [h.active]
  exact (push_at h).mono (fun _ _ h => h) fun _ _ h => .inl h

theorem refuse_at {base : Nat} (h : m.At c cs w) (hb : base ≤ c.stack.size) :
    Reaches limits c (refuse limits base v) m (c.swap (c.stack.size - base) #[v]) cs w := by
  refine Leads.bind (P := fun _ m' => m' = _) (Leads.of_ok (truncate_at h hb) rfl) ?_
  rintro _ _ rfl
  exact push_cut_at (h.cut _)

/-- A call that is refused takes callee and arguments and gives what it is refused with. -/
theorem call_refused_at {callee : Value} {n : Nat} (h : m.At c cs w)
    (ha : i.a.address = n) (hb : w.look program c i.b = some callee)
    (hle : i.b.cells + n ≤ c.stack.size) (hv : callee.refusal? n = some v) :
    Reaches limits c (call program limits i.a i.b) m (c.swap (i.b.cells + n) #[v]) cs w := by
  have hsize : (c.swap i.b.cells #[]).stack.size = c.stack.size - i.b.cells :=
    Context.size_swap _ _ _
  refine (fetch_at h hb).bind ?_
  rintro callee m₁ ⟨rfl, h₁⟩
  refine Leads.get ?_
  rw [h₁.active, ha, Int.toNat_natCast, if_neg (by omega)]
  have hrefuse : Reaches limits c (refuse limits ((c.swap i.b.cells #[]).stack.size - n) v) m₁
      (c.swap (i.b.cells + n) #[v]) cs w := by
    have hr : Reaches limits c (refuse limits ((c.swap i.b.cells #[]).stack.size - n) v) m₁ _ cs w :=
      (refuse_at h₁ (Nat.sub_le _ _)).of_swap
    rwa [show (c.swap i.b.cells #[]).stack.size - ((c.swap i.b.cells #[]).stack.size - n) = n by
      omega, Context.swap_swap] at hr
  cases callee with
  | function f =>
    simp only [Value.refusal?] at hv
    split at hv
    · next hn =>
      cases hv
      dsimp only
      rw [if_pos hn]
      exact hrefuse
    · cases hv
  | _ =>
    cases hv
    exact hrefuse

/-- A call of a function with as many arguments as it asks for enters its body. -/
theorem call_entered_at {f : Func} {n : Nat} (h : m.At c cs w)
    (ha : i.a.address = n) (hb : w.look program c i.b = some (.function f))
    (hle : i.b.cells + n ≤ c.stack.size) (hn : f.params = n) :
    Reaches limits c (call program limits i.a i.b) m
      ((c.swap i.b.cells #[]).enter f (c.stack.size - (i.b.cells + n)) w.heap.size) cs
      { w with heap := w.heap.push (Frame.ofArgs (c.stack.extract
        (c.stack.size - (i.b.cells + n)) (c.stack.size - i.b.cells)) f.frameSize) } := by
  have hsize : (c.swap i.b.cells #[]).stack.size = c.stack.size - i.b.cells :=
    Context.size_swap _ _ _
  refine (fetch_at h hb).bind ?_
  intro callee m₁ ⟨hcallee, h₁⟩
  cases hcallee
  refine Leads.get ?_
  rw [h₁.active, ha, Int.toNat_natCast, if_neg (by omega)]
  dsimp only
  rw [if_neg (fun hne => hne hn)]
  refine Leads.get ?_
  split
  · next hfull =>
    rw [h₁.active] at hfull
    exact Leads.of_error rfl (.inr ⟨rfl, hfull⟩)
  · obtain ⟨active, consumers, globals, heap, console, journal⟩ := m₁
    have hheap : heap = w.heap := h₁.heap
    subst hheap
    have hactive : active = c.swap i.b.cells #[] := h₁.active
    subst hactive
    refine Leads.of_ok rfl ⟨?_, h₁.consumers, ?_⟩
    · rw [hsize, Nat.sub_sub]
      rfl
    · rw [← h₁.world]
      simp only [Machine.world, Heap.alloc]
      rw [hsize, Nat.sub_sub]
      congr 3
      apply Array.ext'
      simp [Context.swap, Array.toList_extract, List.extract_eq_take_drop]

theorem leaveProducers_of_call {r : CallRecord} (hr : c.calls.back? = some r) (gone : Nat) :
    leaveProducers c cs gone = some (c, cs, gone) := by
  have hne : c.calls.isEmpty = false := by
    rw [Array.isEmpty_eq_false_iff]
    rintro hempty
    rw [hempty] at hr
    cases hr
  rw [leaveProducers, hne]
  rfl

/-- A return in a context with a call leaves that call. -/
theorem ret_at {r : CallRecord} (h : m.At c cs w) (hb : w.look program c o = some v)
    (hr : c.calls.back? = some r) (hf : r.frameDepth ≤ c.frames.size) :
    Leads (ret program limits ip o) m
      (fun _ m' => m'.At ((((c.swap o.cells #[]).leave r).swap 0 #[v]).moved r.returnIp) cs w)
      (fun cause _ => cause = .stackOverflow limits.maxStack ∧
        limits.maxStack ≤ r.stackBase) := by
  refine (fetch_at h hb).bind ?_
  rintro v m₁ ⟨rfl, h₁⟩
  refine Leads.get ?_
  obtain ⟨active, consumers, globals, heap, console, journal⟩ := m₁
  have hactive : active = c.swap o.cells #[] := h₁.active
  subst hactive
  dsimp only
  rw [leaveProducers_of_call (c := c.swap o.cells #[]) hr]
  dsimp only
  rw [show (c.swap o.cells #[]).calls.back? = some r from hr]
  dsimp only
  rw [show (c.swap o.cells #[]).lacksFrames r.frameDepth = false from
    decide_eq_false (Nat.not_lt_of_le hf)]
  simp only [Bool.false_eq_true, if_false]
  refine Leads.bind (P := fun _ m' => m'.At ((c.swap o.cells #[]).leave r) cs w) ?_ ?_
  · refine Leads.bind (P := fun _ m' => m' = ⟨(c.swap o.cells #[]).leave r, consumers, globals,
      heap, console, journal⟩) (Leads.of_ok rfl rfl) ?_
    rintro _ _ rfl
    refine (record_leads _ _).mono ?_ fun _ _ h => h
    rintro _ _ ⟨j', rfl⟩
    exact ⟨rfl, h₁.consumers, h₁.world⟩
  · intro _ m₂ h₂
    refine Leads.bind ((push_at h₂).mono (fun _ _ h => h) ?_) ?_
    · rintro _ _ ⟨rfl, hfull⟩
      refine ⟨rfl, Nat.le_trans hfull ?_⟩
      rw [Context.leave_eq, Array.size_shrink]
      omega
    intro _ m₃ h₃
    exact Leads.of_ok rfl (h₃.goto _)

end Action

/-! ## Steps -/

theorem Machine.At.traced (h : m.At c cs w) (limits : Limits) (e : Event) :
    (if limits.trace then m.record e else m).At c cs w := by
  split
  · exact h.record e
  · exact h

/-- A step of an instruction whose effect leads to a state, unless a limit is reached. -/
theorem Machine.At.step {x : Action Unit} (h : m.At c cs w)
    (hi : program.instruction? c.ip = some i)
    (he : i.effect.run program limits c.ip i = do x; return Flow.next)
    (hx : ∀ m₁ : Machine, m₁.At (c.moved (c.ip + 1)) cs w →
      Action.Reaches limits (c.moved (c.ip + 1)) x m₁ c' cs' w') :
    (m.step program limits).At limits c c' cs' w' := by
  rw [← h.active] at hi
  rw [Machine.step_eq hi, h.active, Action.execute_eq, he]
  have htraced := h.traced limits (.executing c.ip i m.consumers.size)
  have hleads := hx _ (htraced.goto (c.ip + 1))
  have hflow : Action.Leads (do x; return Flow.next) _
      (fun flow m' => flow = Flow.next ∧ m'.At c' cs' w') _ :=
    hleads.bind fun _ _ h => Action.Leads.of_ok rfl ⟨rfl, h⟩
  unfold Action.Leads at hflow
  revert hflow
  cases (do x; return Flow.next : Action Flow)
      ((if limits.trace then m.record (.executing c.ip i m.consumers.size) else m).goto
        (c.ip + 1)) with
  | ok flow m' =>
    rintro ⟨rfl, hm'⟩
    exact hm'
  | error cause m' => exact fun h => h

/-- A step of an instruction that stores a value goes on with the value stored, unless the
stack is full, and does not go on where the value cannot be stored. -/
theorem Machine.At.step_stores {x : Action Unit} {n : Nat} (h : m.At c cs w)
    (hi : program.instruction? c.ip = some i)
    (he : i.effect.run program limits c.ip i = do x; return Flow.next)
    (hx : ∀ m₁ : Machine, m₁.At (c.moved (c.ip + 1)) cs w →
      Action.Stores program limits x m₁ (c.moved (c.ip + 1)) cs w n o v) :
    (∀ w', w.put? program c o v = some w' →
      (∃ m', m.step program limits = .running m' ∧
        m'.At ((c.moved (c.ip + 1)).swap n (o.received v)) cs w') ∨
      ∃ fault m', m.step program limits = .faulted fault m' ∧
        fault.cause = .stackOverflow limits.maxStack) ∧
    (w.put? program c o v = none → ∀ m', m.step program limits ≠ .running m') := by
  rw [← h.active] at hi
  rw [Machine.step_eq hi, h.active, Action.execute_eq, he]
  obtain ⟨m₂, hm₂, hat⟩ := hx _ ((h.traced limits (.executing c.ip i m.consumers.size)).goto
    (c.ip + 1))
  generalize (if limits.trace then m.record (.executing c.ip i m.consumers.size) else m).goto
    (c.ip + 1) = m₁ at hm₂ ⊢
  have hrun : (do x; return Flow.next : Action Flow) m₁ =
      EStateM.map (fun _ => Flow.next) (Action.store program limits o v) m₂ := by
    show EStateM.bind x _ m₁ = _
    unfold EStateM.bind EStateM.map
    rw [hm₂]
    rfl
  rw [hrun]
  unfold EStateM.map
  refine ⟨fun w' hp => ?_, fun hp m' => ?_⟩
  · have hstore : Action.Leads (Action.store program limits o v) m₂ _ _ :=
      Action.store_at hat (show w.put? program _ o v = some w' from hp)
    cases hs : Action.store program limits o v m₂ with
    | ok _ m' =>
      have hm' := hstore.ok hs
      rw [Context.swap_swap] at hm'
      exact .inl ⟨m', rfl, hm'⟩
    | error cause m' => exact .inr ⟨_, m', rfl, (hstore.error hs).1⟩
  · have hstore : Action.Leads (Action.store program limits o v) m₂ _ _ :=
      Action.store_nowhere hat hp
    cases hs : Action.store program limits o v m₂ with
    | ok _ m' => exact (hstore.ok hs).elim
    | error cause m' => exact nofun

/-- A step that stores a value goes on if there is room on the stack. -/
theorem Machine.At.step_room {x : Action Unit} {n : Nat} (h : m.At c cs w)
    (hi : program.instruction? c.ip = some i)
    (he : i.effect.run program limits c.ip i = do x; return Flow.next)
    (hx : ∀ m₁ : Machine, m₁.At (c.moved (c.ip + 1)) cs w →
      Action.Stores program limits x m₁ (c.moved (c.ip + 1)) cs w n o v)
    (hp : w.put? program c o v = some w') (hroom : c.stack.size < limits.maxStack) :
    ∃ m', m.step program limits = .running m' ∧
      m'.At ((c.moved (c.ip + 1)).swap n (o.received v)) cs w' := by
  rcases (h.step_stores hi he hx).1 w' hp with hruns | ⟨fault, m', hstep, hfull⟩
  · exact hruns
  · have hat := h.step hi he fun m₁ h₁ => (hx m₁ h₁).reaches hp
    rw [hstep] at hat
    rcases hat with ⟨-, hle⟩ | ⟨hcause, -⟩
    · exact absurd hle (Nat.not_le_of_lt hroom)
    · cases hfull.symm.trans hcause

/-- A step that stores a value and goes on has stored it. -/
theorem Machine.At.stored {x : Action Unit} {n : Nat} (h : m.At c cs w)
    (hi : program.instruction? c.ip = some i)
    (he : i.effect.run program limits c.ip i = do x; return Flow.next)
    (hx : ∀ m₁ : Machine, m₁.At (c.moved (c.ip + 1)) cs w →
      Action.Stores program limits x m₁ (c.moved (c.ip + 1)) cs w n o v)
    (hstep : m.step program limits = .running m') :
    ∃ w', w.put? program c o v = some w' ∧
      m'.At ((c.moved (c.ip + 1)).swap n (o.received v)) cs w' := by
  obtain ⟨hsome, hnone⟩ := h.step_stores hi he hx
  cases hp : w.put? program c o v with
  | none => exact absurd hstep (hnone hp m')
  | some w' =>
    rcases hsome w' hp with ⟨m₁, hstep₁, hat⟩ | ⟨fault, m₁, hstep₁, -⟩
    · rw [hstep] at hstep₁
      cases hstep₁
      exact ⟨w', rfl, hat⟩
    · rw [hstep] at hstep₁
      cases hstep₁

/-- A step that applies an operation and goes on has stored the value. -/
theorem Machine.At.stores {f : Value → Value} (h : m.At c cs w)
    (hi : program.instruction? c.ip = some i) (he : i.effect = .unary f)
    (hb : w.look program c i.b = some v) (hstep : m.step program limits = .running m') :
    ∃ w', w.put? program c i.a (f v) = some w' ∧
      m'.At ((c.moved (c.ip + 1)).swap i.b.cells (i.a.received (f v))) cs w' :=
  h.stored hi (by rw [he]; rfl) (fun _ h₁ => Action.unary_stores (f := f) h₁ hb) hstep

/-- A step that makes a function puts it on the stack, or finds no room for it there. -/
theorem Machine.step_makeFunction {m : Machine} (hi : program.instruction? m.active.ip = some i)
    (he : i.effect = .makeFunction) (hj : program.InRange m.active.ip i.a) :
    (∃ m', m.step program limits = .running m' ∧
      m'.active.stack.back? = some (.function (i.made m.active.ip m.active.frames))) ∨
    ∃ m', m.step program limits = .faulted ⟨.stackOverflow limits.maxStack, m.active.ip⟩ m' ∧
      m'.globals = m.globals ∧ m'.heap = m.heap := by
  rw [Machine.step_eq hi, Action.execute_eq, he]
  obtain ⟨m₁, hm₁, hactive, hglobals, hheap⟩ : ∃ m₁, m₁ = Machine.goto (if limits.trace then
      m.record (.executing m.active.ip i m.consumers.size) else m) (m.active.ip + 1) ∧
      m₁.active = m.active.moved (m.active.ip + 1) ∧ m₁.globals = m.globals ∧
      m₁.heap = m.heap := by
    refine ⟨_, rfl, ?_⟩
    split <;> exact ⟨rfl, rfl, rfl⟩
  rw [← hm₁]
  have hrun : Action.Leads (Action.makeFunction program limits m.active.ip i.a i.b i.c) m₁
      (fun _ m' => m'.active.stack.back? = some (.function (i.made m.active.ip m.active.frames)))
      (fun cause m' => cause = .stackOverflow limits.maxStack ∧ m' = m₁) := by
    unfold Action.makeFunction
    rw [Action.target_eq hj, pure_bind]
    refine Action.Leads.get (Action.Leads.get ?_)
    split
    · exact Action.Leads.of_error rfl ⟨rfl, rfl⟩
    · refine Action.Leads.of_ok rfl ?_
      rw [hactive]
      exact Array.back?_push
  have hflow : Action.Leads (Effect.run program limits m.active.ip i .makeFunction) m₁
      (fun flow m' => flow = .next ∧ m'.active.stack.back? =
        some (.function (i.made m.active.ip m.active.frames))) _ :=
    hrun.bind fun _ _ h => Action.Leads.of_ok rfl ⟨rfl, h⟩
  cases hx : Effect.run program limits m.active.ip i .makeFunction m₁ with
  | ok flow m' =>
    obtain ⟨rfl, hback⟩ := hflow.ok hx
    exact .inl ⟨m', rfl, hback⟩
  | error cause m' =>
    obtain ⟨rfl, rfl⟩ := hflow.error hx
    exact .inr ⟨m', rfl, hglobals, hheap⟩

/-- A step of an instruction that stops the run. -/
theorem Machine.At.exits (h : m.At c cs w) (hi : program.instruction? c.ip = some i)
    (he : i.effect = .exit) (hb : w.look program c i.b = some v) :
    ∃ m', m.step program limits = .exited v.exitStatus m' ∧ m'.world = w := by
  rw [← h.active] at hi
  rw [Machine.step_eq hi, h.active, Action.execute_eq, he]
  have h₁ := (h.traced limits (.executing c.ip i m.consumers.size)).goto (c.ip + 1)
  generalize (if limits.trace then m.record (.executing c.ip i m.consumers.size) else m).goto
    (c.ip + 1) = m₁ at h₁ ⊢
  have hrun : Effect.run program limits c.ip i .exit m₁ =
      .ok (.exit v.exitStatus) (m₁.cut i.b.cells) := by
    show EStateM.bind (Action.fetch program i.b) _ m₁ = _
    unfold EStateM.bind
    rw [Action.fetch_exact h₁ hb]
    rfl
  rw [hrun]
  exact ⟨_, rfl, (h₁.cut _).world⟩

end YieldMachine
