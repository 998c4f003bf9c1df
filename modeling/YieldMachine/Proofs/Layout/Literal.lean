import YieldMachine.Proofs.Layout.Compiled

/-!
# Functions as their literals declare them

A literal declares how many parameters its function has and how many slots its body needs.
Both counts have 64 bits. The instruction that makes the function holds them in fields of
16 bits, and they are read as numbers with a sign before they are checked: a count from
`2 ^ 15` on is refused, but for the last `2 ^ 15` of all counts, which pass for negative
numbers. The machine takes a negative number for zero, so of such a count nothing is left.

    compile_literals   what a compiled literal makes, and which literals are refused
-/

namespace YieldMachine

/-! ## Definitions -/

/-- A field of an instruction takes the count. -/
def Holdable (n : UInt64) : Prop :=
  n.toNat < 2 ^ 15 ∨ 2 ^ 64 - 2 ^ 15 ≤ n.toNat

instance (n : UInt64) : Decidable (Holdable n) :=
  inferInstanceAs (Decidable (_ ∨ _))

/-- What is left of a count in a field. -/
def heldCount (n : UInt64) : Nat :=
  if n.toNat < 2 ^ 15 then n.toNat else 0

/-- The instruction that is next calls the function with `n` arguments. -/
structure Machine.AtCall (m : Machine) (program : Program) (i : Instruction) (f : Func) (n : Nat) :
    Prop where
  instruction : program.instruction? m.active.ip = some i
  opcode : i.opcode = .call
  count : i.a.address = n
  callee : m.world.look program m.active i.b = some (.function f)
  args : i.b.cells + n ≤ m.active.stack.size

/-- The context behind the instruction that is next. -/
def Machine.next (m : Machine) : Context :=
  m.active.moved (m.active.ip + 1)

/-- The context in the body of a function that was called with `n` arguments. -/
def Machine.entered (m : Machine) (i : Instruction) (f : Func) (n : Nat) : Context :=
  (m.next.swap i.b.cells #[]).enter f (m.active.stack.size - (i.b.cells + n)) m.heap.size

/-- The world with the frame of that call, the arguments in the first of its slots. -/
def Machine.framed (m : Machine) (i : Instruction) (f : Func) (n : Nat) : World :=
  { m.world with heap := m.heap.push (Frame.ofArgs (m.active.stack.extract
    (m.active.stack.size - (i.b.cells + n)) (m.active.stack.size - i.b.cells)) f.frameSize) }

/-- Unless a limit is reached, the literal at the region makes functions of so many parameters
and slots, whose entry is the start of the region. A call with as many arguments enters there,
and a call with another number of them gives an error. -/
structure Program.Makes (program : Program) (region : Region) (params frameSize : Nat) : Prop where
  made : ∀ (q : Program) (limits : Limits) (m : Machine), program.Within q →
    m.active.ip = region.stop →
    (m.step q limits).At limits m.active (m.next.swap 0
      #[.function ⟨region.start, params, frameSize, m.active.frames.at? 0⟩]) m.consumers m.world
  entered : ∀ (q : Program) (limits : Limits) (m : Machine) (i : Instruction) (f : Func),
    f.entry = region.start → f.params = params → m.AtCall q i f params →
    (m.entered i f params).ip = region.start ∧
    (m.step q limits).At limits m.active (m.entered i f params) m.consumers
      (m.framed i f params)
  refused : ∀ (q : Program) (limits : Limits) (m : Machine) (i : Instruction) (f : Func) (n : Nat),
    f.params = params → n ≠ params → m.AtCall q i f n →
    (m.step q limits).At limits m.active
      (m.next.swap (i.b.cells + n) #[(ValueError.arity params n).value]) m.consumers m.world

/-- The code of a literal is at the region, and makes functions of what is left of its counts.
These are the declared ones, unless a count passes for a negative number. -/
structure Program.Renders (program : Program) (region : Region) (params frameSize : UInt64)
    (body : Node) : Prop where
  code : program.LiteralAt region params frameSize body
  holds : Holdable params ∧ Holdable (slotCount params frameSize)
  makes : program.Makes region (heldCount params) (heldCount (slotCount params frameSize))
  declared : params.toNat < 2 ^ 63 → frameSize.toNat < 2 ^ 63 →
    program.Makes region params.toNat (max frameSize.toNat params.toNat)

/-! ## Literals of a tree -/

section

variable {e : Enclosure} {params frameSize : UInt64} {body node child : Node} {nodes : List Node}

theorem Node.mem_enclosuresAll :
    e ∈ Node.enclosuresAll nodes ↔ ∃ node ∈ nodes, e ∈ node.enclosures := by
  induction nodes with
  | nil => simp [Node.enclosuresAll]
  | cons node nodes ih => simp [Node.enclosuresAll, ih]

theorem Node.mem_enclosuresOption {node : Option Node} :
    e ∈ Node.enclosuresOption node ↔ ∃ n ∈ node.toList, e ∈ n.enclosures := by
  cases node <;> simp [Node.enclosuresOption]

theorem Node.mem_enclosuresEach {own : Nat → Enclosure} (hown : ∀ k, e ≠ own k) (k : Nat) :
    e ∈ Node.enclosuresEach own k nodes ↔ ∃ node ∈ nodes, e ∈ node.enclosures := by
  induction nodes generalizing k with
  | nil => simp [Node.enclosuresEach]
  | cons node nodes ih => simp [Node.enclosuresEach, ih, hown]

/-- A literal is the node itself, or is in one right below it. -/
theorem Node.literal_mem_enclosures_step :
    .literal params frameSize body ∈ node.enclosures ↔
      node = .function params frameSize body ∨
        ∃ child ∈ node.children, .literal params frameSize body ∈ child.enclosures := by
  cases node with
  | forEach refs iterators body' =>
    have hown : .literal params frameSize body ∈
        Node.enclosuresEach (.iterator refs iterators body') 0 iterators ↔ _ :=
      Node.mem_enclosuresEach (fun _ h => by cases h) 0
    simp [Node.enclosures, Node.children, hown, or_comm]
  | function p f b =>
    simp [Node.enclosures, Node.children, or_comm, eq_comm]
  | _ =>
    simp [Node.enclosures, Node.children, Node.mem_enclosuresAll, Node.mem_enclosuresOption,
      or_comm]

theorem Node.sizeOf_lt_of_mem_children (h : child ∈ node.children) :
    sizeOf child < sizeOf node := by
  have hlist : ∀ nodes : List Node, child ∈ nodes → sizeOf child < sizeOf nodes :=
    fun _ => List.sizeOf_lt_of_mem
  cases node with
  | literal _ | ref _ => cases h
  | array nodes | block nodes | primitive _ nodes =>
    have := hlist nodes h
    simp only [Node.array.sizeOf_spec, Node.block.sizeOf_spec, Node.primitive.sizeOf_spec]
    omega
  | forEach _ nodes | call _ nodes =>
    simp only [Node.forEach.sizeOf_spec, Node.call.sizeOf_spec]
    rcases List.mem_cons.1 h with rfl | h
    · omega
    · have := hlist nodes h
      omega
  | cond condition thenBranch elseBranch =>
    simp only [Node.children, List.mem_cons, Option.mem_toList] at h
    simp only [Node.cond.sizeOf_spec]
    rcases h with rfl | rfl | rfl
    · omega
    · omega
    · simp only [Option.some.sizeOf_spec]
      omega
  | _ =>
    simp only [Node.children, List.mem_cons, List.not_mem_nil, or_false] at h
    rcases h with rfl | rfl | rfl <;> simp <;> omega

/-- The literals of a tree are its parts that are functions. -/
theorem Node.literal_mem_enclosures (node : Node) :
    .literal params frameSize body ∈ node.enclosures ↔
      (Node.function params frameSize body).Part node := by
  rw [Node.literal_mem_enclosures_step]
  constructor
  · rintro (rfl | ⟨child, hchild, hm⟩)
    · exact .self _
    · have := Node.sizeOf_lt_of_mem_children hchild
      exact .inside hchild ((Node.literal_mem_enclosures child).1 hm)
  · intro h
    cases h with
    | self => exact .inl rfl
    | inside hchild hpart =>
      have := Node.sizeOf_lt_of_mem_children hchild
      exact .inr ⟨_, hchild, (Node.literal_mem_enclosures _).2 hpart⟩
termination_by sizeOf node

end

/-! ## Counts -/

theorem toInt_toInt64 (n : UInt64) :
    n.toInt64.toInt =
      if n.toNat < 2 ^ 63 then (n.toNat : Int) else (n.toNat : Int) - (2 ^ 64 : Nat) := by
  rw [show n.toInt64.toInt = n.toBitVec.toInt from rfl, BitVec.toInt_eq_toNat_cond,
    show n.toBitVec.toNat = n.toNat from rfl]
  split <;> split <;> omega

theorem fits_toInt64 {n : UInt64} : Operand.fits n.toInt64.toInt ↔ Holdable n := by
  have hlt : n.toNat < 2 ^ 64 := n.toNat_lt
  simp only [Operand.fits, Bool.and_eq_true, decide_eq_true_eq, toInt_toInt64, Holdable]
  split <;> omega

theorem Holdable.toNat_toInt {n : UInt64} (h : Holdable n) :
    n.toInt64.toInt.toNat = heldCount n := by
  have hlt : n.toNat < 2 ^ 64 := n.toNat_lt
  unfold Holdable at h
  rw [toInt_toInt64, heldCount]
  split <;> split <;> omega

/-- A count that is no negative number in 64 bits is left as it is. -/
theorem Holdable.heldCount_eq {n : UInt64} (h : Holdable n) (hn : n.toNat < 2 ^ 63) :
    heldCount n = n.toNat := by
  unfold Holdable at h
  exact if_pos (by omega)

/-! ## Words -/

theorem fits_signed {n : Nat} (h : n < 0x10000) : Operand.fits (signed n) := by
  simp only [Operand.fits, Bool.and_eq_true, decide_eq_true_eq]
  unfold signed
  split <;> omega

/-- Whatever is read from a word fits in it. -/
theorem Operand.fits_of_ofBits {n : Nat} {o : Operand} (h : Operand.ofBits n = .ok o) :
    Operand.fits o.address := by
  unfold Operand.ofBits at h
  dsimp only at h
  split at h
  · cases h
    exact fits_signed (Nat.mod_lt _ (by decide))
  · cases h

theorem except_bind_eq_ok {ε α β : Type} {x : Except ε α} {f : α → Except ε β} {b : β} :
    x >>= f = .ok b ↔ ∃ a, x = .ok a ∧ f a = .ok b := by
  cases x <;> simp [bind, Except.bind]

theorem Instruction.fits_of_decode {w : Word} {i : Instruction}
    (h : Instruction.decode w = .ok i) : i.Fits := by
  unfold Instruction.decode at h
  dsimp only at h
  split at h
  · cases h
  · simp only [except_bind_eq_ok] at h
    obtain ⟨a, ha, b, hb, c, hc, hi⟩ := h
    cases hi
    exact ⟨Operand.fits_of_ofBits ha, Operand.fits_of_ofBits hb, Operand.fits_of_ofBits hc⟩

theorem Program.fits_of_instruction? {program : Program} {ip : Nat} {i : Instruction}
    (h : program.instruction? ip = some i) : i.Fits := by
  unfold Program.instruction? at h
  split at h
  · cases h
  · next w _ =>
    cases hw : Instruction.decode w with
    | error e =>
      rw [hw] at h
      cases h
    | ok j =>
      rw [hw] at h
      cases h
      exact Instruction.fits_of_decode hw

/-! ## Steps -/

section

variable {program q : Program} {limits : Limits} {m : Machine} {i : Instruction} {f : Func}
  {n : Nat}

namespace Machine.AtCall

theorem effect (h : m.AtCall q i f n) : i.effect = .call := by
  rw [Instruction.effect, h.opcode]
  rfl

/-- A call with as many arguments as the function asks for enters its body. -/
theorem enters (h : m.AtCall q i f n) (hn : f.params = n) :
    (m.step q limits).At limits m.active (m.entered i f n) m.consumers (m.framed i f n) := by
  refine m.at_self.step h.instruction (by rw [h.effect]; rfl) ?_
  intro m₁ h₁
  exact Action.call_entered_at h₁ h.count h.callee h.args hn

/-- A call with another number of arguments takes them and gives an error. -/
theorem refused (h : m.AtCall q i f n) (hn : f.params ≠ n) :
    (m.step q limits).At limits m.active
      (m.next.swap (i.b.cells + n) #[(ValueError.arity f.params n).value]) m.consumers m.world := by
  refine m.at_self.step h.instruction (by rw [h.effect]; rfl) ?_
  intro m₁ h₁
  exact Action.call_refused_at h₁ h.count h.callee h.args (if_pos hn)

end Machine.AtCall

namespace Program.LiteralAt

variable {region : Region} {params frameSize : UInt64} {body : Node}

/-- Wherever the instruction behind the body can be read, the counts fit its fields. -/
theorem holdable (h : program.LiteralAt region params frameSize body) :
    Holdable params ∧ Holdable (slotCount params frameSize) := by
  obtain ⟨entry, hi, -⟩ := h.made
  obtain ⟨-, hb, hc⟩ := Program.fits_of_instruction? hi
  exact ⟨fits_toInt64.1 hb, fits_toInt64.1 hc⟩

theorem makes (h : program.LiteralAt region params frameSize body) :
    program.Makes region (heldCount params) (heldCount (slotCount params frameSize)) := by
  obtain ⟨hparams, hslots⟩ := h.holdable
  obtain ⟨entry, hi, hleaps⟩ := h.made
  constructor
  case made =>
    intro q limits m hwithin hip
    obtain ⟨hrange, htarget⟩ := hleaps
    refine m.at_self.step (hip ▸ hwithin.instruction? hi) rfl ?_
    intro m₁ h₁
    rw [← hip] at hrange htarget
    rw [← htarget, ← hparams.toNat_toInt, ← hslots.toNat_toInt]
    exact Action.makeFunction_at h₁ (Program.InRange.grow hwithin hrange)
  case entered =>
    intro q limits m i f hentry hparams hcall
    refine ⟨?_, hcall.enters hparams⟩
    rw [Machine.entered, Context.enter_eq]
    exact hentry
  case refused =>
    intro q limits m i f n hparams hn hcall
    rw [← hparams] at hn ⊢
    exact hcall.refused hn.symm

theorem renders (h : program.LiteralAt region params frameSize body) :
    program.Renders region params frameSize body := by
  obtain ⟨hparams, hslots⟩ := h.holdable
  refine ⟨h, ⟨hparams, hslots⟩, h.makes, ?_⟩
  intro hp hf
  have hmax := toNat_slotCount params frameSize
  rw [Nat.max_comm, ← hmax, ← hparams.heldCount_eq hp, ← hslots.heldCount_eq (by omega)]
  exact h.makes

end Program.LiteralAt

end

/-! ## Statements -/

/-- Each literal of a statement that compiles has its place in the code. -/
theorem Program.compile_renders {program program' : Program} {journal journal' : Journal}
    {node body : Node} {entry : Nat} {params frameSize : UInt64}
    (h : program.compile journal node = ⟨.ok entry, program', journal'⟩)
    (hpart : (Node.function params frameSize body).Part node) :
    ∃ region, entry ≤ region.start ∧ region.stop < program'.code.size ∧
      program'.Renders region params frameSize body := by
  obtain ⟨sites, hmap, hlayout⟩ := compile_laid h
  rw [← Node.literal_mem_enclosures, ← hmap] at hpart
  obtain ⟨s, hs, hsite⟩ := List.mem_map.1 hpart
  cases s with
  | iterator => cases hsite
  | literal region =>
    cases hsite
    obtain ⟨hlo, hhi⟩ := hlayout.inside _ hs
    exact ⟨region, Nat.le_of_lt hlo, hhi, (hlayout.stands _ hs).renders⟩

/-- Each literal of a statement that compiles is rendered, and nothing else in its code makes
functions. A tree with a literal whose counts cannot be held does not compile, because of some
number that does not fit its field; unless a loop or a primitive of the tree is wrong too, and
that is found first. -/
theorem Program.compile_literals (program : Program) (journal : Journal) (node : Node) :
    (∀ entry program' journal', program.compile journal node = ⟨.ok entry, program', journal'⟩ →
      (∀ params frameSize body, (Node.function params frameSize body).Part node →
        ∃ region, entry ≤ region.start ∧ region.stop < program'.code.size ∧
          program'.Renders region params frameSize body) ∧
      ∀ ip i, entry ≤ ip → program'.instruction? ip = some i → i.opcode = .makeFunction →
        ∃ region params frameSize body, (Node.function params frameSize body).Part node ∧
          ip = region.stop ∧ program'.Renders region params frameSize body) ∧
    ∀ params frameSize body, (Node.function params frameSize body).Part node →
      ¬ (Holdable params ∧ Holdable (slotCount params frameSize)) →
      ∃ e program' journal', program.compile journal node = ⟨.error e, program', journal'⟩ ∧
        ((∃ field value, e = .addressOverflow field value) ∨
          ∃ part : Node, part.Part node ∧ part.arityError? = some e) := by
  refine ⟨fun entry program' journal' h => ⟨fun _ _ _ => compile_renders h, ?_⟩, ?_⟩
  · intro ip i hlo hi hop
    obtain ⟨sites, hmap, hlayout⟩ := compile_laid h
    obtain ⟨s, hs | hs, howns⟩ := hlayout.owned ip i hlo (Program.instruction?_lt hi) hi
      (by rw [Instruction.isOwned, hop])
    · cases s with
      | iterator =>
        rcases howns with ⟨h, -⟩ | ⟨h, -⟩ <;> cases hop.symm.trans h
      | literal region params frameSize body =>
        refine ⟨region, params, frameSize, body, ?_, howns.2, (hlayout.stands _ hs).renders⟩
        rw [← Node.literal_mem_enclosures, ← hmap]
        exact List.mem_map.2 ⟨_, hs, rfl⟩
    · exact hs.elim
  · intro params frameSize body hpart hnot
    cases h : program.compile journal node with
    | mk entry program' journal' =>
      cases entry with
      | error e => exact ⟨e, program', journal', rfl, compile_refused h⟩
      | ok entry =>
        obtain ⟨region, -, -, hrenders⟩ := compile_renders h hpart
        exact absurd hrenders.holds hnot

/-- A call of a function that returns its second argument. -/
def Node.second : Node :=
  .call (.function 2 0 (.ref (.own 1))) [.array [], .array []]

/-- The function of the second argument has two parameters, and the fifth instruction of its
statement makes it; a function of 40000 parameters is refused. -/
theorem Program.compile_literals_second :
    ∃ (program' : Program) (journal' : Journal) (region region' : Region)
      (params frameSize : UInt64) (body : Node) (field : AddressField) (value : Int),
      Program.empty.compile default .second = ⟨.ok 0, program', journal'⟩ ∧
      program'.Renders region 2 0 (.ref (.own 1)) ∧ program'.Makes region 2 2 ∧ region'.stop = 4 ∧
      program'.Renders region' params frameSize body ∧
      (Program.empty.compile default (.function 40000 0 (.literal .nil))).entry =
        .error (.addressOverflow field value) := by
  let compiled := Program.empty.compile default .second
  have hcompiled : compiled = ⟨.ok 0, compiled.program, compiled.journal⟩ :=
    Compiled.eq_of_entry (by decide +kernel)
  obtain ⟨hok, -⟩ := Program.compile_literals .empty default .second
  obtain ⟨hliterals, hmakes⟩ := hok _ _ _ hcompiled
  obtain ⟨region, -, -, hrenders⟩ := hliterals 2 0 (.ref (.own 1))
    (.inside List.mem_cons_self (.self _))
  have hi : compiled.program.instruction? 4 = some _ :=
    (Option.some_get! _ (by decide +kernel)).symm
  obtain ⟨region', params, frameSize, body, -, hstop, hrenders'⟩ :=
    hmakes 4 _ (Nat.zero_le _) hi (by decide +kernel)
  obtain ⟨-, hrefused⟩ := Program.compile_literals .empty default
    (.function 40000 0 (.literal .nil))
  obtain ⟨e, program'', journal'', herror, ⟨field, value, rfl⟩ | ⟨part, hpart, he⟩⟩ :=
    hrefused 40000 0 (.literal .nil) (.self _) (by decide)
  · refine ⟨_, _, region, region', params, frameSize, body, field, value, hcompiled, hrenders,
      hrenders.declared (by decide) (by decide), hstop.symm, hrenders', ?_⟩
    rw [herror]
  · -- neither the function nor its body binds or takes anything
    exfalso
    cases hpart with
    | self => cases he
    | inside hchild hpart =>
      cases List.mem_singleton.1 hchild
      cases hpart with
      | self => cases he
      | inside hchild => cases hchild

example : Holdable 18446744073709551615 ∧ heldCount 18446744073709551615 = 0 := by
  decide

end YieldMachine
