import YieldMachine.Proofs.Compile.Statement
import YieldMachine.Proofs.Machine.Effect

/-!
# Shapes and safe places

A shape is what is known about an activation without running it: what kind of code it
runs, how many values it has on the stack, and how far each of its loops has come. An
instruction admits a shape or not, and leads to places with shapes. A place is safe in
a shape when nothing that can be reached from it is refused; code may stop only where
`X` says so.

    SafeIn program X n ip s   nothing within n steps is refused
    Safe program X ip s       nothing at all is refused

The number of steps makes loops a matter of induction: the jump back is one step.
-/

namespace YieldMachine

/-! ## Shapes -/

/-- Whose code an activation runs. -/
inductive Home where
  | statement
  | body
  | iterator
  deriving DecidableEq, Repr

/-- What is known about an activation. Of its loops, the innermost first: so many
producers are parked, or nothing is known because the loop is being left. -/
structure Shape where
  home : Home
  height : Nat
  loops : List (Option Nat)
  deriving DecidableEq, Repr

namespace Shape

/-- The start of a function's body. -/
def body : Shape := ⟨.body, 0, []⟩

/-- The start of an iterator. -/
def iterator : Shape := ⟨.iterator, 0, []⟩

/-- The start of a statement. -/
def statement : Shape := ⟨.statement, 0, []⟩

/-- The shape with `n` more values. -/
def up (s : Shape) (n : Nat) : Shape := { s with height := s.height + n }

/-- The shape with other loops. -/
def within (s : Shape) (loops : List (Option Nat)) : Shape := { s with loops }

/-- The shape behind an instruction that takes and gives. -/
def after (s : Shape) (i : Instruction) : Shape :=
  { s with height := s.height - i.takes + i.gives }

end Shape

/-! ## Where an instruction leads -/

namespace Instruction

/-- Can an instruction run in a shape? -/
def Admits (i : Instruction) (s : Shape) : Prop :=
  i.takes ≤ s.height ∧
    match i.effect with
    | .spawn => ∃ k rest, s.loops = some k :: rest
    | .resume => ∃ k rest, s.loops = some k :: rest ∧ i.a.address.toNat < k
    | .endIteration => s.home = .iterator
    | .closeGroup => ∃ rest, s.loops = none :: rest
    | _ => True

/-- The bodies and iterators that an instruction at `ip` makes ready to start. -/
def starts (ip : Nat) (i : Instruction) : List (Nat × Shape) :=
  match i.effect with
  | .makeFunction => [(Program.jumpTarget ip i.a, .body)]
  | .spawn => [(ip + 1, .iterator)]
  | _ => []

/-- The places where the activation itself may go on behind an instruction at `ip`. -/
def continues (ip : Nat) (i : Instruction) (s : Shape) : List (Nat × Shape) :=
  let target (o : Operand) := Program.jumpTarget ip o
  match i.effect, s.loops with
  | .jump, _ => [(target i.a, s)]
  | .jumpIfFalse, _ => [(ip + 1, s.after i), (target i.a, s.after i)]
  | .openGroup, loops => [(ip + 1, s.within (some 0 :: loops))]
  | .spawn, some k :: rest =>
    [(target i.a, (s.up 1).within (some (k + 1) :: rest)), (target i.b, s.within (none :: rest))]
  | .resume, some k :: rest =>
    [(ip + 1, (s.up 1).within (some k :: rest)), (target i.b, s.within (none :: rest))]
  | .closeGroup, _ :: rest => [(ip + 1, s.within rest)]
  | .ret, _ | .exit, _ | .endIteration, _ => []
  | _, _ => [(ip + 1, s.after i)]

/-- All places an instruction leads to. -/
def successors (ip : Nat) (i : Instruction) (s : Shape) : List (Nat × Shape) :=
  i.starts ip ++ i.continues ip s

end Instruction

/-! ## Safety -/

/-- Nothing that is reached within `n` steps is refused. -/
def SafeIn (program : Program) (X : Nat → Shape → Prop) : Nat → Nat → Shape → Prop
  | 0, _, _ => True
  | n + 1, ip, s =>
    X ip s ∨ ∃ i, program.instruction? ip = some i ∧ i.Legal program ip ∧ i.Admits s ∧
      ∀ p ∈ i.successors ip s, SafeIn program X n p.1 p.2

/-- Nothing that is reached is refused. -/
def Safe (program : Program) (X : Nat → Shape → Prop) (ip : Nat) (s : Shape) : Prop :=
  ∀ n, SafeIn program X n ip s

/-- The end of a statement: the code stops with one value. -/
def Program.Ends (program : Program) (ip : Nat) (s : Shape) : Prop :=
  ip = program.code.size ∧ s = Shape.statement.up 1

variable {program : Program} {X : Nat → Shape → Prop} {n ip : Nat} {s : Shape} {i : Instruction}

theorem SafeIn.pred (h : SafeIn program X (n + 1) ip s) : SafeIn program X n ip s := by
  induction n generalizing ip s with
  | zero => exact trivial
  | succ n ih =>
    rcases h with hx | ⟨i, hi, hl, ha, hs⟩
    · exact .inl hx
    · exact .inr ⟨i, hi, hl, ha, fun p hp => ih (hs p hp)⟩

theorem SafeIn.le {k : Nat} (h : SafeIn program X n ip s) (hk : k ≤ n) :
    SafeIn program X k ip s := by
  induction hk with
  | refl => exact h
  | step _ ih => exact ih h.pred

/-- A place is safe as long as those it leads to are. -/
theorem SafeIn.step (hi : program.instruction? ip = some i) (hl : i.Legal program ip)
    (ha : i.Admits s) (hs : ∀ p ∈ i.successors ip s, SafeIn program X n p.1 p.2) :
    SafeIn program X n ip s := by
  cases n with
  | zero => exact trivial
  | succ n => exact .inr ⟨i, hi, hl, ha, fun p hp => (hs p hp).pred⟩

/-- A place is safe one step longer than those it leads to. -/
theorem SafeIn.succ (hi : program.instruction? ip = some i) (hl : i.Legal program ip)
    (ha : i.Admits s) (hs : ∀ p ∈ i.successors ip s, SafeIn program X n p.1 p.2) :
    SafeIn program X (n + 1) ip s :=
  .inr ⟨i, hi, hl, ha, hs⟩

theorem Safe.of_exit (h : X ip s) : Safe program X ip s := by
  intro n
  cases n with
  | zero => exact trivial
  | succ n => exact .inl h

/-- What is known of a safe place that is no exit. -/
theorem Safe.cases (h : Safe program X ip s) :
    X ip s ∨ ∃ i, program.instruction? ip = some i ∧ i.Legal program ip ∧ i.Admits s ∧
      ∀ p ∈ i.successors ip s, Safe program X p.1 p.2 := by
  rcases h 1 with hx | ⟨i, hi, hl, ha, -⟩
  · exact .inl hx
  · by_cases hx : X ip s
    · exact .inl hx
    · refine .inr ⟨i, hi, hl, ha, fun p hp n => ?_⟩
      rcases h (n + 1) with hx' | ⟨j, hj, -, -, hs⟩
      · exact absurd hx' hx
      · rw [hi] at hj
        cases hj
        exact hs p hp

/-! ## Growing programs -/

theorem Action.at?_within {p q : Pool} (h : p.Within q) {k : Int} {v : Value}
    (hv : Action.at? p.constants k = some v) : Action.at? q.constants k = some v := by
  unfold Action.at? at hv ⊢
  split at hv
  · next hk =>
    rw [if_pos hk]
    exact h _ v hv
  · cases hv

section Growth

variable {p q : Program}

theorem Program.Readable.grow (h : p.Within q) {o : Operand} (ho : p.Readable o) :
    q.Readable o := by
  unfold Program.Readable at ho ⊢
  split at ho
  · obtain ⟨name, hn⟩ := ho
    exact ⟨name, Action.at?_within h.pool hn⟩
  · obtain ⟨v, hv, hk⟩ := ho
    exact ⟨v, Action.at?_within h.pool hv, hk⟩
  · exact ho

theorem Program.Writable.grow (h : p.Within q) {o : Operand} (ho : p.Writable o) :
    q.Writable o := by
  unfold Program.Writable at ho ⊢
  split at ho
  · obtain ⟨name, hn⟩ := ho
    exact ⟨name, Action.at?_within h.pool hn⟩
  · exact ho
  · exact ho
  · exact ho

theorem Program.InRange.grow (h : p.Within q) {o : Operand} (ho : p.InRange ip o) :
    q.InRange ip o :=
  ⟨ho.1, Int.le_trans ho.2 (Int.ofNat_le.2 h.size_le)⟩

theorem Instruction.Legal.grow (h : p.Within q) (hl : i.Legal p ip) : i.Legal q ip := by
  unfold Instruction.Legal at hl ⊢
  split at hl
  · exact ⟨hl.1.grow h, hl.2.grow h⟩
  · exact ⟨hl.1.grow h, hl.2.grow h⟩
  · exact ⟨hl.1.grow h, hl.2.1.grow h, hl.2.2.grow h⟩
  · exact ⟨hl.1.grow h, hl.2.1.grow h, hl.2.2.grow h⟩
  · exact ⟨hl.1, hl.2.grow h⟩
  · exact hl.grow h
  · exact hl.grow h
  · exact ⟨hl.1.grow h, hl.2.grow h⟩
  · exact hl.grow h
  · exact hl.grow h
  · exact hl.grow h
  · exact hl.grow h
  · exact ⟨hl.1.grow h, hl.2.grow h⟩
  · exact hl.grow h
  · exact hl.grow h
  all_goals exact trivial

theorem Instruction.home_starts {t : Nat × Shape} (h : t ∈ i.starts ip) :
    t.2.home ≠ .statement := by
  have hbody : Shape.body.home ≠ .statement := by decide
  have hiterator : Shape.iterator.home ≠ .statement := by decide
  unfold Instruction.starts at h
  split at h
  · cases List.mem_singleton.1 h
    exact hbody
  · cases List.mem_singleton.1 h
    exact hiterator
  · cases h

theorem Instruction.home_continues {t : Nat × Shape} (h : t ∈ i.continues ip s) :
    t.2.home = s.home := by
  unfold Instruction.continues at h
  dsimp only at h
  split at h
  all_goals
    simp only [List.mem_cons, List.not_mem_nil, or_false] at h
  case h_2 | h_4 | h_5 => rcases h with rfl | rfl <;> rfl
  all_goals
    subst h
    rfl

theorem Instruction.home_successors {t : Nat × Shape} (h : t ∈ i.successors ip s)
    (hs : s.home ≠ .statement) : t.2.home ≠ .statement := by
  rcases List.mem_append.1 h with h | h
  · exact Instruction.home_starts h
  · rw [Instruction.home_continues h]
    exact hs

theorem SafeIn.grow (h : p.Within q) (hs : s.home ≠ .statement)
    (hp : SafeIn p p.Ends n ip s) : SafeIn q q.Ends n ip s := by
  induction n generalizing ip s with
  | zero => exact trivial
  | succ n ih =>
    rcases hp with ⟨-, rfl⟩ | ⟨i, hi, hl, ha, hn⟩
    · exact absurd rfl hs
    · exact .inr ⟨i, h.instruction? hi, hl.grow h, ha,
        fun t ht => ih (Instruction.home_successors ht hs) (hn t ht)⟩

/-- Only the end of a statement moves when a program grows. -/
theorem Safe.grow (h : p.Within q) (hs : s.home ≠ .statement) (hp : Safe p p.Ends ip s) :
    Safe q q.Ends ip s :=
  fun n => (hp n).grow h hs

end Growth

end YieldMachine
