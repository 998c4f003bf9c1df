import Mathlib.Algebra.Ring.Nat
import YieldMachine.Proofs.Flow.Compiled
import YieldMachine.Proofs.Machine.Action

/-!
# Scopes

A scope lists how many slots the frames have that code can name, the innermost first:
that of the function literal it stands in, that of the literal around this one, and so
on. A tree is well scoped when its variables name slots that their frames have. A place
in a program is well scoped when all operands that can be reached from it do.

    node.Scoped y              the tree is well scoped in `y`
    program.Scopes X ip y      the place is well scoped in `y`, code stops only where `X` says
-/

namespace YieldMachine

/-! ## Trees -/

/-- The sizes of the frames that code can name, the innermost first. -/
abbrev Scope := List Nat

/-- Does a variable name a slot that its frame has? -/
def Ref.Scoped (y : Scope) : Ref → Prop
  | .own slot => ∃ n, y[0]? = some n ∧ slot.toNat < n
  | .outer slot => ∃ n, y[1]? = some n ∧ slot.toNat < n
  | .global _ => True

mutual

/-- Do all variables of a tree name slots that their frames have? -/
def Node.Scoped : Scope → Node → Prop
  | _, .literal _ => True
  | y, .ref target => target.Scoped y
  | y, .assign target value => target.Scoped y ∧ value.Scoped y
  | y, .unary _ operand => operand.Scoped y
  | y, .binary left _ right => left.Scoped y ∧ right.Scoped y
  | y, .index target place => target.Scoped y ∧ place.Scoped y
  | y, .slice target start stop => target.Scoped y ∧ start.Scoped y ∧ stop.Scoped y
  | y, .len target => target.Scoped y
  | y, .array elements => Node.ScopedAll y elements
  | y, .block nodes => Node.ScopedAll y nodes
  | y, .cond condition thenBranch elseBranch =>
    condition.Scoped y ∧ thenBranch.Scoped y ∧ Node.ScopedOption y elseBranch
  | y, .loop condition body => condition.Scoped y ∧ body.Scoped y
  | y, .forEach refs iterators body =>
    (∀ target ∈ refs, target.Scoped y) ∧ Node.ScopedAll y iterators ∧ body.Scoped y
  | y, .yield value => value.Scoped y
  | y, .function params frameSize body =>
    params.toNat < 2 ^ 63 ∧ frameSize.toNat < 2 ^ 63 ∧
      body.Scoped (max params.toNat frameSize.toNat :: y)
  | y, .call callee args => Node.ScopedAll y args ∧ callee.Scoped y
  | y, .ret value => value.Scoped y
  | y, .primitive _ args => Node.ScopedAll y args

/-- Are all trees well scoped? -/
def Node.ScopedAll : Scope → List Node → Prop
  | _, [] => True
  | y, node :: nodes => node.Scoped y ∧ Node.ScopedAll y nodes

/-- Is a branch missing, or well scoped? -/
def Node.ScopedOption : Scope → Option Node → Prop
  | _, none => True
  | y, some node => node.Scoped y

end

/-! ## Places -/

/-- Does an operand name a slot that its frame has, if it names one at all? -/
def Operand.InScope (o : Operand) (y : Scope) : Prop :=
  ∀ depth, o.depth? = some depth → ∃ n : Nat, y[depth]? = some n ∧ 0 ≤ o.address ∧ o.address < n

namespace Instruction

/-- Do all operands of an instruction name slots that their frames have? -/
def InScope (i : Instruction) (y : Scope) : Prop :=
  ∀ o ∈ [i.a, i.b, i.c], o.InScope y

/-- The places that an instruction at `ip` leads to, with their scopes: its own, but for the
body of a function that it makes. -/
def leads (ip : Nat) (i : Instruction) (y : Scope) : List (Nat × Scope) :=
  let target (o : Operand) := Program.jumpTarget ip o
  match i.effect with
  | .jump => [(target i.a, y)]
  | .jumpIfFalse => [(ip + 1, y), (target i.a, y)]
  | .makeFunction => [(ip + 1, y), (target i.a, max i.b.address.toNat i.c.address.toNat :: y)]
  | .spawn => [(ip + 1, y), (target i.a, y), (target i.b, y)]
  | .resume => [(ip + 1, y), (target i.b, y)]
  | .ret | .exit | .endIteration => []
  | _ => [(ip + 1, y)]

end Instruction

/-- All operands that are reached within `n` steps name slots that their frames have. -/
def ScopedIn (program : Program) (X : Nat → Scope → Prop) : Nat → Nat → Scope → Prop
  | 0, _, _ => True
  | n + 1, ip, y =>
    X ip y ∨ ∃ i, program.instruction? ip = some i ∧ i.InScope y ∧
      ∀ p ∈ i.leads ip y, ScopedIn program X n p.1 p.2

/-- All operands that are reached name slots that their frames have. -/
def Program.Scopes (program : Program) (X : Nat → Scope → Prop) (ip : Nat) (y : Scope) : Prop :=
  ∀ n, ScopedIn program X n ip y

/-- The end of a statement, outside all function literals. -/
def Program.Outside (program : Program) (ip : Nat) (y : Scope) : Prop :=
  ip = program.code.size ∧ y = []

/-! ## Lemmas -/

section

variable {program : Program} {X : Nat → Scope → Prop} {n ip : Nat} {y : Scope} {i : Instruction}

theorem ScopedIn.pred (h : ScopedIn program X (n + 1) ip y) : ScopedIn program X n ip y := by
  induction n generalizing ip y with
  | zero => exact trivial
  | succ n ih =>
    rcases h with hx | ⟨i, hi, hf, hs⟩
    · exact .inl hx
    · exact .inr ⟨i, hi, hf, fun p hp => ih (hs p hp)⟩

theorem ScopedIn.le {k : Nat} (h : ScopedIn program X n ip y) (hk : k ≤ n) :
    ScopedIn program X k ip y := by
  induction hk with
  | refl => exact h
  | step _ ih => exact ih h.pred

/-- A place is well scoped one step longer than those it leads to. -/
theorem ScopedIn.succ (hi : program.instruction? ip = some i) (hf : i.InScope y)
    (hs : ∀ p ∈ i.leads ip y, ScopedIn program X n p.1 p.2) : ScopedIn program X (n + 1) ip y :=
  .inr ⟨i, hi, hf, hs⟩

/-- A place is well scoped as long as those it leads to are. -/
theorem ScopedIn.step (hi : program.instruction? ip = some i) (hf : i.InScope y)
    (hs : ∀ p ∈ i.leads ip y, ScopedIn program X n p.1 p.2) : ScopedIn program X n ip y :=
  (ScopedIn.succ hi hf hs).pred

/-- The instruction at a well-scoped place names slots that are there, and leads to
well-scoped places. -/
theorem Program.Scopes.at (h : program.Scopes X ip y) (hx : ¬ X ip y)
    (hi : program.instruction? ip = some i) :
    i.InScope y ∧ ∀ p ∈ i.leads ip y, program.Scopes X p.1 p.2 := by
  have hcase : ∀ n, i.InScope y ∧ ∀ p ∈ i.leads ip y, ScopedIn program X n p.1 p.2 := by
    intro n
    rcases h (n + 1) with hx' | ⟨j, hj, hf, hs⟩
    · exact absurd hx' hx
    · rw [hi] at hj
      cases hj
      exact ⟨hf, hs⟩
  exact ⟨(hcase 0).1, fun p hp n => (hcase n).2 p hp⟩

theorem Program.Scopes.at_outside (h : program.Scopes program.Outside ip y)
    (hi : program.instruction? ip = some i) :
    i.InScope y ∧ ∀ p ∈ i.leads ip y, program.Scopes program.Outside p.1 p.2 :=
  h.at (fun ⟨hip, _⟩ => Nat.lt_irrefl _ (hip ▸ Program.instruction?_lt hi)) hi

/-- What is inside a function literal leads to nowhere else. -/
theorem Instruction.leads_ne_nil {p : Nat × Scope} (h : p ∈ i.leads ip y) (hy : y ≠ []) :
    p.2 ≠ [] := by
  unfold Instruction.leads at h
  dsimp only at h
  split at h
  all_goals simp only [List.mem_cons, List.not_mem_nil, or_false] at h
  case h_3 =>
    rcases h with rfl | rfl
    · exact hy
    · exact List.cons_ne_nil _ _
  case h_4 => rcases h with rfl | rfl | rfl <;> exact hy
  case h_2 | h_5 => rcases h with rfl | rfl <;> exact hy
  all_goals
    subst h
    exact hy

/-- Only the end of a statement moves when a program grows. -/
theorem Program.Scopes.grow {p q : Program} (h : p.Within q) (hy : y ≠ [])
    (hp : p.Scopes p.Outside ip y) : q.Scopes q.Outside ip y := by
  intro n
  replace hp := hp n
  induction n generalizing ip y with
  | zero => exact trivial
  | succ n ih =>
    rcases hp with ⟨-, rfl⟩ | ⟨i, hi, hf, hs⟩
    · exact absurd rfl hy
    · exact .inr ⟨i, h.instruction? hi, hf,
        fun t ht => ih (Instruction.leads_ne_nil ht hy) (hs t ht)⟩

end

/-! ## Operands -/

section

variable {y : Scope} {o : Operand}

theorem Operand.inScope_of_depth? (h : o.depth? = none) : o.InScope y := by
  intro depth hd
  rw [h] at hd
  cases hd

theorem Operand.inScope_stack : Operand.stack.InScope y :=
  Operand.inScope_of_depth? rfl

theorem Operand.inScope_unused : Operand.unused.InScope y :=
  Operand.inScope_of_depth? rfl

theorem Operand.inScope_jump (distance : Int) : (Operand.jump distance).InScope y :=
  Operand.inScope_of_depth? rfl

theorem Operand.inScope_immediate (n : Int) : (Operand.mk .immediate n).InScope y :=
  Operand.inScope_of_depth? rfl

theorem Pool.Constant.inScope {pool : Pool} {v : Value} (h : pool.Constant o v) : o.InScope y := by
  obtain ⟨k, rfl, -⟩ := h
  exact Operand.inScope_of_depth? rfl

/-- A variable that is in scope has an operand that is. -/
theorem Pool.Variable.inScope {pool : Pool} {ref : Ref} (h : pool.Variable ref o)
    (hr : ref.Scoped y) : o.InScope y := by
  cases ref with
  | own slot | outer slot =>
    cases h
    obtain ⟨n, hn, hlt⟩ := hr
    rintro depth ⟨⟩
    exact ⟨n, hn, Int.natCast_nonneg _, Int.ofNat_lt.2 hlt⟩
  | global name =>
    obtain ⟨k, rfl, -⟩ := h
    exact Operand.inScope_of_depth? rfl

theorem Instruction.inScope_iff {opcode : Opcode} {a b c : Operand} :
    (Instruction.mk opcode a b c).InScope y ↔ a.InScope y ∧ b.InScope y ∧ c.InScope y := by
  simp [Instruction.InScope]

/-- The number of slots of a function is kept by the operand that says it. -/
theorem UInt64.toNat_toInt_toInt64 {n : UInt64} (h : n.toNat < 2 ^ 63) :
    n.toInt64.toInt.toNat = n.toNat := by
  rw [show n.toInt64.toInt = n.toBitVec.toInt from rfl, BitVec.toInt_eq_toNat_of_lt,
    Int.toNat_natCast]
  · rfl
  · show 2 * n.toNat < 2 ^ 64
    omega

theorem toNat_slotCount (params frameSize : UInt64) :
    (slotCount params frameSize).toNat = max params.toNat frameSize.toNat := by
  unfold slotCount
  split
  · next h => exact (Nat.max_eq_right (UInt64.le_iff_toNat_le.1 h)).symm
  · next h => exact (Nat.max_eq_left (Nat.le_of_not_le fun hle =>
      h (UInt64.le_iff_toNat_le.2 hle))).symm

end

end YieldMachine
