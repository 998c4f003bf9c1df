import YieldMachine.Proofs.Compile.Emitted

/-!
# What lowering is made of

Lowering a node is lowering its children, one behind the other, with a few actions on the
workbench in between. A property of these actions that carries over to what is put together
from them is a property of lowering any tree.

    lower_closed      such a property holds of lowering
    compile_refused   a tree is refused for a number, or for the arity of a part of it
-/

namespace YieldMachine

open Lowering

/-! ## Trees -/

/-- The nodes right below a node. -/
def Node.children : Node → List Node
  | .literal _ | .ref _ => []
  | .assign _ node | .unary _ node | .len node | .yield node | .function _ _ node | .ret node =>
    [node]
  | .binary left _ right => [left, right]
  | .index target place => [target, place]
  | .slice target start stop => [target, start, stop]
  | .array nodes | .block nodes | .primitive _ nodes => nodes
  | .cond condition thenBranch elseBranch => condition :: thenBranch :: elseBranch.toList
  | .loop condition body => [condition, body]
  | .forEach _ iterators body => body :: iterators
  | .call callee args => callee :: args

/-- The nodes of a tree. -/
inductive Node.Part : Node → Node → Prop where
  | self (node : Node) : Part node node
  | inside {part child node : Node} : child ∈ node.children → Part part child → Part part node

/-- What is wrong with a loop or a primitive that has another number of nodes than it binds
or takes. -/
def Node.arityError? : Node → Option CompileError
  | .forEach refs iterators _ =>
    if refs.length ≠ iterators.length then
      some (.forArity refs.length iterators.length)
    else none
  | .primitive op args =>
    if args.length ≠ op.arity then some (.primitiveArity op args.length) else none
  | _ => none

/-! ## Properties -/

/-- Each arity error in the node may be thrown. -/
def Node.Throws (P : (α : Type) → Lowering α → Prop) (node : Node) : Prop :=
  ∀ part : Node, part.Part node → ∀ e, part.arityError? = some e → P Piece (throw e)

/-- A property of actions on a workbench that carries over to what is put together from them. -/
structure Lowering.Closed (P : (α : Type) → Lowering α → Prop) : Prop where
  pure : ∀ {α : Type} (a : α), P α (pure a)
  bind : ∀ {α β : Type} {x : Lowering α} {f : α → Lowering β}, P α x → (∀ a, P β (f a)) →
    P β (x >>= f)
  add : ∀ v, v.key?.isSome → P Nat (add v)
  checked : ∀ mode address field, P Operand (check (Operand.checked mode address field))
  forward : ∀ source target, P Int (forward source target)

section

variable {P : (α : Type) → Lowering α → Prop} {node : Node}

theorem Node.Throws.children (h : node.Throws P) : ∀ child ∈ node.children, child.Throws P :=
  fun _ hm part hpart => h part (.inside hm hpart)

theorem Node.Throws.own (h : node.Throws P) {e : CompileError} (he : node.arityError? = some e) :
    P Piece (throw e) :=
  h node (.self node) e he

namespace Lowering.Closed

variable (h : Closed P)

include h

theorem mapM {α β : Type} {f : α → Lowering β} (hf : ∀ a, P β (f a)) (xs : List α) :
    P (List β) (xs.mapM f) := by
  induction xs with
  | nil =>
    rw [List.mapM_nil]
    exact h.pure _
  | cons x xs ih =>
    rw [List.mapM_cons]
    exact h.bind (hf x) fun _ => h.bind ih fun _ => h.pure _

theorem constant {v : Value} (hv : v.key?.isSome) : P Operand (constant v) :=
  h.bind (h.add v hv) fun _ => h.checked _ _ _

theorem variableOperand (ref : Ref) : P Operand (variableOperand ref) := by
  cases ref with
  | own slot => exact h.checked _ _ _
  | outer slot => exact h.checked _ _ _
  | global name => exact h.bind (h.add _ rfl) fun _ => h.checked _ _ _

end Lowering.Closed

/-! ## Nodes -/

mutual

theorem lower_closed (h : Closed P) (node : Node) (ht : node.Throws P) (offset : Nat)
    (dest : Operand) : P Piece (lower offset dest node) := by
  have hparts := ht.children
  match node with
  | .literal value =>
    rw [lower]
    exact h.bind (h.constant (Literal.key?_value value)) fun _ => h.pure _
  | .ref target =>
    rw [lower]
    exact h.bind (h.variableOperand _) fun _ => h.pure _
  | .assign target value =>
    have hv := List.forall_mem_singleton.1 hparts
    rw [lower]
    exact h.bind (h.variableOperand _) fun _ => h.bind (lower_closed h value hv _ _) fun _ =>
      h.pure _
  | .unary op operand =>
    have hv := List.forall_mem_singleton.1 hparts
    rw [lower]
    exact h.bind (lower_closed h operand hv _ _) fun _ => h.pure _
  | .binary left op right =>
    obtain ⟨hl, hr⟩ := List.forall_mem_cons.1 hparts
    have hr := List.forall_mem_singleton.1 hr
    rw [lower]
    exact h.bind (lower_closed h left hl _ _) fun _ => h.bind (lower_closed h right hr _ _)
      fun _ => h.pure _
  | .index target place =>
    obtain ⟨hl, hr⟩ := List.forall_mem_cons.1 hparts
    have hr := List.forall_mem_singleton.1 hr
    rw [lower]
    exact h.bind (lower_closed h target hl _ _) fun _ => h.bind (lower_closed h place hr _ _)
      fun _ => h.pure _
  | .slice target start stop =>
    obtain ⟨hv, hrest⟩ := List.forall_mem_cons.1 hparts
    obtain ⟨hi, hj⟩ := List.forall_mem_cons.1 hrest
    have hj := List.forall_mem_singleton.1 hj
    rw [lower]
    exact h.bind (lower_closed h target hv _ _) fun _ => h.bind (lower_closed h start hi _ _)
      fun _ => h.bind (lower_closed h stop hj _ _) fun _ => h.pure _
  | .len target =>
    have hv := List.forall_mem_singleton.1 hparts
    rw [lower]
    exact h.bind (lower_closed h target hv _ _) fun _ => h.pure _
  | .array elements =>
    rw [lower]
    split
    · exact h.bind (lowerAll_closed h elements hparts _ _) fun _ =>
        h.bind (h.checked _ _ _) fun _ => h.pure _
    · exact h.bind (lowerChunks_closed h elements hparts _ _ _) fun _ => h.pure _
  | .block nodes =>
    rw [lower]
    exact lowerBlock_closed h nodes hparts _ _ _
  | .cond condition thenBranch elseBranch =>
    obtain ⟨hc, hrest⟩ := List.forall_mem_cons.1 hparts
    obtain ⟨hb, he⟩ := List.forall_mem_cons.1 hrest
    rw [lower]
    exact h.bind (lower_closed h condition hc _ _) fun _ =>
      h.bind (lower_closed h thenBranch hb _ _) fun _ => h.bind (h.forward _ _) fun _ =>
        h.bind (lowerOption_closed h elseBranch he _) fun _ => h.bind (h.forward _ _) fun _ =>
          h.pure _
  | .loop condition body =>
    obtain ⟨hc, hb⟩ := List.forall_mem_cons.1 hparts
    have hb := List.forall_mem_singleton.1 hb
    rw [lower]
    exact h.bind (h.constant rfl) fun _ => h.bind (lower_closed h condition hc _ _) fun _ =>
      h.bind (lower_closed h body hb _ _) fun _ => h.bind (h.checked _ _ _) fun _ =>
        h.bind (h.forward _ _) fun _ => h.pure _
  | .forEach refs iterators body =>
    obtain ⟨hb, hits⟩ := List.forall_mem_cons.1 hparts
    rw [lower]
    split
    · next hne => exact ht.own (by rw [Node.arityError?, if_pos hne])
    · exact h.bind (h.mapM h.variableOperand _) fun _ => h.bind (h.constant rfl) fun _ =>
        h.bind (lowerIterators_closed h iterators hits _ _ _) fun _ =>
          h.bind (lower_closed h body hb _ _) fun _ =>
            h.bind (h.mapM (fun _ => h.checked _ _ _) _) fun _ => h.bind (h.checked _ _ _) fun _ =>
              h.bind (h.mapM (fun _ => h.forward _ _) _) fun _ =>
                h.bind (h.mapM (fun _ => h.forward _ _) _) fun _ => h.pure _
  | .yield value =>
    have hv := List.forall_mem_singleton.1 hparts
    rw [lower]
    exact h.bind (lower_closed h value hv _ _) fun _ => h.bind (h.constant rfl) fun _ => h.pure _
  | .function params frameSize body =>
    have hb := List.forall_mem_singleton.1 hparts
    rw [lower]
    exact h.bind (lower_closed h body hb _ _) fun _ => h.bind (h.forward _ _) fun _ =>
      h.bind (h.checked _ _ _) fun _ => h.bind (h.checked _ _ _) fun _ =>
        h.bind (h.checked _ _ _) fun _ => h.pure _
  | .call callee args =>
    obtain ⟨hf, ha⟩ := List.forall_mem_cons.1 hparts
    rw [lower]
    exact h.bind (lowerAll_closed h args ha _ _) fun _ => h.bind (lower_closed h callee hf _ _)
      fun _ => h.bind (h.checked _ _ _) fun _ => h.pure _
  | .ret value =>
    have hv := List.forall_mem_singleton.1 hparts
    rw [lower]
    exact h.bind (lower_closed h value hv _ _) fun _ => h.bind (h.constant rfl) fun _ => h.pure _
  | .primitive op args =>
    rw [lower]
    split
    · next hne => exact ht.own (by rw [Node.arityError?, if_pos hne])
    · refine h.bind (lowerFirst_closed h args hparts _) fun _ => ?_
      split
      · exact h.bind (h.constant rfl) fun _ => h.pure _
      · exact h.pure _

theorem lowerAll_closed (h : Closed P) (nodes : List Node) (ht : ∀ node ∈ nodes, node.Throws P)
    (offset : Nat) (code : Array Instruction) :
    P (Array Instruction) (lowerAll offset code nodes) := by
  match nodes with
  | [] =>
    rw [lowerAll]
    exact h.pure _
  | node :: nodes =>
    rw [lowerAll]
    obtain ⟨hnode, hnodes⟩ := List.forall_mem_cons.1 ht
    exact h.bind (lower_closed h node hnode _ _) fun _ => lowerAll_closed h nodes hnodes _ _

theorem lowerChunks_closed (h : Closed P) (nodes : List Node)
    (ht : ∀ node ∈ nodes, node.Throws P) (offset : Nat) (code : Array Instruction) (k : Nat) :
    P (Array Instruction) (lowerChunks offset code k nodes) := by
  match nodes with
  | [] =>
    rw [lowerChunks]
    exact h.pure _
  | node :: nodes =>
    rw [lowerChunks]
    obtain ⟨hnode, hnodes⟩ := List.forall_mem_cons.1 ht
    exact h.bind (lower_closed h node hnode _ _) fun _ => lowerChunks_closed h nodes hnodes _ _ _

theorem lowerBlock_closed (h : Closed P) (nodes : List Node)
    (ht : ∀ node ∈ nodes, node.Throws P) (offset : Nat) (dest : Operand)
    (code : Array Instruction) : P Piece (lowerBlock offset dest code nodes) := by
  match nodes with
  | [] =>
    rw [lowerBlock]
    exact h.bind (h.constant rfl) fun _ => h.pure _
  | [last] =>
    rw [lowerBlock]
    exact h.bind (lower_closed h last (List.forall_mem_singleton.1 ht) _ _) fun _ => h.pure _
  | node :: next :: nodes =>
    obtain ⟨hnode, hnodes⟩ := List.forall_mem_cons.1 ht
    rw [lowerBlock]
    · exact h.bind (lower_closed h node hnode _ _) fun _ =>
        lowerBlock_closed h (next :: nodes) hnodes _ _ _
    · intro h
      cases h

theorem lowerOption_closed (h : Closed P) (node : Option Node)
    (ht : ∀ n ∈ node.toList, n.Throws P) (offset : Nat) : P Piece (lowerOption offset node) := by
  match node with
  | none =>
    rw [lowerOption]
    exact h.bind (h.constant rfl) fun _ => h.pure _
  | some node =>
    rw [lowerOption]
    exact lower_closed h node (List.forall_mem_singleton.1 ht) _ _

theorem lowerFirst_closed (h : Closed P) (nodes : List Node)
    (ht : ∀ node ∈ nodes, node.Throws P) (offset : Nat) : P Piece (lowerFirst offset nodes) := by
  match nodes with
  | [] =>
    rw [lowerFirst]
    exact h.pure _
  | node :: nodes =>
    rw [lowerFirst]
    exact lower_closed h node (ht node List.mem_cons_self) _ _

theorem lowerIterators_closed (h : Closed P) (nodes : List Node)
    (ht : ∀ node ∈ nodes, node.Throws P) (offset : Nat) (targets : List Operand)
    (done : List Producer) :
    P (List Producer × Nat) (lowerIterators offset targets done nodes) := by
  match nodes with
  | [] =>
    rw [lowerIterators]
    exact h.pure _
  | node :: nodes =>
    rw [lowerIterators]
    obtain ⟨hnode, hnodes⟩ := List.forall_mem_cons.1 ht
    exact h.bind (lower_closed h node hnode _ _) fun _ => h.bind (h.forward _ _) fun _ =>
      lowerIterators_closed h nodes hnodes _ _ _

end

end

/-! ## Refusals -/

namespace Lowering

/-- If the action fails, then for a reason in `E`. -/
def Refuses (E : CompileError → Prop) {α : Type} (x : Lowering α) : Prop :=
  ∀ b e b', x b = .error e b' → E e

variable {E : CompileError → Prop} {α β : Type}

theorem refuses_throw {e : CompileError} (h : E e) : Refuses E (throw e : Lowering α) := by
  rintro b e' b' ⟨⟩
  exact h

theorem Refuses.bind {x : Lowering α} {f : α → Lowering β} (hx : Refuses E x)
    (hf : ∀ a, Refuses E (f a)) : Refuses E (x >>= f) := by
  intro b e b' h
  change EStateM.bind x f b = .error e b' at h
  unfold EStateM.bind at h
  split at h
  · next a b₁ hxb => exact hf a b₁ e b' h
  · next e' b₁ hxb =>
    cases h
    exact hx b e b' hxb

/-- All that the actions themselves refuse is a number that does not fit. -/
theorem refuses_closed (h : ∀ field value, E (.addressOverflow field value)) :
    Closed fun _ x => Refuses E x := by
  constructor
  case pure =>
    rintro _ _ _ _ _ ⟨⟩
  case bind => exact Refuses.bind
  case add =>
    rintro _ _ _ _ _ ⟨⟩
  case checked =>
    intro mode address field
    unfold Operand.checked
    split
    · rintro _ _ _ ⟨⟩
    · exact refuses_throw (h field address)
  case forward =>
    intro source target b e b' he
    unfold forward at he
    split at he
    · cases he
    · exact refuses_throw (h _ _) b e b' he

end Lowering

/-- A tree that does not compile has a number that does not fit its field, or a part with the
wrong arity. -/
theorem Program.compile_refused {program program' : Program} {journal journal' : Journal}
    {node : Node} {e : CompileError}
    (h : program.compile journal node = ⟨.error e, program', journal'⟩) :
    (∃ field value, e = .addressOverflow field value) ∨
      ∃ part : Node, part.Part node ∧ part.arityError? = some e := by
  obtain ⟨code, pool⟩ := program
  have hrefuses := lower_closed (Lowering.refuses_closed (E := fun e =>
      (∃ field value, e = .addressOverflow field value) ∨
        ∃ part : Node, part.Part node ∧ part.arityError? = some e)
    fun field value => .inl ⟨field, value, rfl⟩) node
    (fun part hpart e he => Lowering.refuses_throw (.inr ⟨part, hpart, he⟩)) code.size .stack
  rw [Program.compile_eq] at h
  split at h
  · cases h
  · next e' pool' journal₁ hl =>
    cases h
    exact hrefuses _ _ _ hl

end YieldMachine
