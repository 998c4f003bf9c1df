import YieldMachine.Proofs.Compile.Growth
import YieldMachine.Proofs.Twin.Action

/-!
# Lowerings side by side

A tree is lowered twice, from two pools and for two places. A coupling says which pools go
together and which operands stand for the same, and has to know only how a constant and
the name of a global are added. The pieces are then the same, instruction for instruction,
or both lowerings fail with one error; but the second may give up.

    lower_pairs   the pieces of one tree go together
-/

namespace YieldMachine

/-! ## Definitions -/

/-- The pools of two lowerings. -/
structure Pools where
  first : Pool
  second : Pool

/-- Both pools only grow. -/
structure Pools.Within (s t : Pools) : Prop where
  first : s.first.Within t.first
  second : s.second.Within t.second

/-- The pools of two workbenches. -/
def Pools.of (b b' : Workbench) : Pools :=
  ⟨b.pool, b'.pool⟩

/-- Where `y` leads to a result, `x` leads to one that goes with it; where `y` fails, so does
`x`, and with the same error. But `y` may give up. -/
def Lowering.Pairs {α : Type} (K : Pools → Prop) (T : CompileError → Prop) (R : Pools → α → α → Prop)
    (x y : Lowering α) (b b' : Workbench) : Prop :=
  match y b' with
  | .ok a' c' => ∃ a c, x b = .ok a c ∧ K (.of c c') ∧ (Pools.of b b').Within (.of c c') ∧
      R (.of c c') a a'
  | .error e c' => T e ∨ ∃ c, x b = .error e c ∧ K (.of c c')

/-- Which pools go together, and which operands stand for the same. -/
structure Coupling where
  Good : Pools → Prop
  /-- The errors with which the second lowering gives up. -/
  Gone : CompileError → Prop
  Same : Pools → Operand → Operand → Prop
  grow : ∀ {s t o o'}, s.Within t → Same s o o' → Same t o o'
  mode : ∀ {s o o'}, Same s o o' → o'.mode = o.mode
  plain : ∀ {s o}, o.isPooled = false → Same s o o
  eq_iff : ∀ {s o o' r r'}, Same s o o' → Same s r r' → (o = r ↔ o' = r')
  constant : ∀ {v b b'}, v.key?.isSome → Good (.of b b') →
    Lowering.Pairs Good Gone Same (Lowering.constant v) (Lowering.constant v) b b'
  global : ∀ {name b b'}, Good (.of b b') →
    Lowering.Pairs Good Gone Same (Lowering.variableOperand (.global name))
      (Lowering.variableOperand (.global name)) b b'

theorem Pools.Within.refl (s : Pools) : s.Within s :=
  ⟨.refl _, .refl _⟩

theorem Pools.Within.trans {s t u : Pools} (h : s.Within t) (h' : t.Within u) : s.Within u :=
  ⟨h.first.trans h'.first, h.second.trans h'.second⟩

namespace Lowering

/-! ## Composing -/

section

variable {α β : Type} {K : Pools → Prop} {T : CompileError → Prop} {R : Pools → α → α → Prop}
  {S : Pools → β → β → Prop} {x y : Lowering α} {f g : α → Lowering β} {b b' : Workbench}

theorem Pairs.bind (hx : Pairs K T R x y b b')
    (hf : ∀ a a' c c', K (.of c c') → (Pools.of b b').Within (.of c c') → R (.of c c') a a' →
      Pairs K T S (f a) (g a') c c') : Pairs K T S (x >>= f) (y >>= g) b b' := by
  unfold Pairs at hx ⊢
  show match EStateM.bind y g b' with
    | .ok a' c' => ∃ a c, EStateM.bind x f b = .ok a c ∧ K (.of c c') ∧
        (Pools.of b b').Within (.of c c') ∧ S (.of c c') a a'
    | .error e c' => T e ∨ ∃ c, EStateM.bind x f b = .error e c ∧ K (.of c c')
  unfold EStateM.bind
  cases hy : y b' with
  | error e c' =>
    rw [hy] at hx
    obtain hgone | ⟨c, hxb, hk⟩ := hx
    · exact .inl hgone
    · rw [hxb]
      exact .inr ⟨c, rfl, hk⟩
  | ok a' c' =>
    rw [hy] at hx
    obtain ⟨a, c, hxb, hk, hw, hr⟩ := hx
    have hfa := hf a a' c c' hk hw hr
    unfold Pairs at hfa
    rw [hxb]
    dsimp only
    cases hg : g a' c' with
    | error e d' =>
      rw [hg] at hfa
      exact hfa
    | ok z d' =>
      rw [hg] at hfa
      obtain ⟨z', d, hfz, hk', hw', hs⟩ := hfa
      exact ⟨z', d, hfz, hk', hw.trans hw', hs⟩

theorem pairs_pure {a a' : α} (hk : K (.of b b')) (h : R (.of b b') a a') :
    Pairs K T R (pure a) (pure a') b b' :=
  ⟨a, b, rfl, hk, .refl _, h⟩

theorem pairs_throw (hk : K (.of b b')) (e : CompileError) :
    Pairs K T R (throw e) (throw e) b b' :=
  .inr ⟨b, rfl, hk⟩

/-- A check that does not depend on the pools. -/
theorem pairs_check {e : Except CompileError α} (hk : K (.of b b')) :
    Pairs K T (fun _ a a' => e = .ok a ∧ a' = a) (check e) (check e) b b' := by
  cases e with
  | ok a => exact pairs_pure hk ⟨rfl, rfl⟩
  | error e => exact pairs_throw hk e

theorem pairs_number {value value' : Int} {field : AddressField} (hk : K (.of b b'))
    (h : value' = value) :
    Pairs K T (fun _ o o' => o = o' ∧ o.isPooled = false) (number value field)
      (number value' field) b b' := by
  subst h
  unfold number Operand.immediate Operand.checked
  split
  · exact pairs_pure hk ⟨rfl, rfl⟩
  · exact pairs_throw hk _

/-- The distance of a jump is the same if its ends moved together. -/
theorem pairs_forward {source target source' target' : Nat} (hk : K (.of b b'))
    (h : distance source' target' = distance source target) :
    Pairs K T (fun _ d d' => d = d') (forward source target) (forward source' target') b b' := by
  unfold forward
  dsimp only
  rw [h]
  split
  · exact Pairs.bind (R := fun _ _ _ => True) ⟨⟨⟩, _, rfl, hk, .refl _, trivial⟩
      fun _ _ _ _ hk _ _ => pairs_pure hk rfl
  · exact pairs_throw hk _

theorem Pairs.weaken {R' : Pools → α → α → Prop} (hx : Pairs K T R x y b b')
    (h : ∀ s a a', R s a a' → R' s a a') : Pairs K T R' x y b b' := by
  unfold Pairs at hx ⊢
  cases hy : y b' with
  | error e c' =>
    rw [hy] at hx
    exact hx
  | ok a' c' =>
    rw [hy] at hx
    obtain ⟨a, c, hxb, hk, hw, hr⟩ := hx
    exact ⟨a, c, hxb, hk, hw, h _ _ _ hr⟩

/-- Related arguments one after the other give related results. -/
theorem Pairs.mapM {f g : α → Lowering β} {Q : α → α → Prop}
    (mono : ∀ {s t a a'}, s.Within t → S s a a' → S t a a')
    (hf : ∀ {a a' c c'}, K (.of c c') → Q a a' → Pairs K T S (f a) (g a') c c') :
    ∀ {xs ys : List α} {b b'}, List.Forall₂ Q xs ys → K (.of b b') →
      Pairs K T (fun s as bs => List.Forall₂ (S s) as bs) (xs.mapM f) (ys.mapM g) b b' := by
  intro xs ys b b' h hk
  induction h generalizing b b' with
  | nil =>
    rw [List.mapM_nil, List.mapM_nil]
    exact pairs_pure hk .nil
  | cons h _ ih =>
    rw [List.mapM_cons, List.mapM_cons]
    refine (hf hk h).bind fun a a' c c' hk _ ha => ?_
    refine (ih hk).bind fun as as' d d' hk hw has => ?_
    exact pairs_pure hk (.cons (mono hw ha) has)

/-- Numbers that do not depend on the pools are the same in both. -/
theorem pairs_numbers {field : AddressField} (xs : List Nat) (hk : K (.of b b')) :
    Pairs K T (fun _ os os' => os = os' ∧ ∀ o ∈ os, o.isPooled = false)
      (xs.mapM fun (i : Nat) => number i field) (xs.mapM fun (i : Nat) => number i field) b b' := by
  have hxs : List.Forall₂ Eq xs xs := List.forall₂_same.2 fun _ _ => rfl
  have hall := Pairs.mapM (T := T) (S := fun _ (o o' : Operand) => o = o' ∧ o.isPooled = false)
    (f := fun (i : Nat) => number i field) (g := fun (i : Nat) => number i field)
    (fun _ h => h) (fun hk h => by subst h; exact pairs_number hk rfl) hxs hk
  refine hall.weaken fun _ os os' h => ?_
  obtain rfl : os = os' := by
    rw [← List.forall₂_eq_eq_eq]
    exact h.imp fun _ _ h => h.1
  exact ⟨rfl, fun o ho => (List.forall₂_same.1 h o ho).2⟩

/-- Labels are the same in both if the ends of each jump moved together. -/
theorem pairs_forwards {source source' : α → Nat} {target target' : Nat} {xs ys : List α}
    (h : List.Forall₂ (fun x y => distance (source' y) target' = distance (source x) target) xs ys)
    (hk : K (.of b b')) :
    Pairs K T (fun _ ds ds' => ds = ds') (xs.mapM fun x => forward (source x) target)
      (ys.mapM fun y => forward (source' y) target') b b' :=
  (Pairs.mapM (fun _ h => h) (fun hk h => pairs_forward hk h) h hk).weaken fun _ _ _ h => by
    rwa [List.forall₂_eq_eq_eq] at h

end

end Lowering

/-! ## Pieces -/

namespace Coupling

open Lowering

variable {C : Coupling} {s t : Pools} {o o' r r' dest dest' : Operand}

/-- The two instructions do the same. -/
structure Instr (C : Coupling) (s : Pools) (i i' : Instruction) : Prop where
  opcode : i'.opcode = i.opcode
  a : C.Same s i.a i'.a
  b : C.Same s i.b i'.b
  c : C.Same s i.c i'.c
  numbers : i'.numbers = i.numbers

/-- The two pieces of code do the same. -/
def Code (C : Coupling) (s : Pools) (code code' : Array Instruction) : Prop :=
  List.Forall₂ (C.Instr s) code.toList code'.toList

/-- The two pieces do the same, and their values are at the same place. -/
structure Piece (C : Coupling) (s : Pools) (p p' : YieldMachine.Piece) : Prop where
  code : C.Code s p.code p'.code
  result : C.Same s p.result p'.result

theorem same_stack : C.Same s .stack .stack :=
  C.plain rfl

theorem same_unused : C.Same s .unused .unused :=
  C.plain rfl

theorem instr_refl {i : Instruction} (ha : i.a.isPooled = false) (hb : i.b.isPooled = false)
    (hc : i.c.isPooled = false) : C.Instr s i i :=
  ⟨rfl, C.plain ha, C.plain hb, C.plain hc, rfl⟩

theorem Instr.grow {i i' : Instruction} (h : C.Instr s i i') (hw : s.Within t) :
    C.Instr t i i' :=
  ⟨h.opcode, C.grow hw h.a, C.grow hw h.b, C.grow hw h.c, h.numbers⟩

section

variable {code code' more more' : Array Instruction} {i i' : Instruction}

theorem code_nil : C.Code s #[] #[] :=
  .nil

theorem Code.grow (h : C.Code s code code') (hw : s.Within t) : C.Code t code code' :=
  h.imp fun _ _ hi => hi.grow hw

theorem Code.size (h : C.Code s code code') : code'.size = code.size :=
  h.length_eq.symm

theorem Code.append (h : C.Code s code code') (h' : C.Code s more more') :
    C.Code s (code ++ more) (code' ++ more') := by
  unfold Coupling.Code
  rw [Array.toList_append, Array.toList_append]
  exact List.rel_append h h'

theorem code_one (h : C.Instr s i i') : C.Code s #[i] #[i'] :=
  .cons h .nil

theorem code_two {j j' : Instruction} (h : C.Instr s i i') (h' : C.Instr s j j') :
    C.Code s #[i, j] #[i', j'] :=
  .cons h (.cons h' .nil)

theorem Code.push (h : C.Code s code code') (hi : C.Instr s i i') :
    C.Code s (code.push i) (code'.push i') := by
  rw [Array.push_eq_append, Array.push_eq_append]
  exact h.append (code_one hi)

theorem code_concat {pieces pieces' : List (Array Instruction)}
    (h : List.Forall₂ (C.Code s) pieces pieces') : C.Code s (concat pieces) (concat pieces') := by
  unfold Coupling.Code
  rw [concat_toList, concat_toList]
  induction h with
  | nil => exact .nil
  | cons h _ ih =>
    rw [List.flatMap_cons, List.flatMap_cons]
    exact List.rel_append h ih

end

/-- Whether a move is needed is the same for both. -/
theorem code_materialize (hr : C.Same s r r') (hd : C.Same s dest dest') :
    C.Code s (materialize r dest) (materialize r' dest') := by
  have hiff := C.eq_iff hr hd
  unfold materialize
  by_cases h : r = dest
  · rw [if_pos h, if_pos (hiff.1 h)]
    exact code_nil
  · rw [if_neg h, if_neg (mt hiff.2 h)]
    exact code_one ⟨rfl, hd, hr, same_unused, rfl⟩

theorem code_drop (hr : C.Same s r r') : C.Code s (dropCode r) (dropCode r') := by
  unfold dropCode Operand.isStack
  rw [C.mode hr]
  split
  · exact code_one (instr_refl rfl rfl rfl)
  · exact code_nil

theorem Piece.grow {p p' : YieldMachine.Piece} (h : C.Piece s p p') (hw : s.Within t) :
    C.Piece t p p' :=
  ⟨h.code.grow hw, C.grow hw h.result⟩

theorem Piece.onStack {p p' : YieldMachine.Piece} (h : C.Piece s p p') :
    C.Code s p.onStack p'.onStack :=
  h.code.append (code_materialize h.result same_stack)

theorem Piece.pin {p p' : YieldMachine.Piece} (h : C.Piece s p p') (later : List Node) :
    C.Piece s (pin p later) (pin p' later) := by
  have hvariable : p'.result.isVariable = p.result.isVariable := by
    unfold Operand.isVariable
    rw [C.mode h.result]
  unfold YieldMachine.pin
  rw [hvariable]
  split
  · exact ⟨h.onStack, same_stack⟩
  · exact h

theorem code_gather (k : Nat) (isLast : Bool) : C.Code s (gather k isLast) (gather k isLast) := by
  unfold gather
  dsimp only
  split
  · split
    · exact code_two (instr_refl rfl rfl rfl) (instr_refl rfl rfl rfl)
    · exact code_one (instr_refl rfl rfl rfl)
  · exact code_nil

/-! ## Operands -/

variable {b b' : Workbench} {α : Type}

/-- The two lowerings go together under the coupling. -/
abbrev Pairs (C : Coupling) (R : Pools → α → α → Prop) (x y : Lowering α) (b b' : Workbench) :
    Prop :=
  Lowering.Pairs C.Good C.Gone R x y b b'

theorem pairs_variable (hb : C.Good (.of b b')) (ref : Ref) :
    C.Pairs C.Same (variableOperand ref) (variableOperand ref) b b' := by
  cases ref with
  | own slot =>
    refine (pairs_check hb).weaken fun s o o' h => ?_
    obtain ⟨ho, rfl⟩ := h
    obtain ⟨rfl, -⟩ := Operand.checked_eq_ok ho
    exact C.plain rfl
  | outer slot =>
    refine (pairs_check hb).weaken fun s o o' h => ?_
    obtain ⟨ho, rfl⟩ := h
    obtain ⟨rfl, -⟩ := Operand.checked_eq_ok ho
    exact C.plain rfl
  | global name => exact C.global hb

/-! ## Producers -/

/-- The two producers do the same, as far from their exits. -/
structure Producer (C : Coupling) (offset offset' : Nat) (s : Pools) (p p' : YieldMachine.Producer) :
    Prop where
  place : p'.offset + offset = p.offset + offset'
  cont : p'.cont = p.cont
  body : C.Code s p.body p'.body
  target : C.Same s p.target p'.target

theorem Producer.grow {offset offset' : Nat} {p p' : YieldMachine.Producer}
    (h : C.Producer offset offset' s p p') (hw : s.Within t) : C.Producer offset offset' t p p' :=
  ⟨h.place, h.cont, h.body.grow hw, C.grow hw h.target⟩

theorem Producer.code {offset offset' : Nat} {p p' : YieldMachine.Producer}
    (h : C.Producer offset offset' s p p') (e : Int) : C.Code s (p.code e) (p'.code e) := by
  unfold YieldMachine.Producer.code
  rw [h.cont]
  exact ((code_one (instr_refl rfl rfl rfl)).append h.body).append
    (code_one ⟨rfl, h.target, same_stack, same_unused, rfl⟩)

theorem code_producers {offset offset' : Nat} {ps ps' : List YieldMachine.Producer}
    (h : List.Forall₂ (C.Producer offset offset' s) ps ps') (es : List Int) :
    C.Code s (concat (List.zipWith YieldMachine.Producer.code ps es))
      (concat (List.zipWith YieldMachine.Producer.code ps' es)) := by
  refine code_concat ?_
  induction h generalizing es with
  | nil => exact .nil
  | cons h _ ih =>
    cases es with
    | nil => exact .nil
    | cons e es => exact .cons (h.code e) (ih es)

theorem code_resumes {targets targets' : List Operand} (h : List.Forall₂ (C.Same s) targets targets')
    {slots : List Operand} (hslots : ∀ slot ∈ slots, slot.isPooled = false) (es : List Int) :
    C.Code s
      (concat (List.zipWith (fun (slot, target) e => resumeCode slot target e) (slots.zip targets) es))
      (concat
        (List.zipWith (fun (slot, target) e => resumeCode slot target e) (slots.zip targets') es)) := by
  refine code_concat ?_
  induction h generalizing slots es with
  | nil =>
    rw [List.zip_nil_right]
    exact .nil
  | cons h _ ih =>
    cases slots with
    | nil => exact .nil
    | cons slot slots =>
      cases es with
      | nil => exact .nil
      | cons e es =>
        obtain ⟨hslot, hslots⟩ := List.forall_mem_cons.1 hslots
        exact .cons (code_two (instr_refl hslot rfl rfl) ⟨rfl, h, same_stack, same_unused, rfl⟩)
          (ih hslots es)

end Coupling

/-! ## Nodes -/

open Lowering Coupling

section

variable {C : Coupling}

theorem BinaryOp.numbers (op : BinaryOp) (a b c : Operand) :
    Instruction.numbers ⟨op.opcode, a, b, c⟩ = [] := by
  cases op <;> rfl

theorem UnaryOp.numbers (op : UnaryOp) (a b c : Operand) :
    Instruction.numbers ⟨op.opcode, a, b, c⟩ = [] := by
  cases op <;> rfl

theorem Primitive.numbers (op : Primitive) (a b c : Operand) :
    Instruction.numbers ⟨op.opcode, a, b, c⟩ = [] := by
  cases op <;> rfl

mutual

/-- The pieces of a node go together, wherever they stand. -/
theorem lower_pairs (node : Node) {offset offset' : Nat} {dest dest' : Operand} {b b' : Workbench}
    (hb : C.Good (.of b b')) (hd : C.Same (.of b b') dest dest') :
    C.Pairs C.Piece (lower offset dest node) (lower offset' dest' node) b b' := by
  cases node with
  | literal value =>
    rw [lower, lower]
    exact (C.constant (Literal.key?_value value) hb).bind fun _ _ _ _ hc _ ho =>
      pairs_pure hc ⟨code_nil, ho⟩
  | ref target =>
    rw [lower, lower]
    exact (pairs_variable hb target).bind fun _ _ _ _ hc _ ho => pairs_pure hc ⟨code_nil, ho⟩
  | assign target value =>
    rw [lower, lower]
    refine (pairs_variable hb target).bind fun _ _ _ _ hc _ ho => ?_
    refine (lower_pairs value hc ho).bind fun _ _ _ _ hc hw hv => ?_
    have ho := C.grow hw ho
    exact pairs_pure hc ⟨hv.code.append (code_materialize hv.result ho), ho⟩
  | unary op operand =>
    rw [lower, lower]
    refine (lower_pairs operand hb same_stack).bind fun _ _ _ _ hc hw hv => ?_
    have hd := C.grow hw hd
    exact pairs_pure hc
      ⟨hv.code.push ⟨rfl, hd, hv.result, same_unused, by simp only [UnaryOp.numbers]⟩, hd⟩
  | binary left op right =>
    rw [lower, lower]
    refine (lower_pairs left hb same_stack).bind fun _ _ _ _ hc hw hl => ?_
    refine (lower_pairs right hc same_stack).bind fun _ _ _ _ hc hw' hr => ?_
    have hl := (hl.pin [right]).grow hw'
    have hd := C.grow (hw.trans hw') hd
    exact pairs_pure hc ⟨(hl.code.append hr.code).push
      ⟨rfl, hd, hl.result, hr.result, by simp only [BinaryOp.numbers]⟩, hd⟩
  | index target place =>
    rw [lower, lower]
    refine (lower_pairs target hb same_stack).bind fun _ _ _ _ hc hw hl => ?_
    refine (lower_pairs place hc same_stack).bind fun _ _ _ _ hc hw' hr => ?_
    have hl := (hl.pin [place]).grow hw'
    have hd := C.grow (hw.trans hw') hd
    exact pairs_pure hc ⟨(hl.code.append hr.code).push ⟨rfl, hd, hl.result, hr.result, rfl⟩, hd⟩
  | slice target start stop =>
    rw [lower, lower]
    refine (lower_pairs target hb same_stack).bind fun _ _ _ _ hc _ ht => ?_
    refine (lower_pairs start hc same_stack).bind fun _ _ _ _ hc hw hi => ?_
    refine (lower_pairs stop hc same_stack).bind fun _ _ _ _ hc hw' hj => ?_
    have ht := (ht.pin [start, stop]).grow (hw.trans hw')
    have hi := (hi.pin [stop]).grow hw'
    exact pairs_pure hc ⟨((ht.code.append hi.code).append hj.code).push
      ⟨rfl, ht.result, hi.result, hj.result, rfl⟩, same_stack⟩
  | len target =>
    rw [lower, lower]
    refine (lower_pairs target hb same_stack).bind fun _ _ _ _ hc hw hv => ?_
    have hd := C.grow hw hd
    exact pairs_pure hc ⟨hv.code.push ⟨rfl, hd, hv.result, same_unused, rfl⟩, hd⟩
  | array elements =>
    rw [lower, lower]
    split
    · refine (lowerAll_pairs elements hb code_nil).bind fun _ _ _ _ hc hw hv => ?_
      refine (pairs_number hc rfl).bind fun _ _ _ _ hc hw' ho => ?_
      obtain ⟨rfl, ho⟩ := ho
      have hd := C.grow (hw.trans hw') hd
      exact pairs_pure hc ⟨(hv.grow hw').push ⟨rfl, hd, C.plain ho, same_unused, rfl⟩, hd⟩
    · refine (lowerChunks_pairs elements 0 hb code_nil).bind fun _ _ _ _ hc hw hv => ?_
      have hd := C.grow hw hd
      exact pairs_pure hc ⟨hv.append (code_materialize same_stack hd), hd⟩
  | block nodes =>
    rw [lower, lower]
    exact lowerBlock_pairs nodes hb hd code_nil
  | cond condition thenBranch elseBranch =>
    rw [lower, lower]
    refine (lower_pairs condition hb same_stack).bind fun c c' _ _ hk _ hc => ?_
    refine (lower_pairs thenBranch hk same_stack).bind fun t t' _ _ hk hw ht => ?_
    have hcsize := hc.code.size
    have htsize := ht.onStack.size
    refine (pairs_forward hk (by unfold distance; omega)).bind fun toElse _ _ _ hk hw₁ hto => ?_
    subst hto
    refine (lowerOption_pairs elseBranch hk).bind fun e e' _ _ hk hw₂ he => ?_
    have hesize := he.onStack.size
    refine (pairs_forward hk (by unfold distance; omega)).bind fun toEnd _ _ _ hk hw₃ hto => ?_
    subst hto
    have hc := hc.grow (hw.trans (hw₁.trans (hw₂.trans hw₃)))
    have ht := ht.onStack.grow (hw₁.trans (hw₂.trans hw₃))
    have he := he.onStack.grow hw₃
    refine pairs_pure hk ⟨?_, same_stack⟩
    refine Code.append (Code.append (Code.append (hc.code.push ?_) ht) (code_one ?_)) he
    · exact ⟨rfl, C.plain rfl, hc.result, same_unused, rfl⟩
    · exact instr_refl rfl rfl rfl
  | loop condition body =>
    rw [lower, lower]
    refine (C.constant rfl hb).bind fun nil nil' _ _ hk _ hnil => ?_
    refine (lower_pairs condition hk same_stack).bind fun c c' _ _ hk hw hc => ?_
    refine (lower_pairs body hk same_stack).bind fun t t' _ _ hk hw₁ ht => ?_
    have hcsize := hc.code.size
    have htsize := ht.onStack.size
    refine (pairs_number hk (by unfold distance; omega)).bind fun toTop _ _ _ hk hw₂ hto => ?_
    obtain ⟨rfl, hplain⟩ := hto
    refine (pairs_forward hk (by unfold distance; omega)).bind fun toExit _ _ _ hk hw₃ hto => ?_
    subst hto
    have hnil := C.grow (hw.trans (hw₁.trans (hw₂.trans hw₃))) hnil
    have hc := hc.grow (hw₁.trans (hw₂.trans hw₃))
    have ht := ht.onStack.grow (hw₂.trans hw₃)
    refine pairs_pure hk ⟨?_, same_stack⟩
    refine Code.append (Code.append (Code.append (Code.append (code_one ?_) hc.code)
      (code_two ?_ ?_)) ht) (code_one ?_)
    · exact ⟨rfl, same_stack, hnil, same_unused, rfl⟩
    · exact ⟨rfl, C.plain rfl, hc.result, same_unused, rfl⟩
    · exact instr_refl rfl rfl rfl
    · exact instr_refl hplain rfl rfl
  | forEach refs iterators body =>
    rw [lower, lower]
    split
    · exact pairs_throw hb _
    · have hrefs : List.Forall₂ Eq refs refs := List.forall₂_same.2 fun _ _ => rfl
      refine (Pairs.mapM (S := C.Same) C.grow (fun hk h => by subst h; exact pairs_variable hk _)
        hrefs hb).bind fun targets targets' _ _ hk _ htargets => ?_
      refine (C.constant rfl hk).bind fun nil nil' _ _ hk hw hnil => ?_
      have htargets := htargets.imp fun _ _ => C.grow hw
      have hlength := htargets.length_eq
      refine (lowerIterators_pairs iterators hk htargets .nil
        (by omega : offset' + 2 + offset = offset + 2 + offset')).bind ?_
      rintro ⟨producers, top⟩ ⟨producers', top'⟩ _ _ hk hw₁ ⟨hproducers, htop⟩
      dsimp only at htop ⊢
      refine (lower_pairs body hk same_stack).bind fun p p' _ _ hk hw₂ hp => ?_
      have hsize := hp.onStack.size
      rw [← hlength]
      refine (pairs_numbers _ hk).bind fun slots _ _ _ hk hw₃ hslots => ?_
      obtain ⟨rfl, hslots⟩ := hslots
      refine (pairs_number hk (by unfold distance; omega)).bind fun toTop _ _ _ hk hw₄ hto => ?_
      obtain ⟨rfl, htoTop⟩ := hto
      have hspawn : List.Forall₂ (fun q q' : YieldMachine.Producer =>
          distance q'.offset (top' + 1 + p'.onStack.size + 2 * targets.length + 1) =
            distance q.offset (top + 1 + p.onStack.size + 2 * targets.length + 1))
          producers producers' := hproducers.imp fun q q' h => by
        have hplace := h.place
        unfold distance
        omega
      refine (pairs_forwards hspawn hk).bind fun exits _ _ _ hk hw₅ hexits => ?_
      subst hexits
      have hresume : List.Forall₂ (fun i i' : Nat =>
          distance (top' + 1 + p'.onStack.size + 2 * i')
              (top' + 1 + p'.onStack.size + 2 * targets.length + 1) =
            distance (top + 1 + p.onStack.size + 2 * i)
              (top + 1 + p.onStack.size + 2 * targets.length + 1))
          (List.range targets.length) (List.range targets.length) :=
        List.forall₂_same.2 fun i _ => by
          unfold distance
          omega
      refine (pairs_forwards hresume hk).bind fun exits' _ _ _ hk hw₆ hexits => ?_
      subst hexits
      have hw' := hw₃.trans (hw₄.trans (hw₅.trans hw₆))
      have hproducers := hproducers.imp fun _ _ h => h.grow (hw₂.trans hw')
      have htargets := htargets.imp fun _ _ => C.grow (hw₁.trans (hw₂.trans hw'))
      have hnil := C.grow (hw₁.trans (hw₂.trans hw')) hnil
      have hp := hp.onStack.grow hw'
      refine pairs_pure hk ⟨?_, same_stack⟩
      refine Code.append (Code.append (Code.append (Code.append (Code.append (code_two ?_ ?_)
        (code_producers hproducers exits)) (code_one ?_)) hp)
        (code_resumes htargets hslots exits')) (code_two ?_ ?_)
      · exact ⟨rfl, same_stack, hnil, same_unused, rfl⟩
      · exact instr_refl rfl rfl rfl
      · exact instr_refl rfl rfl rfl
      · exact instr_refl htoTop rfl rfl
      · exact instr_refl rfl rfl rfl
  | yield value =>
    rw [lower, lower]
    refine (lower_pairs value hb same_stack).bind fun _ _ _ _ hc _ hv => ?_
    refine (C.constant rfl hc).bind fun _ _ _ _ hc hw ho => ?_
    have hv := hv.grow hw
    exact pairs_pure hc ⟨hv.code.push ⟨rfl, same_unused, hv.result, same_unused, rfl⟩, ho⟩
  | function params frameSize body =>
    rw [lower, lower]
    refine (lower_pairs body hb same_stack).bind fun v v' _ _ hk _ hv => ?_
    have hcode : C.Code _ (v.code.push ⟨.ret, .unused, v.result, .unused⟩)
        (v'.code.push ⟨.ret, .unused, v'.result, .unused⟩) :=
      hv.code.push ⟨rfl, same_unused, hv.result, same_unused, rfl⟩
    have hsize := hcode.size
    refine (pairs_forward hk (by unfold distance; omega)).bind fun skip _ _ _ hk hw hto => ?_
    subst hto
    refine (pairs_number hk (by unfold distance; omega)).bind fun entry _ _ _ hk hw₁ hto => ?_
    obtain ⟨rfl, hentry⟩ := hto
    refine (pairs_number hk rfl).bind fun count _ _ _ hk hw₂ hto => ?_
    obtain ⟨rfl, hcount⟩ := hto
    refine (pairs_number hk rfl).bind fun size _ _ _ hk hw₃ hto => ?_
    obtain ⟨rfl, hslots⟩ := hto
    have hcode := hcode.grow (hw.trans (hw₁.trans (hw₂.trans hw₃)))
    refine pairs_pure hk ⟨?_, same_stack⟩
    refine Code.append (Code.append (code_one ?_) hcode) (code_one ?_)
    · exact instr_refl rfl rfl rfl
    · exact instr_refl hentry hcount hslots
  | call callee args =>
    rw [lower, lower]
    refine (lowerAll_pairs args hb code_nil).bind fun _ _ _ _ hk _ hv => ?_
    refine (lower_pairs callee hk same_stack).bind fun _ _ _ _ hk hw hf => ?_
    refine (pairs_number hk rfl).bind fun count _ _ _ hk hw₁ hto => ?_
    obtain ⟨rfl, hcount⟩ := hto
    have hv := hv.grow (hw.trans hw₁)
    have hf := hf.grow hw₁
    exact pairs_pure hk ⟨(hv.append hf.code).push
      ⟨rfl, C.plain hcount, hf.result, same_unused, rfl⟩, same_stack⟩
  | ret value =>
    rw [lower, lower]
    refine (lower_pairs value hb same_stack).bind fun _ _ _ _ hc _ hv => ?_
    refine (C.constant rfl hc).bind fun _ _ _ _ hc hw ho => ?_
    have hv := hv.grow hw
    exact pairs_pure hc ⟨hv.code.push ⟨rfl, same_unused, hv.result, same_unused, rfl⟩, ho⟩
  | primitive op args =>
    rw [lower, lower]
    split
    · exact pairs_throw hb _
    · refine (lowerFirst_pairs args hb).bind fun _ _ _ _ hc hw hv => ?_
      split
      · refine (C.constant rfl hc).bind fun _ _ _ _ hc hw' ho => ?_
        have hv := hv.grow hw'
        exact pairs_pure hc ⟨hv.code.push ⟨rfl, same_unused, hv.result, same_unused, rfl⟩, ho⟩
      · have hd := C.grow hw hd
        exact pairs_pure hc
          ⟨hv.code.push ⟨rfl, hd, hv.result, same_unused, by simp only [Primitive.numbers]⟩, hd⟩

theorem lowerAll_pairs (nodes : List Node) {offset offset' : Nat} {code code' : Array Instruction}
    {b b' : Workbench} (hb : C.Good (.of b b')) (hcode : C.Code (.of b b') code code') :
    C.Pairs C.Code (lowerAll offset code nodes) (lowerAll offset' code' nodes) b b' := by
  cases nodes with
  | nil =>
    rw [lowerAll, lowerAll]
    exact pairs_pure hb hcode
  | cons node nodes =>
    rw [lowerAll, lowerAll]
    refine (lower_pairs node hb same_stack).bind fun _ _ _ _ hc hw hv => ?_
    exact lowerAll_pairs nodes hc ((hcode.grow hw).append hv.onStack)

theorem lowerChunks_pairs (nodes : List Node) (k : Nat) {offset offset' : Nat}
    {code code' : Array Instruction} {b b' : Workbench} (hb : C.Good (.of b b'))
    (hcode : C.Code (.of b b') code code') :
    C.Pairs C.Code (lowerChunks offset code k nodes) (lowerChunks offset' code' k nodes) b b' := by
  cases nodes with
  | nil =>
    rw [lowerChunks, lowerChunks]
    exact pairs_pure hb hcode
  | cons node nodes =>
    rw [lowerChunks, lowerChunks]
    refine (lower_pairs node hb same_stack).bind fun _ _ _ _ hc hw hv => ?_
    exact lowerChunks_pairs nodes (k + 1) hc
      (((hcode.grow hw).append hv.onStack).append (code_gather _ _))

theorem lowerBlock_pairs (nodes : List Node) {offset offset' : Nat} {dest dest' : Operand}
    {code code' : Array Instruction} {b b' : Workbench} (hb : C.Good (.of b b'))
    (hd : C.Same (.of b b') dest dest') (hcode : C.Code (.of b b') code code') :
    C.Pairs C.Piece (lowerBlock offset dest code nodes) (lowerBlock offset' dest' code' nodes)
      b b' := by
  match nodes with
  | [] =>
    rw [lowerBlock, lowerBlock]
    exact (C.constant rfl hb).bind fun _ _ _ _ hc hw ho => pairs_pure hc ⟨hcode.grow hw, ho⟩
  | [last] =>
    rw [lowerBlock, lowerBlock]
    exact (lower_pairs last hb hd).bind fun _ _ _ _ hc hw hv =>
      pairs_pure hc ⟨(hcode.grow hw).append hv.code, hv.result⟩
  | node :: next :: nodes =>
    rw [lowerBlock, lowerBlock]
    · refine (lower_pairs node hb same_stack).bind fun _ _ _ _ hc hw hv => ?_
      exact lowerBlock_pairs (next :: nodes) hc (C.grow hw hd)
        (((hcode.grow hw).append hv.code).append (code_drop hv.result))
    all_goals
      intro h
      cases h

theorem lowerOption_pairs (node : Option Node) {offset offset' : Nat} {b b' : Workbench}
    (hb : C.Good (.of b b')) :
    C.Pairs C.Piece (lowerOption offset node) (lowerOption offset' node) b b' := by
  cases node with
  | none =>
    rw [lowerOption, lowerOption]
    exact (C.constant rfl hb).bind fun _ _ _ _ hc _ ho => pairs_pure hc ⟨code_nil, ho⟩
  | some node =>
    rw [lowerOption, lowerOption]
    exact lower_pairs node hb same_stack

theorem lowerFirst_pairs (nodes : List Node) {offset offset' : Nat} {b b' : Workbench}
    (hb : C.Good (.of b b')) :
    C.Pairs C.Piece (lowerFirst offset nodes) (lowerFirst offset' nodes) b b' := by
  cases nodes with
  | nil =>
    rw [lowerFirst, lowerFirst]
    exact pairs_pure hb ⟨code_nil, same_unused⟩
  | cons node nodes =>
    rw [lowerFirst, lowerFirst]
    exact lower_pairs node hb same_stack

theorem lowerIterators_pairs (nodes : List Node) {base base' offset offset' : Nat}
    {targets targets' : List Operand} {done done' : List YieldMachine.Producer} {b b' : Workbench}
    (hb : C.Good (.of b b')) (htargets : List.Forall₂ (C.Same (.of b b')) targets targets')
    (hdone : List.Forall₂ (C.Producer base base' (.of b b')) done done')
    (hplace : offset' + base = offset + base') :
    C.Pairs (fun s r r' => List.Forall₂ (C.Producer base base' s) r.1 r'.1 ∧ r'.2 + base = r.2 + base')
      (lowerIterators offset targets done nodes) (lowerIterators offset' targets' done' nodes)
      b b' := by
  cases nodes with
  | nil =>
    rw [lowerIterators, lowerIterators]
    exact pairs_pure hb ⟨List.rel_reverse hdone, hplace⟩
  | cons node nodes =>
    rw [lowerIterators, lowerIterators]
    refine (lower_pairs node hb same_stack).bind fun p p' _ _ hc hw hp => ?_
    have hbody : C.Code _ ((p.code ++ dropCode p.result).push (.bare .endIter))
        ((p'.code ++ dropCode p'.result).push (.bare .endIter)) :=
      (hp.code.append (code_drop hp.result)).push (instr_refl rfl rfl rfl)
    have hsize := hbody.size
    refine (pairs_forward hc (by unfold distance; omega)).bind fun cont _ c c' hc hw' hto => ?_
    subst hto
    have hw := hw.trans hw'
    have htarget : C.Same (.of c c') (targets.head?.getD .stack) (targets'.head?.getD .stack) := by
      cases htargets with
      | nil => exact same_stack
      | cons h _ => exact C.grow hw h
    have hrest : List.Forall₂ (C.Same (.of c c')) targets.tail targets'.tail := by
      cases htargets with
      | nil => exact .nil
      | cons _ h => exact h.imp fun _ _ => C.grow hw
    exact lowerIterators_pairs nodes hc hrest
      (.cons ⟨hplace, rfl, hbody.grow hw', htarget⟩ (hdone.imp fun _ _ h => h.grow hw)) (by omega)

end

end

end YieldMachine
