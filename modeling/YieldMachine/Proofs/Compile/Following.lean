import YieldMachine.Proofs.Compile.Lowered
import YieldMachine.Proofs.Instruction.Patching

/-!
# Emitting as lowering

Emitting acts on the words of the whole program: it adds words, fills in the distances of jumps
in place, and what it has done when it fails is still there. Lowering puts pieces together. That
the two do the same is said action by action.

    Follows base R x code y

says that `x`, where instructions `code` have been emitted behind the words `base`, does what
`y` does. Each action has its rule, and `bind` puts them together; so a node is followed
through without looking at a state. The words of `base` never change, because an action only
adds behind them or fills in a jump that is itself behind them.
-/

namespace YieldMachine
namespace Emitting

open Lowering

/-! ## Actions -/

section

variable {α β : Type} (code : Array Word) (pool : Pool) (journal : Journal)

theorem bind_of_ok {x : Emitting α} {f : α → Emitting β} {s s' : Segments} {a : α}
    (h : x s = .ok a s') : (x >>= f) s = f a s' := by
  show EStateM.bind x f s = _
  rw [EStateM.bind, h]

theorem bind_of_error {x : Emitting α} {f : α → Emitting β} {s s' : Segments} {e : CompileError}
    (h : x s = .error e s') : (x >>= f) s = .error e s' := by
  show EStateM.bind x f s = _
  rw [EStateM.bind, h]

theorem onBench_of_ok {x : Lowering α} {a : α} {bench : Workbench}
    (h : x ⟨pool, journal⟩ = .ok a bench) :
    onBench x ⟨code, pool, journal⟩ = .ok a ⟨code, bench.pool, bench.journal⟩ := by
  simp only [onBench, h]

theorem onBench_of_error {x : Lowering α} {e : CompileError} {bench : Workbench}
    (h : x ⟨pool, journal⟩ = .error e bench) :
    onBench x ⟨code, pool, journal⟩ = .error e ⟨code, bench.pool, bench.journal⟩ := by
  simp only [onBench, h]

theorem onCode_apply (x : Patching α) : onCode x ⟨code, pool, journal⟩ =
    match x code with
    | .ok a code => .ok a ⟨code, pool, journal⟩
    | .error e code => .error e ⟨code, pool, journal⟩ :=
  rfl

end

/-! ## Following -/

/-- Emitting does what lowering does: behind the words of `base` there are then instructions as
`R` says, where there was `code`, or both fail with the same error. Constants and events are the
same, and the words of `base` are as they were, whether or not it fails. -/
def Follows {α β : Type} (base : Array Word) (R : α → Array Instruction → β → Prop)
    (x : Emitting α) (code : Array Instruction) (y : Lowering β) : Prop :=
  ∀ pool journal, match y ⟨pool, journal⟩ with
    | .ok b bench => ∃ a code', x ⟨Program.append base code, pool, journal⟩ =
        .ok a ⟨Program.append base code', bench.pool, bench.journal⟩ ∧ R a code' b
    | .error e bench => ∃ code', x ⟨Program.append base code, pool, journal⟩ =
        .error e ⟨Program.append base code', bench.pool, bench.journal⟩

/-- The value of a node is where its piece says, and the code of the piece is behind `code`. -/
def Delivers (code : Array Instruction) (r : Operand) (code' : Array Instruction) (p : Piece) :
    Prop :=
  r = p.result ∧ code' = code ++ p.code

variable {α β γ δ : Type} {base : Array Word} {code code' : Array Instruction}
  {R : α → Array Instruction → β → Prop} {Q : γ → Array Instruction → δ → Prop}
  {x : Emitting α} {f : α → Emitting γ} {y : Lowering β} {g : β → Lowering δ} {z : Lowering δ}

namespace Follows

theorem pure {a : α} {b : β} (h : R a code b) : Follows base R (pure a) code (pure b) :=
  fun _ _ => ⟨a, code, rfl, h⟩

theorem throw (e : CompileError) : Follows base R (throw e) code (throw e) :=
  fun _ _ => ⟨code, rfl⟩

/-- Nothing is done behind an error. -/
theorem throw_bind (e : CompileError) {f : PUnit → Emitting γ} {g : PUnit → Lowering δ} :
    Follows base Q (MonadExcept.throw e >>= f) code (MonadExcept.throw e >>= g) :=
  fun _ _ => ⟨code, rfl⟩

theorem bind (hx : Follows base R x code y)
    (hf : ∀ a code' b, R a code' b → Follows base Q (f a) code' (g b)) :
    Follows base Q (x >>= f) code (y >>= g) := by
  intro pool journal
  have hx := hx pool journal
  show match EStateM.bind y g ⟨pool, journal⟩ with
    | .ok b bench => ∃ a code', EStateM.bind x f _ = _ ∧ Q a code' b
    | .error e bench => ∃ code', EStateM.bind x f _ = _
  unfold EStateM.bind
  cases hy : y ⟨pool, journal⟩ with
  | error e bench =>
    rw [hy] at hx
    obtain ⟨code', hx⟩ := hx
    rw [hx]
    exact ⟨code', rfl⟩
  | ok b bench =>
    rw [hy] at hx
    obtain ⟨a, code', hx, hR⟩ := hx
    rw [hx]
    exact hf a code' b hR bench.pool bench.journal

/-- Only the lowering makes something of its value. -/
theorem map_lowered {Q : α → Array Instruction → δ → Prop} {g : β → δ}
    (hx : Follows base R x code y) (h : ∀ a code' b, R a code' b → Q a code' (g b)) :
    Follows base Q x code (y >>= fun b => Pure.pure (g b)) := by
  rw [← bind_pure x]
  exact hx.bind fun a code' b hR => pure (h a code' b hR)

/-- Only the emitting makes something of its value. -/
theorem map_emitted {Q : γ → Array Instruction → β → Prop} {f : α → γ}
    (hx : Follows base R x code y) (h : ∀ a code' b, R a code' b → Q (f a) code' b) :
    Follows base Q (x >>= fun a => Pure.pure (f a)) code y := by
  rw [← bind_pure y]
  exact hx.bind fun a code' b hR => pure (h a code' b hR)

/-- What is done to constants and events alone. -/
theorem lift (y : Lowering β) :
    Follows base (fun a code' b => a = b ∧ code = code' ∧ ∃ bench bench', y bench = .ok b bench')
      (liftM y) code y := by
  intro pool journal
  cases hy : y ⟨pool, journal⟩ with
  | error e bench => exact ⟨code, onBench_of_error _ _ _ hy⟩
  | ok b bench => exact ⟨b, code, onBench_of_ok _ _ _ hy, rfl, rfl, _, _, hy⟩

/-- A step that only adds instructions. -/
theorem step {a : α} (hx : ∀ pool journal, x ⟨Program.append base code, pool, journal⟩ =
    .ok a ⟨Program.append base code', pool, journal⟩) (hf : Follows base Q (f a) code' z) :
    Follows base Q (x >>= f) code z := by
  intro pool journal
  rw [bind_of_ok (hx pool journal)]
  exact hf pool journal

end Follows

/-! ## Instructions -/

theorem size_append (base : Array Word) (code : Array Instruction) :
    (Program.append base code).size = base.size + code.size := by
  rw [Program.append, Array.size_append, Array.size_map]

theorem append_push (base : Array Word) (code : Array Instruction) (i : Instruction) :
    (Program.append base code).push i.encode = Program.append base (code.push i) := by
  rw [Program.append, Program.append, Array.map_push, Array.append_push]

section

variable (base : Array Word) (code : Array Instruction) (pool : Pool) (journal : Journal)

theorem here_apply : here ⟨Program.append base code, pool, journal⟩ =
    .ok (base.size + code.size) ⟨Program.append base code, pool, journal⟩ := by
  rw [← size_append]
  rfl

theorem emit_apply (i : Instruction) : emit i ⟨Program.append base code, pool, journal⟩ =
    .ok (base.size + code.size) ⟨Program.append base (code.push i), pool, journal⟩ := by
  rw [← size_append, ← append_push]
  rfl

theorem materialize_apply (operand dest : Operand) :
    materialize operand dest ⟨Program.append base code, pool, journal⟩ =
      .ok dest ⟨Program.append base (code ++ YieldMachine.materialize operand dest), pool,
        journal⟩ := by
  unfold materialize YieldMachine.materialize
  by_cases h : operand = dest
  · rw [if_neg (not_not_intro h), if_pos h, Array.append_empty]
    rfl
  · rw [if_pos h, if_neg h, ← Array.push_eq_append, ← append_push]
    rfl

theorem pin_apply (p : Piece) (later : List Node) :
    pin p.result later ⟨Program.append base (code ++ p.code), pool, journal⟩ =
      .ok (YieldMachine.pin p later).result
        ⟨Program.append base (code ++ (YieldMachine.pin p later).code), pool, journal⟩ := by
  unfold pin YieldMachine.pin
  split
  · rw [materialize_apply, Array.append_assoc]
  · rfl

theorem drop_apply (operand : Operand) : drop operand ⟨Program.append base code, pool, journal⟩ =
    .ok () ⟨Program.append base (code ++ dropCode operand), pool, journal⟩ := by
  unfold drop dropCode
  split
  · rw [← Array.push_eq_append, ← append_push]
    rfl
  · rw [Array.append_empty]
    rfl

end

namespace Follows

section

variable {f : Nat → Emitting γ}

theorem here {offset : Nat} (h : offset = base.size + code.size)
    (hf : Follows base Q (f offset) code z) : Follows base Q (Emitting.here >>= f) code z := by
  subst h
  exact step (here_apply base code) hf

theorem emit {i : Instruction} {offset : Nat} (h : offset = base.size + code.size)
    (hf : Follows base Q (f offset) (code.push i) z) :
    Follows base Q (Emitting.emit i >>= f) code z := by
  subst h
  exact step (emit_apply base code · · i) hf

end

theorem materialize {f : Operand → Emitting γ} {operand dest : Operand}
    (hf : Follows base Q (f dest) (code ++ YieldMachine.materialize operand dest) z) :
    Follows base Q (Emitting.materialize operand dest >>= f) code z :=
  step (materialize_apply base code · · operand dest) hf

theorem materialize_last {Q : Operand → Array Instruction → δ → Prop} {operand dest : Operand}
    {d : δ} (h : Q dest (code ++ YieldMachine.materialize operand dest) d) :
    Follows base Q (Emitting.materialize operand dest) code (Pure.pure d) := by
  rw [← bind_pure (Emitting.materialize operand dest)]
  exact materialize (pure h)

theorem pin {f : Operand → Emitting γ} {p : Piece} {later : List Node}
    (hf : Follows base Q (f (YieldMachine.pin p later).result)
      (code ++ (YieldMachine.pin p later).code) z) :
    Follows base Q (Emitting.pin p.result later >>= f) (code ++ p.code) z :=
  step (pin_apply base code · · p later) hf

theorem drop {f : Unit → Emitting γ} {operand : Operand}
    (hf : Follows base Q (f ()) (code ++ dropCode operand) z) :
    Follows base Q (Emitting.drop operand >>= f) code z :=
  step (drop_apply base code · · operand) hf

/-- A node whose value goes onto the stack. -/
theorem onStack {x : Emitting Operand} {f : Operand → Emitting γ} {y : Lowering Piece}
    {g : Piece → Lowering δ} (hx : Follows base (Delivers code) x code y)
    (hf : ∀ p : Piece, Follows base Q (f .stack) (code ++ p.onStack) (g p)) :
    Follows base Q (x >>= fun r => Emitting.materialize r .stack >>= f) code (y >>= g) := by
  refine hx.bind ?_
  rintro _ _ p ⟨rfl, rfl⟩
  refine materialize ?_
  rw [Array.append_assoc]
  exact hf p

end Follows

/-! ## Jumps -/

section

variable (pre : Array Instruction) (i : Instruction) (post : Array Instruction)

theorem getElem?_append : (Program.append base (pre ++ #[i] ++ post))[base.size + pre.size]? =
    some i.encode := by
  simp [Program.append, ← Array.getElem?_toList]

theorem setIfInBounds_append (i' : Instruction) :
    (Program.append base (pre ++ #[i] ++ post)).setIfInBounds (base.size + pre.size) i'.encode =
      Program.append base (pre ++ #[i'] ++ post) := by
  apply Array.ext'
  simp [Program.append]

theorem patch_apply (slot : Slot) {d : Int} (hd : Operand.fits d) :
    Patching.patch (base.size + pre.size) slot d (Program.append base (pre ++ #[i] ++ post)) =
      .ok () (Program.append base (pre ++ #[i.withAddress slot d] ++ post)) := by
  rw [show Patching.patch _ slot d _ = _ from Patching.run_patch (getElem?_append pre i post),
    Word.patch_encode i hd]
  exact congrArg (EStateM.Result.ok ()) (setIfInBounds_append pre i post _)

theorem patch_refused (slot : Slot) {d : Int} (hd : ¬Operand.fits d) :
    Patching.patch (base.size + pre.size) slot d (Program.append base (pre ++ #[i] ++ post)) =
      .error (.addressOverflow .jumpOffset d) (Program.append base (pre ++ #[i] ++ post)) := by
  rw [show Patching.patch _ slot d _ = _ from Patching.run_patch (getElem?_append pre i post),
    Word.patch_of_not_fits hd]

/-- A jump forward is emitted without its distance; when the code that it skips is there, the
distance is filled in, in place, if it fits. -/
theorem Follows.patchJump {slot : Slot} {source target : Nat} (hcode : code = pre ++ #[i] ++ post)
    (hsource : source = base.size + pre.size) (htarget : target = base.size + code.size) :
    Follows base (fun _ code' d => code' = pre ++ #[i.withAddress slot d] ++ post)
      (patchJump source slot) code (forward source target) := by
  intro pool journal
  let d := distance source target
  have hrun : Emitting.patchJump source slot ⟨Program.append base code, pool, journal⟩ =
      (onCode (Patching.patch source slot d) >>= fun _ =>
        modify fun s => { s with journal := s.journal.record (.patched source target d) })
        ⟨Program.append base code, pool, journal⟩ := by
    rw [Emitting.patchJump, bind_of_ok (here_apply base code pool journal), ← htarget]
    rfl
  have hword := onCode_apply (Program.append base code) pool journal (Patching.patch source slot d)
  rw [hrun, forward]
  by_cases hd : Operand.fits d
  · rw [hsource, hcode, patch_apply pre i post slot hd, ← hsource, ← hcode] at hword
    rw [bind_of_ok hword]
    simp only [d, if_pos hd]
    exact ⟨(), _, rfl, rfl⟩
  · rw [hsource, hcode, patch_refused pre i post slot hd, ← hsource, ← hcode] at hword
    rw [bind_of_error hword]
    simp only [d, if_neg hd]
    exact ⟨_, rfl⟩

end

/-- A jump back is emitted with its distance, if it fits. -/
theorem Follows.jumpBack {top back : Nat} {f : Unit → Emitting γ} {g : Operand → Lowering δ}
    (h : back = base.size + code.size)
    (hf : ∀ o, Follows base Q (f ()) (code.push ⟨.jump, o, .unused, .unused⟩) (g o)) :
    Follows base Q (jumpBack top >>= f) code (number (distance back top) .jumpOffset >>= g) := by
  rw [Emitting.jumpBack, bind_assoc]
  refine .here h ?_
  rw [bind_assoc]
  refine (Follows.lift _).bind ?_
  rintro o _ _ ⟨rfl, rfl, -⟩
  rw [bind_assoc]
  refine .emit h ?_
  rw [pure_bind]
  exact hf o

end Emitting
end YieldMachine
