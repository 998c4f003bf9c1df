import YieldMachine.Proofs.Compile.Following

/-!
# What is emitted

Emitting a node behind any words puts its piece there, with the jumps of the piece filled in, or
fails where lowering it fails. One lemma says this of each construct that jumps, given that it
holds of the nodes inside; the induction over trees puts them together. So a program can be
compiled in place and reasoned about as a list of pieces.

    emitNode_emits        the code of a node is its piece, wherever it stands
    emitStatement_keeps   no word that was there before a statement is touched by it
    Program.compile_eq    a statement adds its piece, or nothing
-/

namespace YieldMachine
namespace Emitting

open Lowering

/-! ## Places -/

section

variable {base : Array Word} {code : Array Instruction} {offset : Nat}

theorem offset_append (h : offset = base.size + code.size) (more : Array Instruction) :
    offset + more.size = base.size + (code ++ more).size := by
  rw [h, Array.size_append, Nat.add_assoc]

theorem offset_push (h : offset = base.size + code.size) (i : Instruction) :
    offset + 1 = base.size + (code.push i).size := by
  rw [h, Array.size_push, Nat.add_assoc]

end

theorem concat_cons (piece : Array Instruction) (pieces : List (Array Instruction)) :
    concat (piece :: pieces) = piece ++ concat pieces := by
  apply Array.ext'
  rw [Array.toList_append, concat_toList, concat_toList, List.flatMap_cons]

theorem pair_eq_append (i j : Instruction) : #[i, j] = #[i] ++ #[j] :=
  rfl

/-- Wherever the words end, emitting a node does what lowering it does. -/
def Emits (base : Array Word) (x : Emitting Operand) (y : Nat → Lowering Piece) : Prop :=
  ∀ ⦃code offset⦄, offset = base.size + code.size → Follows base (Delivers code) x code (y offset)

/-- A constant or a variable whose operand is made behind some code. -/
theorem lift_delivers {base : Array Word} {code code' more : Array Instruction}
    (y : Lowering Operand) (h : code' = code ++ more) :
    Follows base (Delivers code) (liftM y) code' (y >>= fun r => pure ⟨more, r⟩) := by
  refine (Follows.lift y).map_lowered ?_
  rintro r _ _ ⟨rfl, rfl, -⟩
  exact ⟨rfl, h⟩

/-! ## Exits -/

/-- Pieces of code one behind the other from `start` on, each of them given the distance to the
exit of the loop. The instruction that leaves the loop is the first of its piece; `sources` says
where these are. -/
inductive Exits : Nat → List Nat → List (Int → Array Instruction) → Prop
  | nil {start : Nat} : Exits start [] []
  | cons {start : Nat} (i : Instruction) (rest : Array Instruction) {sources : List Nat}
    {pieces : List (Int → Array Instruction)} :
    Exits (start + (1 + rest.size)) sources pieces →
      Exits start (start :: sources) ((fun d => #[i.withAddress .b d] ++ rest) :: pieces)

/-- The pieces before their distances are known. -/
def blank (pieces : List (Int → Array Instruction)) : Array Instruction :=
  concat (pieces.map (· 0))

/-- The pieces with their distances filled in. -/
def filled (pieces : List (Int → Array Instruction)) (ds : List Int) : Array Instruction :=
  concat (List.zipWith (fun piece d => piece d) pieces ds)

theorem blank_cons (piece : Int → Array Instruction) (pieces : List (Int → Array Instruction)) :
    blank (piece :: pieces) = piece 0 ++ blank pieces :=
  concat_cons _ _

theorem filled_cons (piece : Int → Array Instruction) (pieces : List (Int → Array Instruction))
    (d : Int) (ds : List Int) : filled (piece :: pieces) (d :: ds) = piece d ++ filled pieces ds :=
  concat_cons _ _

theorem filled_producers (producers : List Producer) (ds : List Int) :
    filled (producers.map Producer.code) ds = concat (List.zipWith Producer.code producers ds) := by
  rw [filled, List.zipWith_map_left]

theorem filled_resumes (slots targets : List Operand) (ds : List Int) :
    filled (List.zipWith resumeCode slots targets) ds =
      concat (List.zipWith (fun (slot, target) e => resumeCode slot target e)
        (slots.zip targets) ds) := by
  rw [filled, ← List.map_uncurry_zip_eq_zipWith (f := resumeCode), List.zipWith_map_left]
  rfl

section

variable {base : Array Word} {code : Array Instruction} {start target : Nat}

/-- The distances to the exit of a loop are filled in one after the other. -/
theorem Follows.patchExits {sources : List Nat} {pieces : List (Int → Array Instruction)}
    (h : Exits start sources pieces) (post : Array Instruction) :
    ∀ {code} (pre : Array Instruction), code = pre ++ blank pieces ++ post →
      start = base.size + pre.size → target = base.size + code.size →
      Follows base (fun _ code' ds => code' = pre ++ filled pieces ds ++ post ∧
          (filled pieces ds).size = (blank pieces).size)
        (sources.forM (Emitting.patchJump · .b)) code (sources.mapM (forward · target)) := by
  -- What is filled in already belongs to `pre`; the size of the code does not change.
  induction h with
  | nil =>
    intro code pre hcode _ _
    exact .pure ⟨hcode, rfl⟩
  | @cons start i rest sources pieces _ ih =>
    intro code pre hcode hstart htarget
    rw [List.forM, List.mapM_cons]
    have hfirst : code = pre ++ #[i.withAddress .b 0] ++ (rest ++ (blank pieces ++ post)) := by
      rw [hcode, blank_cons]
      simp only [Array.append_assoc]
    refine (Follows.patchJump _ _ _ hfirst hstart htarget).bind ?_
    rintro _ _ d rfl
    refine (ih (pre ++ (#[i.withAddress .b d] ++ rest)) ?_ ?_ ?_).map_lowered ?_
    · simp only [Array.append_assoc]
      rfl
    · rw [hstart, Array.size_append, Array.size_append]
      simp [Nat.add_assoc]
    · rw [htarget, hfirst]
      simp [Nat.add_assoc]
    · rintro _ _ ds ⟨rfl, hsize⟩
      rw [filled_cons, blank_cons, Array.size_append, Array.size_append, hsize]
      exact ⟨by simp only [Array.append_assoc], by simp [Nat.add_assoc]⟩

/-- Both kinds of exits of a loop: of the pieces that start its producers, and of those that
resume them. -/
theorem Follows.patchBoth {α β γ δ : Type} {first : α → Nat} {second : β → Nat} {xs : List α}
    {ys : List β} {pieces pieces' : List (Int → Array Instruction)} {start' : Nat}
    {Q : γ → Array Instruction → δ → Prop} {f : PUnit → Emitting γ}
    {g : List Int → List Int → Lowering δ} (h : Exits start (xs.map first) pieces)
    (h' : Exits start' (ys.map second) pieces') (pre mid post : Array Instruction)
    (hcode : code = pre ++ blank pieces ++ mid ++ blank pieces' ++ post)
    (hstart : start = base.size + pre.size)
    (hstart' : start' = base.size + (pre ++ blank pieces ++ mid).size)
    (htarget : target = base.size + code.size)
    (hf : ∀ ds ds', Follows base Q (f ())
      (pre ++ filled pieces ds ++ mid ++ filled pieces' ds' ++ post) (g ds ds')) :
    Follows base Q ((xs.map first ++ ys.map second).forM (Emitting.patchJump · .b) >>= f) code
      (xs.mapM (fun x => forward (first x) target) >>= fun ds =>
        ys.mapM (fun y => forward (second y) target) >>= fun ds' => g ds ds') := by
  have hfirst : code = pre ++ blank pieces ++ (mid ++ blank pieces' ++ post) := by
    rw [hcode]
    simp only [Array.append_assoc]
  have hxs := Follows.patchExits h (mid ++ blank pieces' ++ post) pre hfirst hstart htarget
  rw [List.mapM_map] at hxs
  rw [show List.forM _ _ = _ from List.forM_append, bind_assoc]
  refine hxs.bind ?_
  rintro _ _ ds ⟨rfl, hfilled⟩
  have hsecond : pre ++ filled pieces ds ++ (mid ++ blank pieces' ++ post) =
      pre ++ filled pieces ds ++ mid ++ blank pieces' ++ post := by
    simp only [Array.append_assoc]
  have hplace : start' = base.size + (pre ++ filled pieces ds ++ mid).size := by
    rw [hstart']
    simp only [Array.size_append, hfilled]
  have hend : target =
      base.size + (pre ++ filled pieces ds ++ (mid ++ blank pieces' ++ post)).size := by
    rw [htarget, hfirst]
    simp only [Array.size_append, hfilled]
  have hys := Follows.patchExits h' post _ hsecond hplace hend
  rw [List.mapM_map] at hys
  refine hys.bind ?_
  rintro _ _ ds' ⟨rfl, -⟩
  exact hf ds ds'

/-- Behind `code` the producers of a loop are resumed, one after the other. -/
structure Resumes (base : Array Word) (code : Array Instruction) (targets : List Operand)
    (exits : List Nat) (code' : Array Instruction) (slots : List Operand) : Prop where
  code_eq : code' = code ++ blank (List.zipWith resumeCode slots targets)
  size : (blank (List.zipWith resumeCode slots targets)).size = 2 * targets.length
  exits_eq : exits = (List.range targets.length).map (base.size + code.size + 2 * ·)
  placed : Exits (base.size + code.size) exits (List.zipWith resumeCode slots targets)

theorem Resumes.cons {target slot : Operand} {targets slots : List Operand} {exits : List Nat}
    {code' : Array Instruction}
    (h : Resumes base (code ++ resumeCode slot target 0) targets exits code' slots) :
    Resumes base code (target :: targets) ((base.size + code.size) :: exits) code'
      (slot :: slots) := by
  have hsize : base.size + (code ++ resumeCode slot target 0).size = base.size + code.size + 2 := by
    rw [Array.size_append]
    rfl
  obtain ⟨rfl, hblank, rfl, hexits⟩ := h
  rw [hsize] at hexits ⊢
  refine ⟨?_, ?_, ?_, ?_⟩
  · rw [List.zipWith_cons_cons, blank_cons, Array.append_assoc]
  · rw [List.zipWith_cons_cons, blank_cons, Array.size_append, hblank, List.length_cons,
      Nat.mul_succ, Nat.add_comm]
    rfl
  · rw [List.length_cons, List.range_succ_eq_map, List.map_cons, List.map_map]
    congr 1
    apply List.map_congr_left
    intro i _
    show base.size + code.size + 2 + 2 * i = base.size + code.size + 2 * (i + 1)
    omega
  · exact .cons ⟨.resume, slot, .unused, .unused⟩ #[⟨.move, target, .stack, .unused⟩] hexits

/-- What is emitted to take the next value of each producer. -/
theorem resume_follows (targets : List Operand) : ∀ {k : Nat} {code : Array Instruction},
    Follows base (Resumes base code targets) (Emitting.resume k targets) code
      ((List.range' k targets.length).mapM fun (i : Nat) => number i .producerSlot) := by
  induction targets with
  | nil =>
    intro k code
    exact .pure ⟨(Array.append_empty).symm, rfl, rfl, .nil⟩
  | cons target targets ih =>
    intro k code
    rw [Emitting.resume, List.length_cons, List.range'_succ, List.mapM_cons]
    refine (Follows.lift _).bind ?_
    rintro slot _ _ ⟨rfl, rfl, -⟩
    refine .emit rfl (.emit rfl (ih.bind ?_))
    intro exits code' slots h
    rw [Array.push_eq_append, Array.push_eq_append, Array.append_assoc] at h
    exact .pure h.cons

theorem resume_follows_all (targets : List Operand) :
    Follows base (Resumes base code targets) (Emitting.resume 0 targets) code
      ((List.range targets.length).mapM fun (i : Nat) => number i .producerSlot) := by
  rw [List.range_eq_range']
  exact resume_follows targets

end

/-! ## Nodes -/

section

variable {base : Array Word} {dest : Operand}

theorem cond_emits {condition thenBranch : Node} {elseBranch : Option Node}
    (hc : Emits base (emitNode .stack condition) (lower · .stack condition))
    (ht : Emits base (emitNode .stack thenBranch) (lower · .stack thenBranch))
    (he : Emits base (emitOption elseBranch) (lowerOption · elseBranch)) :
    Emits base (emitNode dest (.cond condition thenBranch elseBranch))
      (lower · dest (.cond condition thenBranch elseBranch)) := by
  intro code offset h
  simp only [emitNode, lower]
  refine (hc h).bind ?_
  rintro _ _ c ⟨rfl, rfl⟩
  have htest := offset_append h c.code
  have hthen := offset_push htest ⟨.jumpIfFalse, .unused, c.result, .unused⟩
  refine .emit htest (.onStack (ht hthen) fun t => ?_)
  have hskip := offset_append hthen t.onStack
  refine .emit hskip ?_
  refine (Follows.patchJump (code ++ c.code) ⟨.jumpIfFalse, .unused, c.result, .unused⟩
    (t.onStack.push (.bare .jump)) ?_ htest (offset_push hskip _)).bind ?_
  · simp only [Array.push_eq_append, Array.append_assoc]
  rintro _ _ toElse rfl
  refine .onStack (he ?_) fun e => ?_
  · rw [offset_push hskip (.bare .jump)]
    simp [Nat.add_assoc]
  refine (Follows.patchJump
    (code ++ c.code ++ #[⟨.jumpIfFalse, .jump toElse, c.result, .unused⟩] ++ t.onStack)
    (.bare .jump) e.onStack ?_ ?_ ?_).bind ?_
  · simp only [Array.push_eq_append, Array.append_assoc]
    rfl
  · rw [hskip]
    simp [Nat.add_assoc]
  · rw [hskip]
    simp [Nat.add_assoc]
  · rintro _ _ toEnd rfl
    refine .pure ⟨rfl, ?_⟩
    simp only [Array.push_eq_append, Array.append_assoc]
    rfl

/-- A constant is not on the stack. -/
theorem materialize_constant {v : Value} {o : Operand} {bench bench' : Workbench}
    (h : constant v bench = .ok o bench') :
    YieldMachine.materialize o .stack = #[⟨.move, .stack, o, .unused⟩] := by
  obtain ⟨-, -, ho⟩ := constant_eq_ok h
  obtain ⟨i, rfl, -⟩ := ho _ (.refl _)
  rw [YieldMachine.materialize, if_neg]
  rintro ⟨⟩

theorem loop_emits {condition body : Node}
    (hc : Emits base (emitNode .stack condition) (lower · .stack condition))
    (hb : Emits base (emitNode .stack body) (lower · .stack body)) :
    Emits base (emitNode dest (.loop condition body)) (lower · dest (.loop condition body)) := by
  intro code offset h
  simp only [emitNode, lower]
  refine (Follows.lift _).bind ?_
  rintro nil _ _ ⟨rfl, rfl, _, _, hnil⟩
  refine .materialize ?_
  rw [materialize_constant hnil]
  have htop := offset_append h #[⟨.move, .stack, nil, .unused⟩]
  refine .here htop ((hc htop).bind ?_)
  rintro _ _ c ⟨rfl, rfl⟩
  have htest := offset_append htop c.code
  have hpop := offset_push htest ⟨.jumpIfFalse, .unused, c.result, .unused⟩
  have hbody := offset_push hpop (.bare .pop)
  refine .emit htest (.emit hpop (.onStack (hb hbody) fun b => ?_))
  have hback := offset_append hbody b.onStack
  refine .jumpBack hback fun toTop => ?_
  refine (Follows.patchJump (code ++ #[⟨.move, .stack, nil, .unused⟩] ++ c.code)
    ⟨.jumpIfFalse, .unused, c.result, .unused⟩
    (#[.bare .pop] ++ b.onStack ++ #[⟨.jump, toTop, .unused, .unused⟩]) ?_ htest
    (offset_push hback _)).bind ?_
  · simp only [Array.push_eq_append, Array.append_assoc]
  rintro _ _ toExit rfl
  refine .pure ⟨rfl, ?_⟩
  simp only [pair_eq_append, Array.append_assoc]
  rfl

theorem function_emits {params frameSize : UInt64} {body : Node}
    (hb : Emits base (emitNode .stack body) (lower · .stack body)) :
    Emits base (emitNode dest (.function params frameSize body))
      (lower · dest (.function params frameSize body)) := by
  intro code offset h
  simp only [emitNode, lower]
  have hbody := offset_push h (.bare .jump)
  refine .emit h (.here hbody ((hb hbody).bind ?_))
  rintro _ _ b ⟨rfl, rfl⟩
  have hret := offset_append hbody b.code
  have hmade := offset_push hret ⟨.ret, .unused, b.result, .unused⟩
  refine .emit hret ?_
  refine (Follows.patchJump code (.bare .jump)
    (b.code.push ⟨.ret, .unused, b.result, .unused⟩) ?_ h ?_).bind ?_
  · simp only [Array.push_eq_append, Array.append_assoc]
  · rw [Array.size_push, ← Nat.add_assoc, hmade]
  rintro _ _ skip rfl
  refine .here ?_ ((Follows.lift _).bind ?_)
  · rw [Array.size_push, ← Nat.add_assoc, hmade]
    simp [Nat.add_assoc]
  rintro entry _ _ ⟨rfl, rfl, -⟩
  refine (Follows.lift _).bind ?_
  rintro paramCount _ _ ⟨rfl, rfl, -⟩
  refine (Follows.lift _).bind ?_
  rintro size _ _ ⟨rfl, rfl, -⟩
  refine .emit rfl (.pure ⟨rfl, ?_⟩)
  simp only [Array.push_eq_append, Array.append_assoc]
  rfl

theorem Producer.code_eq (p : Producer) :
    p.code = fun d => #[Instruction.withAddress ⟨.spawn, .jump p.cont, .unused, .unused⟩ .b d] ++
      (p.body ++ #[⟨.move, p.target, .stack, .unused⟩]) := by
  funext d
  rw [Producer.code, Array.append_assoc]
  rfl

/-- Behind `code` there are the producers of a loop, in addition to earlier ones. -/
def Spawns (base : Array Word) (code : Array Instruction) (done : List Producer)
    (exits : List Nat) (code' : Array Instruction) (r : List Producer × Nat) : Prop :=
  ∃ producers : List Producer, r = (done.reverse ++ producers, base.size + code'.size) ∧
    code' = code ++ blank (producers.map Producer.code) ∧
    exits = producers.map (·.offset) ∧
    Exits (base.size + code.size) exits (producers.map Producer.code)

/-- Wherever the words end, emitting the producers of a loop does what lowering them does. -/
def EmitsProducers (base : Array Word) (iterators : List Node) : Prop :=
  ∀ ⦃code offset⦄ (targets : List Operand) (done : List Producer),
    targets.length = iterators.length → offset = base.size + code.size →
      Follows base (Spawns base code done) (emitIterators targets iterators) code
        (lowerIterators offset targets done iterators)

theorem producers_emits_nil : EmitsProducers base [] := by
  intro code offset targets done htargets h
  obtain rfl := List.eq_nil_of_length_eq_zero htargets
  rw [emitIterators, lowerIterators]
  · exact .pure ⟨[], by rw [List.append_nil, h], by simp [blank, concat], rfl, .nil⟩
  · rintro _ _ _ _ ⟨⟩

theorem producers_emits_cons {iterator : Node} {iterators : List Node}
    (hi : Emits base (emitNode .stack iterator) (lower · .stack iterator))
    (his : EmitsProducers base iterators) : EmitsProducers base (iterator :: iterators) := by
  intro code offset targets done htargets h
  obtain ⟨target, targets, rfl⟩ := List.exists_cons_of_length_eq_add_one htargets
  rw [List.length_cons, List.length_cons, Nat.add_right_cancel_iff] at htargets
  rw [emitIterators, lowerIterators]
  have hbody := offset_push h (.bare .spawn)
  refine .emit h ((hi hbody).bind ?_)
  rintro _ _ p ⟨rfl, rfl⟩
  refine .drop (.emit rfl ?_)
  let body := (p.code ++ dropCode p.result).push (.bare .endIter)
  have hnext := offset_append hbody body
  refine (Follows.patchJump code (.bare .spawn) body ?_ h ?_).bind ?_
  · simp only [body, Array.push_eq_append, Array.append_assoc]
  · rw [hnext]
    simp only [body, Array.push_eq_append, Array.append_assoc]
  rintro _ _ cont rfl
  refine .emit rfl ((his targets _ htargets ?_).map_emitted ?_)
  · rw [hnext]
    simp [Nat.add_assoc]
  rintro exits _ _ ⟨producers, rfl, rfl, hsources, hexits⟩
  refine ⟨⟨offset, cont, body, target⟩ :: producers, ?_, ?_, ?_, ?_⟩
  · simp [body]
  · rw [List.map_cons, blank_cons, Producer.code_eq]
    simp only [Array.push_eq_append, Array.append_assoc]
    rfl
  · rw [hsources, List.map_cons]
  · rw [List.map_cons, Producer.code_eq, ← h]
    refine .cons _ _ ?_
    convert hexits using 1
    rw [h]
    simp [Nat.add_assoc]

theorem forEach_emits {refs : List Ref} {iterators : List Node} {body : Node}
    (hi : EmitsProducers base iterators)
    (hb : Emits base (emitNode .stack body) (lower · .stack body)) :
    Emits base (emitNode dest (.forEach refs iterators body))
      (lower · dest (.forEach refs iterators body)) := by
  intro code offset h
  simp only [emitNode, lower]
  by_cases hne : refs.length = iterators.length
  · simp only [hne, ne_eq, not_true_eq_false, if_false]
    refine (Follows.lift _).bind ?_
    rintro targets _ _ ⟨rfl, rfl, _, _, hrun⟩
    have htargets : targets.length = iterators.length := by
      rw [← hne, ← ((variables_eq_ok refs hrun).2.2 _ (.refl _)).length_eq]
    refine (Follows.lift _).bind ?_
    rintro nil _ _ ⟨rfl, rfl, _, _, hnil⟩
    refine .materialize ?_
    rw [materialize_constant hnil]
    have hopen := offset_append h #[⟨.move, .stack, nil, .unused⟩]
    have hspawn := offset_push hopen (.bare .iterBegin)
    refine .emit hopen ?_
    generalize hopened : (code ++ #[Instruction.mk .move .stack nil .unused]).push
      (.bare .iterBegin) = opened at hspawn ⊢
    refine (hi targets [] htargets hspawn).bind ?_
    rintro spawnExits _ _ ⟨producers, rfl, rfl, rfl, hspawns⟩
    rw [List.reverse_nil, List.nil_append]
    generalize htop : base.size + (opened ++ blank (producers.map Producer.code)).size = top
    have hbody := offset_push htop.symm (.bare .pop)
    refine .here htop.symm (.emit htop.symm (.onStack (hb hbody) fun b => ?_))
    have hresumes := offset_append hbody b.onStack
    refine (resume_follows_all targets).bind ?_
    rintro resumeExits _ slots ⟨rfl, hsize, rfl, hresume⟩
    rw [← hresumes] at hresume ⊢
    have hback := offset_append hresumes (blank (List.zipWith resumeCode slots targets))
    rw [hsize] at hback
    refine .jumpBack hback fun toTop => ?_
    have hexit := offset_push hback ⟨.jump, toTop, .unused, .unused⟩
    refine .patchBoth hspawns hresume opened (#[.bare .pop] ++ b.onStack)
      #[⟨.jump, toTop, .unused, .unused⟩] ?_ rfl ?_ hexit fun spawnDistances resumeDistances => ?_
    · simp only [Array.push_eq_append, Array.append_assoc]
    · rw [hresumes]
      simp only [Array.push_eq_append, Array.append_assoc]
    refine .emit rfl (.pure ⟨rfl, ?_⟩)
    rw [← hopened, filled_producers, filled_resumes]
    simp only [pair_eq_append, Array.push_eq_append, Array.append_assoc]
  · simp only [hne, ne_eq, not_false_eq_true, if_true]
    exact .throw_bind _

end

/-! ## Trees -/

/-- Wherever the words end, what is emitted leaves the values of the nodes on the stack. -/
def EmitsAll (base : Array Word) (x : Emitting Unit)
    (y : Nat → Array Instruction → Lowering (Array Instruction)) : Prop :=
  ∀ ⦃code offset⦄ (done : Array Instruction), offset = base.size + code.size →
    Follows base (fun _ code' more => code' = code ++ more) x (code ++ done) (y offset done)

theorem number_count {n : Nat} (h : n ≤ chunkLength) :
    number n .arrayLength = pure ⟨.immediate, n⟩ := by
  rw [number, Operand.immediate, Operand.checked, if_pos (fits_count h)]
  rfl

theorem gather_apply (base : Array Word) (code : Array Instruction) (pool : Pool)
    (journal : Journal) (k : Nat) (isLast : Bool) :
    Emitting.gather k isLast ⟨Program.append base code, pool, journal⟩ =
      .ok () ⟨Program.append base (code ++ YieldMachine.gather k isLast), pool, journal⟩ := by
  have hcount : (if k % chunkLength = 0 then chunkLength else k % chunkLength) ≤ chunkLength := by
    have hlt := Nat.mod_lt k (show 0 < chunkLength by decide)
    split <;> omega
  unfold Emitting.gather YieldMachine.gather
  split
  · dsimp only
    generalize (if k % chunkLength = 0 then chunkLength else k % chunkLength) = count at hcount ⊢
    rw [number_count hcount]
    by_cases hk : chunkLength < k
    · simp only [if_pos hk]
      rw [pair_eq_append, ← Array.append_assoc, ← Array.push_eq_append, ← Array.push_eq_append,
        ← append_push, ← append_push]
      rfl
    · simp only [if_neg hk]
      rw [← Array.push_eq_append, ← append_push]
      rfl
  · rw [Array.append_empty]
    rfl

section

variable {base : Array Word}

mutual

/-- What is emitted for a node is its piece, wherever the words end. -/
theorem emitNode_emits (dest : Operand) (node : Node) :
    Emits base (emitNode dest node) (lower · dest node) := by
  match node with
  | .literal value =>
    intro code offset h
    simp only [emitNode, lower]
    exact lift_delivers _ Array.append_empty.symm
  | .ref target =>
    intro code offset h
    simp only [emitNode, lower]
    exact lift_delivers _ Array.append_empty.symm
  | .assign target value =>
    intro code offset h
    simp only [emitNode, lower]
    refine (Follows.lift _).bind ?_
    rintro home _ _ ⟨rfl, rfl, -⟩
    refine (emitNode_emits home value h).bind ?_
    rintro _ _ v ⟨rfl, rfl⟩
    exact .materialize_last ⟨rfl, Array.append_assoc⟩
  | .unary op operand =>
    intro code offset h
    simp only [emitNode, lower]
    refine (emitNode_emits .stack operand h).bind ?_
    rintro _ _ v ⟨rfl, rfl⟩
    exact .emit rfl (.pure ⟨rfl, Array.push_append⟩)
  | .binary left op right =>
    intro code offset h
    simp only [emitNode, lower]
    refine (emitNode_emits .stack left h).bind ?_
    rintro _ _ l ⟨rfl, rfl⟩
    refine .pin ((emitNode_emits .stack right (offset_append h _)).bind ?_)
    rintro _ _ r ⟨rfl, rfl⟩
    refine .emit rfl (.pure ⟨rfl, ?_⟩)
    simp only [Array.push_eq_append, Array.append_assoc]
  | .index target place =>
    intro code offset h
    simp only [emitNode, lower]
    refine (emitNode_emits .stack target h).bind ?_
    rintro _ _ t ⟨rfl, rfl⟩
    refine .pin ((emitNode_emits .stack place (offset_append h _)).bind ?_)
    rintro _ _ i ⟨rfl, rfl⟩
    refine .emit rfl (.pure ⟨rfl, ?_⟩)
    simp only [Array.push_eq_append, Array.append_assoc]
  | .slice target start stop =>
    intro code offset h
    simp only [emitNode, lower]
    refine (emitNode_emits .stack target h).bind ?_
    rintro _ _ t ⟨rfl, rfl⟩
    have hstart := offset_append h (YieldMachine.pin t [start, stop]).code
    refine .pin ((emitNode_emits .stack start hstart).bind ?_)
    rintro _ _ i ⟨rfl, rfl⟩
    refine .pin ((emitNode_emits .stack stop (offset_append hstart _)).bind ?_)
    rintro _ _ j ⟨rfl, rfl⟩
    refine .emit rfl (.pure ⟨rfl, ?_⟩)
    simp only [Array.push_eq_append, Array.append_assoc]
  | .len target =>
    intro code offset h
    simp only [emitNode, lower]
    refine (emitNode_emits .stack target h).bind ?_
    rintro _ _ t ⟨rfl, rfl⟩
    exact .emit rfl (.pure ⟨rfl, Array.push_append⟩)
  | .array elements =>
    intro code offset h
    simp only [emitNode, lower]
    split
    · have helements := emitAll_emits elements #[] h
      rw [Array.append_empty] at helements
      refine helements.bind ?_
      rintro _ _ more rfl
      refine (Follows.lift _).bind ?_
      rintro count _ _ ⟨rfl, rfl, -⟩
      exact .emit rfl (.pure ⟨rfl, Array.push_append⟩)
    · have helements := emitChunks_emits 0 elements #[] h
      rw [Array.append_empty] at helements
      refine helements.bind ?_
      rintro _ _ more rfl
      exact .materialize_last ⟨rfl, Array.append_assoc⟩
  | .block nodes =>
    intro code offset h
    simp only [emitNode, lower]
    have hnodes := emitBlock_emits dest nodes #[] h
    rwa [Array.append_empty] at hnodes
  | .cond condition thenBranch elseBranch =>
    exact cond_emits (emitNode_emits .stack condition) (emitNode_emits .stack thenBranch)
      (emitOption_emits elseBranch)
  | .loop condition body =>
    exact loop_emits (emitNode_emits .stack condition) (emitNode_emits .stack body)
  | .forEach refs iterators body =>
    exact forEach_emits (emitIterators_emits iterators) (emitNode_emits .stack body)
  | .yield value =>
    intro code offset h
    simp only [emitNode, lower]
    refine (emitNode_emits .stack value h).bind ?_
    rintro _ _ v ⟨rfl, rfl⟩
    exact .emit rfl (lift_delivers _ Array.push_append)
  | .function params frameSize body => exact function_emits (emitNode_emits .stack body)
  | .call callee args =>
    intro code offset h
    simp only [emitNode, lower]
    have hargs := emitAll_emits args #[] h
    rw [Array.append_empty] at hargs
    refine hargs.bind ?_
    rintro _ _ more rfl
    refine (emitNode_emits .stack callee (offset_append h more)).bind ?_
    rintro _ _ f ⟨rfl, rfl⟩
    refine (Follows.lift _).bind ?_
    rintro count _ _ ⟨rfl, rfl, -⟩
    refine .emit rfl (.pure ⟨rfl, ?_⟩)
    simp only [Array.push_eq_append, Array.append_assoc]
  | .ret value =>
    intro code offset h
    simp only [emitNode, lower]
    refine (emitNode_emits .stack value h).bind ?_
    rintro _ _ v ⟨rfl, rfl⟩
    exact .emit rfl (lift_delivers _ Array.push_append)
  | .primitive op args =>
    intro code offset h
    simp only [emitNode, lower]
    by_cases hne : args.length = op.arity
    · simp only [hne, ne_eq, not_true_eq_false, if_false]
      refine (emitFirst_emits args h).bind ?_
      rintro _ _ arg ⟨rfl, rfl⟩
      split
      · exact .emit rfl (lift_delivers _ Array.push_append)
      · exact .emit rfl (.pure ⟨rfl, Array.push_append⟩)
    · simp only [hne, ne_eq, not_false_eq_true, if_true]
      exact .throw_bind _

theorem emitAll_emits (nodes : List Node) :
    EmitsAll base (emitAll nodes) (lowerAll · · nodes) := by
  match nodes with
  | [] =>
    intro code offset done h
    simp only [emitAll, lowerAll]
    exact .pure rfl
  | node :: nodes =>
    intro code offset done h
    simp only [emitAll, lowerAll]
    refine .onStack (emitNode_emits .stack node (offset_append h done)) fun p => ?_
    rw [Array.append_assoc]
    exact emitAll_emits nodes (done ++ p.onStack) h

theorem emitChunks_emits (k : Nat) (nodes : List Node) :
    EmitsAll base (emitChunks k nodes) (lowerChunks · · k nodes) := by
  match nodes with
  | [] =>
    intro code offset done h
    simp only [emitChunks, lowerChunks]
    exact .pure rfl
  | node :: nodes =>
    intro code offset done h
    simp only [emitChunks, lowerChunks]
    refine .onStack (emitNode_emits .stack node (offset_append h done)) fun p => ?_
    refine .step (fun pool journal => gather_apply base _ pool journal (k + 1) nodes.isEmpty) ?_
    have hrest := emitChunks_emits (k + 1) nodes
      (done ++ p.onStack ++ YieldMachine.gather (k + 1) nodes.isEmpty) h
    simp only [Array.append_assoc] at hrest ⊢
    exact hrest

theorem emitBlock_emits (dest : Operand) (nodes : List Node) :
    ∀ ⦃code offset⦄ (done : Array Instruction), offset = base.size + code.size →
      Follows base (Delivers code) (emitBlock dest nodes) (code ++ done)
        (lowerBlock offset dest done nodes) := by
  match nodes with
  | [] =>
    intro code offset done h
    simp only [emitBlock, lowerBlock]
    exact lift_delivers _ rfl
  | [last] =>
    intro code offset done h
    simp only [emitBlock, lowerBlock]
    refine (emitNode_emits dest last (offset_append h done)).map_lowered ?_
    rintro _ _ p ⟨rfl, rfl⟩
    exact ⟨rfl, Array.append_assoc⟩
  | node :: next :: nodes =>
    intro code offset done h
    simp only [emitBlock, lowerBlock]
    refine (emitNode_emits .stack node (offset_append h done)).bind ?_
    rintro _ _ p ⟨rfl, rfl⟩
    refine .drop ?_
    have hrest := emitBlock_emits dest (next :: nodes) (done ++ p.code ++ dropCode p.result) h
    simp only [Array.append_assoc] at hrest ⊢
    exact hrest

theorem emitOption_emits (node : Option Node) :
    Emits base (emitOption node) (lowerOption · node) := by
  match node with
  | none =>
    intro code offset h
    simp only [emitOption, lowerOption]
    exact lift_delivers _ Array.append_empty.symm
  | some node =>
    simp only [emitOption, lowerOption]
    exact emitNode_emits .stack node

theorem emitFirst_emits (nodes : List Node) :
    Emits base (emitFirst nodes) (lowerFirst · nodes) := by
  match nodes with
  | [] =>
    intro code offset h
    simp only [emitFirst, lowerFirst]
    exact .pure ⟨rfl, Array.append_empty.symm⟩
  | node :: nodes =>
    simp only [emitFirst, lowerFirst]
    exact emitNode_emits .stack node

theorem emitIterators_emits (nodes : List Node) : EmitsProducers base nodes := by
  match nodes with
  | [] => exact producers_emits_nil
  | node :: nodes =>
    exact producers_emits_cons (emitNode_emits .stack node) (emitIterators_emits nodes)

end

/-- A statement is emitted from where the words end. -/
theorem emitStatement_emits (node : Node) {code : Array Instruction} {offset : Nat}
    (h : offset = base.size + code.size) :
    Follows base (fun entry code' p => entry = offset ∧ code' = code ++ p.onStack)
      (emitStatement node) code (lower offset .stack node) := by
  unfold emitStatement
  refine .here h ?_
  rw [← bind_pure (lower offset .stack node)]
  exact .onStack (emitNode_emits .stack node h) fun p => .pure ⟨rfl, rfl⟩

end

end Emitting

/-! ## Statements -/

theorem Program.append_empty (code : Array Word) : Program.append code #[] = code := by
  rw [Program.append, Array.map_empty, Array.append_empty]

theorem Program.isPrefix_append (code : Array Word) (more : Array Instruction) :
    code.toList <+: (Program.append code more).toList := by
  rw [Program.append, Array.toList_append]
  exact List.prefix_append _ _

theorem Program.shrink_append (code : Array Word) (more : Array Instruction) :
    (Program.append code more).shrink code.size = code := by
  apply Array.ext'
  simp [Program.append]

/-- What emitting a statement leaves: its piece, or the part that was emitted until it failed. -/
theorem emitStatement_run (node : Node) (code : Array Word) (pool : Pool) (journal : Journal) :
    match lower code.size .stack node ⟨pool, journal⟩ with
    | .ok piece bench => emitStatement node ⟨code, pool, journal⟩ =
        .ok code.size ⟨Program.append code piece.onStack, bench.pool, bench.journal⟩
    | .error e bench => ∃ more, emitStatement node ⟨code, pool, journal⟩ =
        .error e ⟨Program.append code more, bench.pool, bench.journal⟩ := by
  have hemits : Emitting.Follows code _ (emitStatement node) #[] (lower code.size .stack node) :=
    Emitting.emitStatement_emits node rfl
  have hrun := hemits pool journal
  rw [Program.append_empty] at hrun
  cases hl : lower code.size .stack node ⟨pool, journal⟩ with
  | ok piece bench =>
    rw [hl] at hrun
    obtain ⟨_, _, hrun, rfl, rfl⟩ := hrun
    dsimp only
    rw [hrun, Array.empty_append]
  | error e bench =>
    rw [hl] at hrun
    exact hrun

/-- Whether or not a statement compiles, the words there were are not touched while it is
emitted: all the jumps that are filled in are its own. -/
theorem emitStatement_keeps (node : Node) (code : Array Word) (pool : Pool) (journal : Journal) :
    match emitStatement node ⟨code, pool, journal⟩ with
    | .ok _ s => code.toList <+: s.code.toList
    | .error _ s => code.toList <+: s.code.toList := by
  have hrun := emitStatement_run node code pool journal
  cases hl : lower code.size .stack node ⟨pool, journal⟩ with
  | ok piece bench =>
    rw [hl] at hrun
    rw [hrun]
    exact Program.isPrefix_append _ _
  | error e bench =>
    rw [hl] at hrun
    obtain ⟨more, hrun⟩ := hrun
    rw [hrun]
    exact Program.isPrefix_append _ _

/-- Compiling a statement puts its piece behind the words there were. When it fails, what was
emitted until then is taken back. -/
theorem Program.compile_eq (code : Array Word) (pool : Pool) (journal : Journal) (node : Node) :
    Program.compile ⟨code, pool⟩ journal node =
      match lower code.size .stack node ⟨pool, journal⟩ with
      | .ok piece ⟨pool, journal⟩ =>
        ⟨.ok code.size, ⟨Program.append code piece.onStack, pool⟩, journal⟩
      | .error e ⟨pool, journal⟩ => ⟨.error e, ⟨code, pool⟩, journal⟩ := by
  have hrun := emitStatement_run node code pool journal
  unfold Program.compile
  dsimp only
  cases hl : lower code.size .stack node ⟨pool, journal⟩ with
  | ok piece bench =>
    rw [hl] at hrun
    rw [hrun]
  | error e bench =>
    rw [hl] at hrun
    obtain ⟨more, hrun⟩ := hrun
    rw [hrun]
    dsimp only
    rw [Program.shrink_append]

end YieldMachine
