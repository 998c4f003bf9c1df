import YieldMachine.Proofs.Machine.Move
import YieldMachine.Proofs.Walk.Bodies

/-!
# Calls find their bodies

A walk knows the body of every function that it can come across: those of its own tree and
those that the globals and the frames hold from before. So it never fails for want of a body.

    Walk.eval_stays   a walk keeps to functions whose bodies are known
-/

namespace YieldMachine

open Walk

/-! ## Functions that are known -/

/-- Every function in the globals and in the frames has a property. -/
structure World.Memory (F : Func → Prop) (w : World) : Prop where
  globals : ∀ name, (w.globals name).AllFunctions F
  heap : ∀ frame ∈ w.heap, ∀ v ∈ frame, v.AllFunctions F

namespace Walk

/-- The body of a function is known. -/
def Bodies.Has (bodies : Bodies) (f : Func) : Prop :=
  (bodies f.entry).isSome

/-- The bodies of some functions are known. -/
def Bodies.Covers (bodies : Bodies) (fs : List (Nat × Body)) : Prop :=
  ∀ f ∈ fs, (bodies f.1).isSome

/-- With a body, those of the functions in it are known. -/
def Bodies.Closed (bodies : Bodies) : Prop :=
  ∀ entry body, bodies entry = some body → bodies.Covers (body.node.functions body.entries)

/-- A stop gives no function without the property, and nothing was missing. -/
def Stop.Keeps (F : Func → Prop) : Stop → Prop
  | .returned v => v.AllFunctions F
  | .lost => False
  | .exited _ | .fatal | .spent => True

/-- A walk keeps to functions with a property, and misses no body. -/
def Stays (F : Func → Prop) {α : Type} (x : Walk α) (P : α → Prop) : Prop :=
  ∀ w : World, w.Memory F → match x w with
    | .ok a w' => w'.Memory F ∧ P a
    | .error s w' => w'.Memory F ∧ s.Keeps F

section

variable {F : Func → Prop} {α β : Type} {x y : Walk α} {f : α → Walk β} {P : α → Prop}
  {Q : β → Prop} {bodies : Bodies} {fs gs : List (Nat × Body)} {l : Locals} {v : Value}

theorem Bodies.covers_append :
    bodies.Covers (fs ++ gs) ↔ bodies.Covers fs ∧ bodies.Covers gs :=
  List.forall_mem_append

/-! ## Steps of a walk -/

namespace Stays

theorem pure {a : α} (h : P a) : Stays F (pure a) P :=
  fun _ hw => ⟨hw, h⟩

theorem throw {s : Stop} (h : s.Keeps F) : Stays F (throw s : Walk α) P :=
  fun _ hw => ⟨hw, h⟩

theorem bind (hx : Stays F x P) (hf : ∀ a, P a → Stays F (f a) Q) : Stays F (x >>= f) Q := by
  intro w hw
  have hxw := hx w hw
  cases h : x w with
  | ok a w' =>
    rw [h] at hxw
    rw [bind_of_ok h]
    exact hf a hxw.2 w' hxw.1
  | error s w' =>
    rw [h] at hxw
    rw [bind_of_error h]
    exact hxw

theorem ite {c : Prop} [Decidable c] (hx : Stays F x P) (hy : Stays F y P) :
    Stays F (if c then x else y) P := by
  split
  · exact hx
  · exact hy

end Stays

theorem stays_read (target : Ref) : Stays F (read l target) (Value.AllFunctions F) := by
  intro w hw
  have hslot : ∀ {frame : Option FrameId} {slot : Int} {v : Value}, w.slot? frame slot = some v →
      v.AllFunctions F := by
    intro frame slot v hv
    obtain ⟨id, -, hat⟩ := Option.bind_eq_some_iff.1 hv
    exact Heap.frame_allFunctions hw.heap id v (Action.at?_mem hat)
  rw [read_apply]
  cases hv : w.read? l target with
  | none => exact ⟨hw, trivial⟩
  | some v =>
    refine ⟨hw, ?_⟩
    cases target with
    | own slot | outer slot => exact hslot hv
    | global name =>
      cases hv
      exact hw.globals name

theorem stays_write (target : Ref) (hv : v.AllFunctions F) :
    Stays F (change fun w => w.write? l target v) fun _ => True := by
  intro w hw
  have hslot : ∀ {frame : Option FrameId} {slot : Int} {w' : World},
      w.setSlot? frame slot v = some w' → w'.Memory F := by
    intro frame slot w' hset
    obtain ⟨id, -, hset⟩ := Option.bind_eq_some_iff.1 hset
    split at hset
    · cases hset
      exact ⟨hw.globals, Action.heap_store_mem hw.heap hv⟩
    · cases hset
  rw [change_apply]
  cases hset : w.write? l target v with
  | none => exact ⟨hw, trivial⟩
  | some w' =>
    refine ⟨?_, trivial⟩
    cases target with
    | own slot | outer slot => exact hslot hset
    | global name =>
      cases hset
      refine ⟨fun other => ?_, hw.heap⟩
      show Value.AllFunctions F (if other = name then v else w.globals other)
      split
      · exact hv
      · exact hw.globals other

theorem stays_each {walk : Entries → Node → Walk Value} (nodes : List Node) {es : Nat → Entries}
    (hc : bodies.Covers (Node.functionsOf es nodes))
    (hwalk : ∀ node e, bodies.Covers (node.functions e) →
      Stays F (walk e node) (Value.AllFunctions F)) :
    Stays F (each walk es nodes) fun vs => ∀ v ∈ vs, v.AllFunctions F := by
  induction nodes generalizing es with
  | nil => exact .pure nofun
  | cons node nodes ih =>
    obtain ⟨hnode, hnodes⟩ := Bodies.covers_append.1 hc
    refine (hwalk node _ hnode).bind fun v hv => (ih hnodes).bind fun vs hvs => .pure ?_
    exact List.forall_mem_cons.2 ⟨hv, hvs⟩

theorem stays_inOrder {walk : Entries → Node → Walk Value} (nodes : List Node)
    {es : Nat → Entries} (hc : bodies.Covers (Node.functionsOf es nodes))
    (hwalk : ∀ node e, bodies.Covers (node.functions e) →
      Stays F (walk e node) (Value.AllFunctions F)) :
    Stays F (inOrder walk es nodes) (Value.AllFunctions F) := by
  match nodes with
  | [] => exact .pure trivial
  | [last] => exact hwalk last _ (Bodies.covers_append.1 hc).1
  | node :: next :: nodes =>
    obtain ⟨hnode, hnodes⟩ := Bodies.covers_append.1 hc
    exact (hwalk node _ hnode).bind fun _ _ => stays_inOrder (next :: nodes) hnodes hwalk

theorem stays_truth : Stays F (truth v) fun _ => True := by
  unfold truth
  split
  · exact .pure trivial
  · exact .throw trivial

theorem stays_whileTrue {test body : Walk Value} (ht : Stays F test (Value.AllFunctions F))
    (hb : Stays F body (Value.AllFunctions F)) (fuel : Nat) :
    ∀ {last : Value}, last.AllFunctions F →
      Stays F (whileTrue test body fuel last) (Value.AllFunctions F) := by
  induction fuel with
  | zero => exact fun _ => .throw trivial
  | succ fuel ih =>
    intro last hlast
    exact ht.bind fun v _ => stays_truth.bind fun b _ =>
      .ite (hb.bind fun v hv => ih hv) (.pure hlast)

theorem stays_untilReturn {x : Walk Value} (hx : Stays F x (Value.AllFunctions F)) :
    Stays F (untilReturn x) (Value.AllFunctions F) := by
  intro w hw
  have hxw := hx w hw
  rw [untilReturn_apply]
  cases h : x w with
  | ok v w' =>
    rw [h] at hxw
    exact hxw
  | error s w' =>
    rw [h] at hxw
    cases s with
    | returned v | exited status | fatal | lost | spent => exact hxw

/-! ## Calls -/

/-- A walk through a body that is found keeps to functions with known bodies. -/
theorem stays_call {walk : Locals → Body → Walk Value} {callee : Value} {args : List Value}
    (hbodies : bodies.Closed) (hcallee : callee.AllFunctions bodies.Has)
    (hargs : ∀ v ∈ args, v.AllFunctions bodies.Has)
    (hwalk : ∀ l (body : Body), bodies.Covers (body.node.functions body.entries) →
      Stays bodies.Has (walk l body) (Value.AllFunctions bodies.Has)) :
    Stays bodies.Has (call bodies walk callee args) (Value.AllFunctions bodies.Has) := by
  cases hrefusal : callee.refusal? args.length with
  | some v =>
    rw [call_of_refusal hrefusal]
    refine .pure ?_
    cases callee with
    | function f =>
      simp only [Value.refusal?] at hrefusal
      split at hrefusal
      · cases hrefusal
        trivial
      · cases hrefusal
    | _ =>
      cases hrefusal
      trivial
  | none =>
    obtain ⟨f, rfl, hparams⟩ := Value.function_of_refusal hrefusal
    obtain ⟨body, hbody⟩ := Option.isSome_iff_exists.1 hcallee
    rw [show call bodies walk (.function f) args = untilReturn (enter bodies walk f args) from
      if_neg fun hne => hne hparams]
    refine stays_untilReturn fun w hw => ?_
    rw [enter_apply hbody]
    refine hwalk _ body (hbodies _ body hbody) _ ⟨hw.globals, fun frame hframe => ?_⟩
    rcases Array.mem_push.1 hframe with hframe | rfl
    · exact hw.heap frame hframe
    · exact Action.ofArgs_allFunctions _ (by simpa using hargs)

theorem stays_perform {op : Primitive} (v : Value) :
    Stays F (perform op v) (Value.AllFunctions F) := by
  have hwrite : ∀ text, Stays F (write text) (Value.AllFunctions F) :=
    fun text w hw => ⟨⟨hw.globals, hw.heap⟩, trivial⟩
  cases op with
  | readLine =>
    intro w hw
    refine ⟨⟨hw.globals, hw.heap⟩, ?_⟩
    cases w.console.read.1 <;> trivial
  | write => exact hwrite _
  | print => exact hwrite _
  | toInt => exact .pure (Value.toInt_allFunctions v)
  | toFloat => exact .pure (Value.toFloat_allFunctions v)
  | toStr => exact .pure trivial
  | exit => exact .throw trivial

/-! ## Nodes -/

/-- By induction on the fuel: a walk keeps to functions whose bodies are known, and never
misses one. -/
theorem eval_stays (hbodies : bodies.Closed) (fuel : Nat) : ∀ (l : Locals) (e : Entries)
    (node : Node), bodies.Covers (node.functions e) →
      Stays bodies.Has (eval bodies fuel l e node) (Value.AllFunctions bodies.Has) := by
  induction fuel with
  | zero => exact fun l e node _ => .throw trivial
  | succ fuel ih =>
    intro l e node hc
    have hwalk := fun node e => ih l e node
    cases node with
    | literal value => exact .pure (by cases value <;> trivial)
    | ref target => exact stays_read target
    | assign target value =>
      exact (ih l _ value hc).bind fun v hv => (stays_write target hv).bind fun _ _ => .pure hv
    | unary op operand =>
      exact (ih l _ operand hc).bind fun v _ => .pure (op.apply_allFunctions v)
    | binary left op right =>
      obtain ⟨hleft, hright⟩ := Bodies.covers_append.1 hc
      exact (ih l _ left hleft).bind fun u hu => (ih l _ right hright).bind fun v hv =>
        .pure (op.apply_allFunctions hu hv)
    | index target place =>
      obtain ⟨htarget, hplace⟩ := Bodies.covers_append.1 hc
      exact (ih l _ target htarget).bind fun u hu => (ih l _ place hplace).bind fun v _ =>
        .pure (Value.index_allFunctions hu)
    | slice target start stop =>
      obtain ⟨hboth, hstop⟩ := Bodies.covers_append.1 hc
      obtain ⟨htarget, hstart⟩ := Bodies.covers_append.1 hboth
      exact (ih l _ target htarget).bind fun t ht => (ih l _ start hstart).bind fun u _ =>
        (ih l _ stop hstop).bind fun v _ => .pure (Value.slice_allFunctions u v ht)
    | len target =>
      exact (ih l _ target hc).bind fun v _ => .pure v.len_allFunctions
    | array elements =>
      refine (stays_each elements hc hwalk).bind fun vs hvs => .pure ?_
      rw [Value.allFunctions_array]
      simpa using hvs
    | block nodes => exact stays_inOrder nodes hc hwalk
    | cond condition thenBranch elseBranch =>
      obtain ⟨hboth, helse⟩ := Bodies.covers_append.1 hc
      obtain ⟨hcond, hthen⟩ := Bodies.covers_append.1 hboth
      refine (ih l _ condition hcond).bind fun v _ => stays_truth.bind fun b _ =>
        .ite (ih l _ thenBranch hthen) ?_
      cases elseBranch with
      | none => exact .pure trivial
      | some node => exact ih l _ node helse
    | loop condition body =>
      obtain ⟨hcond, hbody⟩ := Bodies.covers_append.1 hc
      exact stays_whileTrue (ih l _ condition hcond) (ih l _ body hbody) fuel trivial
    | function params frameSize body => exact .pure (hc _ (List.mem_cons_self ..))
    | call callee args =>
      obtain ⟨hcallee, hargs⟩ := Bodies.covers_append.1 hc
      exact (stays_each args hargs hwalk).bind fun vs hvs =>
        (ih l _ callee hcallee).bind fun f hf =>
          stays_call hbodies hf hvs fun l body => ih l body.entries body.node
    | ret value => exact (ih l _ value hc).bind fun v hv => .throw hv
    | primitive op args =>
      cases args with
      | nil => exact stays_perform _
      | cons arg args =>
        exact (ih l _ arg (Bodies.covers_append.1 hc).1).bind fun v _ => stays_perform v
    | forEach refs iterators body => exact .throw trivial
    | yield value => exact .throw trivial

end

end Walk

/-! ## Trees and the bodies in them -/

/-- With a function, the functions in its body belong to a list. -/
def Walk.Nested (fs : List (Nat × Body)) : Prop :=
  ∀ f ∈ fs, ∀ g ∈ f.2.node.functions f.2.entries, g ∈ fs

theorem Walk.Nested.append {fs gs : List (Nat × Body)} (hf : Nested fs) (hg : Nested gs) :
    Nested (fs ++ gs) := by
  intro f hmem g hg'
  rcases List.mem_append.1 hmem with hmem | hmem
  · exact List.mem_append_left _ (hf f hmem g hg')
  · exact List.mem_append_right _ (hg f hmem g hg')

mutual

/-- The functions of a tree come with those in their bodies. -/
theorem Node.functions_nested (node : Node) (e : Entries) : Nested (node.functions e) := by
  match node with
  | .literal _ | .ref _ => exact nofun
  | .assign _ node | .unary _ node | .len node | .yield node | .ret node =>
    exact Node.functions_nested node _
  | .binary left _ right => exact (left.functions_nested _).append (right.functions_nested _)
  | .index target place => exact (target.functions_nested _).append (place.functions_nested _)
  | .slice target start stop =>
    exact ((target.functions_nested _).append (start.functions_nested _)).append
      (stop.functions_nested _)
  | .array nodes | .block nodes | .primitive _ nodes => exact Node.functionsOf_nested nodes _
  | .cond condition thenBranch elseBranch =>
    exact ((condition.functions_nested _).append (thenBranch.functions_nested _)).append
      (Node.functionsOption_nested elseBranch _)
  | .loop condition body =>
    exact (condition.functions_nested _).append (body.functions_nested _)
  | .forEach _ iterators body =>
    exact (body.functions_nested _).append (Node.functionsOf_nested iterators _)
  | .function _ _ body =>
    intro f hmem g hg
    rcases List.mem_cons.1 hmem with rfl | hmem
    · exact List.mem_cons_of_mem _ hg
    · exact List.mem_cons_of_mem _ (body.functions_nested _ f hmem g hg)
  | .call callee args =>
    exact (callee.functions_nested _).append (Node.functionsOf_nested args _)

theorem Node.functionsOf_nested (nodes : List Node) (es : Nat → Entries) :
    Nested (Node.functionsOf es nodes) := by
  match nodes with
  | [] => exact nofun
  | node :: nodes => exact (node.functions_nested _).append (Node.functionsOf_nested nodes _)

theorem Node.functionsOption_nested (node : Option Node) (e : Entries) :
    Nested (Node.functionsOption e node) := by
  match node with
  | none => exact nofun
  | some node => exact node.functions_nested e

end

namespace Walk

variable {bodies : Bodies} {fs : List (Nat × Body)}

theorem Bodies.covers_add (bodies : Bodies) (fs : List (Nat × Body)) :
    (bodies.add fs).Covers fs := by
  intro f hf
  rw [Bodies.add, Option.isSome_or, List.lookup_isSome_iff.2 ⟨f, hf, beq_self_eq_true f.1⟩]
  rfl

theorem Bodies.Has.add {f : Func} (h : bodies.Has f) : (bodies.add fs).Has f := by
  unfold Bodies.Has Bodies.add
  rw [Option.isSome_or, show (bodies f.entry).isSome = true from h, Bool.or_true]

theorem Bodies.Closed.add (h : bodies.Closed) (hf : Nested fs) : (bodies.add fs).Closed := by
  intro entry body hentry g hg
  rcases Bodies.mem_of_add hentry with hmem | hbody
  · exact bodies.covers_add fs g (hf _ hmem g hg)
  · have hknown : (bodies g.1).isSome := h entry body hbody g hg
    rw [Bodies.add, Option.isSome_or, hknown, Bool.or_true]

end Walk

theorem World.Memory.mono {F G : Func → Prop} {w : World} (h : w.Memory F)
    (hfg : ∀ f, F f → G f) : w.Memory G :=
  ⟨fun name => (h.globals name).mono hfg,
    fun frame hframe v hv => (h.heap frame hframe v hv).mono hfg⟩

end YieldMachine
