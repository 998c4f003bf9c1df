import YieldMachine.Proofs.Walk.Arrays

/-!
# Functions, calls and primitives

The pieces that leave the tree they stand in: a function is made and remembered, a call
performs the walk through a body that was remembered, a return leaves it, and an exit leaves
everything. What is known of a body is that its code stands in the program.

    Performs.call   a call performs the walk through the body
-/

namespace YieldMachine

open Walk

section

variable {program : Program} {bodies : Bodies} {l : Locals} {c : Context} {cs : Array Context}
  {w : World} {x y : Walk Value} {post : Value → World → Context → Prop} {a b ip base : Nat}
  {dest r r' : Operand} {v : Value} {us : Array Value} {op : Opcode}

/-! ## Functions -/

theorem Does.function {o o' count size : Operand}
    (hj : program.instruction? base = some ⟨.jump, o, .unused, .unused⟩)
    (ho : program.Leaps base o (a + 1))
    (hi : program.instruction? (a + 1) = some ⟨.makeFunction, o', count, size⟩)
    (ho' : program.Leaps (a + 1) o' (base + 1)) :
    Does program l base dest .stack (a + 2)
      (pure (.function ⟨base + 1, count.address.toNat, size.address.toNat, l.own⟩)) := by
  rintro c cs w rfl hl
  rw [settle_of_stack, bind_pure]
  have hmake : Performs program cs (c.plus c.ip #[]) c
      (pure (.function ⟨c.ip + 1, count.address.toNat, size.address.toNat, l.own⟩)) w
      (Delivers program c (a + 2) .stack) := by
    refine .jump hj ho (.of_leads (.step hi
      (y := fun limits => Action.makeFunction program limits (a + 1) o' count size)
      (fun _ => rfl) fun limits m hm => ?_) (.pure ⟨rfl, .inl rfl⟩))
    have hreach : Action.Reaches limits _ (Action.makeFunction program limits (a + 1) o' count size)
        m _ cs w := Action.makeFunction_at hm ho'.1
    rw [Context.moved_plus, ho'.2, Context.swap_zero_plus] at hreach
    rw [← hl.own]
    exact hreach
  rwa [Context.plus_self] at hmake

/-! ## Returns and exits -/

/-- A return leaves the innermost call. -/
theorem Performs.ret (hs : Shows program w c r v)
    (hi : program.instruction? ip = some ⟨.ret, .unused, r, .unused⟩) :
    Performs program cs (c.plus ip (r.received v)) c (throw (.returned v)) w post := by
  intro record hr hsize hf
  refine .step (y := fun limits => Action.ret program limits ip r) hi (fun _ => rfl)
    fun limits m hm => ?_
  rw [Context.moved_plus] at *
  refine (Action.ret_at hm (hs.look_received (ip + 1)) hr hf).mono (fun _ m' hm' => ?_)
    fun _ _ h => .inl ⟨h.1, ?_⟩
  · rwa [Context.swap_plus (Operand.size_received r v).symm, Context.swap_zero_moved,
      Context.leave_plus hsize] at hm'
  · rw [Context.size_plus]
    omega

theorem Does.ret (hx : Does program l base .stack r a x)
    (hi : program.instruction? a = some ⟨.ret, .unused, r, .unused⟩) :
    Does program l base dest r' (a + 1) (do throw (.returned (← x))) := by
  intro c cs w hip hl
  rw [bind_assoc]
  exact (hx.start hip hl).bind fun v w₁ c₁ _ ⟨hc₁, hs⟩ => hc₁ ▸ .ret hs hi

theorem Does.exit (hx : Does program l base .stack r a x)
    (hi : program.instruction? a = some ⟨.exit, .unused, r, .unused⟩) :
    Does program l base dest r' (a + 1) (do throw (.exited (← x).exitStatus)) := by
  intro c cs w hip hl
  rw [bind_assoc]
  refine (hx.start hip hl).bind fun v w₁ c₁ _ ⟨hc₁, hs⟩ => ⟨0, fun limits m hm => ⟨1, .inl ?_⟩⟩
  rw [hc₁] at hm
  obtain ⟨m', hstep, hw⟩ : ∃ m', m.step program limits = .exited v.exitStatus m' ∧ m'.world = w₁ :=
    hm.exits hi rfl (hs.look_received a)
  exact ⟨m', by rw [Machine.run_one, hstep], hw⟩

/-! ## Calls -/

theorem Walk.untilReturn_apply : untilReturn x w = match x w with
    | .error (.returned v) w' => .ok v w'
    | result => result :=
  rfl

theorem Walk.enter_apply {walk : Locals → Body → Walk Value} {f : Func} {args : List Value}
    {body : Body} (h : bodies f.entry = some body) :
    enter bodies walk f args w = walk ⟨some w.heap.size, f.captured⟩ body
      { w with heap := w.heap.push (Frame.ofArgs args.toArray f.frameSize) } := by
  unfold enter
  rw [h]
  rfl

theorem Walk.call_of_refusal {walk : Locals → Body → Walk Value} {callee : Value}
    {args : List Value} (h : callee.refusal? args.length = some v) :
    call bodies walk callee args = pure v := by
  cases callee with
  | function f =>
    simp only [Value.refusal?] at h
    split at h
    · next hne =>
      cases h
      simp only [call, if_pos hne]
    · cases h
  | _ =>
    cases h
    rfl

theorem Value.function_of_refusal {callee : Value} {n : Nat} (h : callee.refusal? n = none) :
    ∃ f, callee = .function f ∧ f.params = n := by
  cases callee with
  | function f =>
    simp only [Value.refusal?] at h
    split at h
    · cases h
    · next hparams => exact ⟨f, rfl, not_not.1 hparams⟩
  | _ => cases h

/-- The context of the body of a function that was called from another context. -/
def Context.called (c : Context) (ip : Nat) (f : Func) (id : FrameId) : Context :=
  ⟨f.entry, c.stack, f.frames c.frames id,
    c.calls.push ⟨ip, c.stack.size, c.frames.size, c.loops.size⟩, c.loops, c.pending⟩

theorem Context.enter_plus (c : Context) (ip : Nat) (us : Array Value) (f : Func) (id : FrameId) :
    (c.plus ip us).enter f c.stack.size id = c.called ip f id := by
  rw [Context.enter_eq]
  simp only [Context.plus, Context.called, Context.mk.injEq, true_and, and_true]
  apply Array.ext'
  simp

theorem Context.leave_called (c : Context) (ip : Nat) (us : Array Value) (f : Func)
    (id : FrameId) :
    ((c.called ip f id).leave ⟨ip, c.stack.size, c.frames.size, c.loops.size⟩).plus ip us =
      c.plus ip us := by
  rw [Context.leave_eq]
  simp only [Context.plus, Context.called, Context.mk.injEq, true_and, and_true]
  refine ⟨?_, f.frames_shrink _ _, by simp, by simp⟩
  apply Array.ext'
  simp

theorem Walk.Locals.fits_called (c : Context) (ip : Nat) (f : Func) (id : FrameId) :
    Locals.Fits ⟨some id, f.captured⟩ (c.called ip f id).frames := by
  refine ⟨?_, fun outer houter => ?_⟩
  · show (f.frames c.frames id).at? 0 = some id
    rw [Chain.at?, if_pos (Nat.zero_lt_of_lt (f.size_frames c.frames id)), Func.frames,
      Array.size_push]
    exact Array.getElem?_push_size
  · show (f.frames c.frames id).at? 1 = some outer
    have hframes : f.frames c.frames id = (c.frames.push outer).push id := by
      rw [Func.frames, show f.captured = some outer from houter]
    have hindex : ((c.frames.push outer).push id).size - (1 + 1) = c.frames.size := by
      rw [Array.size_push, Array.size_push]
      omega
    rw [hframes, Chain.at?, if_pos (by simp), hindex, Array.getElem?_push,
      if_neg (by rw [Array.size_push]; omega)]
    exact Array.getElem?_push_size

/-- A body stands in the program, with a return behind it. -/
def Program.Seats (program : Program) (entry : Nat) (body : Body) : Prop :=
  ∃ r stop, Stands program .stack entry body.node body.entries r stop ∧
    program.instruction? stop = some ⟨.ret, .unused, r, .unused⟩

/-- The bodies stand in the program, or stood there when it was smaller. -/
def Program.Knows (program : Program) (bodies : Bodies) : Prop :=
  ∀ entry body, bodies entry = some body →
    ∃ p : Program, p.Within program ∧ p.Seats entry body

/-- A body does what a walk does that is told where to find its variables. -/
def Program.Walks (program : Program) (walk : Locals → Body → Walk Value) : Prop :=
  ∀ {p : Program} {entry stop : Nat} {body : Body} {r : Operand}, p.Within program →
    Stands p .stack entry body.node body.entries r stop →
    ∀ l, Does program l entry .stack r stop (walk l body)

/-- What a body gives is what a call of it gives, whether it comes to its end or returns. -/
theorem Performs.untilReturn {f : Func} {id : FrameId} {stop : Nat}
    (hx : Performs program cs (c.called ip f id) (c.called ip f id) x w
      (Delivers program (c.called ip f id) stop r))
    (hi : program.instruction? stop = some ⟨.ret, .unused, r, .unused⟩) :
    Performs program cs (c.called ip f id) c (untilReturn x) w (Delivers program c ip .stack) := by
  have hreturned : ∀ {v : Value} {w' : World},
      Stops program cs (c.called ip f id) (c.called ip f id) w (.returned v) w' →
      ∃ c', (c.called ip f id).Leads program cs w (Step.Comes c' cs w') ∧
        Delivers program c ip .stack v w' c' := by
    intro v w' hstop
    have hleads := hstop _ Array.back?_push (Nat.le_refl _)
      (Nat.le_of_lt (f.size_frames c.frames id))
    rw [Context.leave_called] at hleads
    exact ⟨_, hleads, rfl, .inl rfl⟩
  unfold Performs at hx ⊢
  rw [untilReturn_apply]
  cases hw : x w with
  | ok v w' =>
    rw [hw] at hx
    obtain ⟨c', hc', rfl, hs⟩ := hx
    have hret : Performs program cs _ _ _ w' fun _ _ _ => True := .ret hs hi
    exact hreturned (Stops.of_leads hc' hret)
  | error s w' =>
    rw [hw] at hx
    cases s with
    | returned v => exact hreturned hx
    | exited status => exact hx
    | fatal | lost | spent => trivial

theorem Context.extract_args {vs : Array Value} :
    (c.plus ip (us ++ vs)).stack.extract c.stack.size (c.stack.size + us.size) = us := by
  show (c.stack ++ (us ++ vs)).extract _ _ = us
  apply Array.ext'
  simp

theorem Context.size_plus_args (args : List Value) :
    (c.plus ip (args.toArray ++ r.received v)).stack.size =
      c.stack.size + args.length + r.cells := by
  rw [Context.size_plus, Array.size_append, Operand.size_received, Nat.add_assoc]
  rfl

/-- A function that is called with as many arguments as it asks for starts with its frame. -/
theorem Context.Leads.entered {f : Func} {args : List Value} {w : World}
    (hs : Shows program w c r (.function f)) (hn : f.params = args.length)
    (hi : program.instruction? ip = some ⟨.call, ⟨.immediate, args.length⟩, r, .unused⟩) :
    (c.plus ip (args.toArray ++ r.received (.function f))).Leads program cs w
      (Step.Comes (c.called (ip + 1) f w.heap.size) cs { w with
        heap := w.heap.push (Frame.ofArgs args.toArray f.frameSize) }) := by
  have hsize : (c.plus (ip + 1) (args.toArray ++ r.received (.function f))).stack.size = _ :=
    Context.size_plus_args args
  have hle : r.cells + args.length ≤
      (c.plus (ip + 1) (args.toArray ++ r.received (.function f))).stack.size := by omega
  refine .step hi (y := fun limits => Action.call program limits _ _) (fun _ => rfl)
    fun limits m hm => ?_
  change m.At (c.plus (ip + 1) _) cs _ at hm
  have hcall : Action.Reaches limits _ _ m _ cs _ :=
    Action.call_entered_at (i := ⟨.call, ⟨.immediate, args.length⟩, r, .unused⟩) hm rfl
      (hs.look (ip + 1) args.toArray) hle hn
  dsimp only at hcall
  rw [Context.swap_plus_append (Operand.size_received r _).symm, Array.append_empty, hsize,
    show c.stack.size + args.length + r.cells - (r.cells + args.length) = c.stack.size by omega,
    show c.stack.size + args.length + r.cells - r.cells = c.stack.size + args.toArray.size by
      simp, Context.enter_plus, Context.extract_args] at hcall
  exact hcall

/-- A call of a value that is no function for so many arguments gives why. -/
theorem Context.Leads.refused {callee : Value} {args : List Value} {w : World}
    (hs : Shows program w c r callee) (hrefusal : callee.refusal? args.length = some v)
    (hi : program.instruction? ip = some ⟨.call, ⟨.immediate, args.length⟩, r, .unused⟩) :
    (c.plus ip (args.toArray ++ r.received callee)).Leads program cs w
      (Step.Comes (c.plus (ip + 1) #[v]) cs w) := by
  refine .step hi (y := fun limits => Action.call program limits _ _) (fun _ => rfl)
    fun limits m hm => ?_
  rw [Context.moved_plus] at *
  have hcall : Action.Reaches limits _ _ m _ cs w :=
    Action.call_refused_at (i := ⟨.call, ⟨.immediate, args.length⟩, r, .unused⟩) hm rfl
      (hs.look (ip + 1) args.toArray) (by rw [Context.size_plus_args]; dsimp only; omega) hrefusal
  rwa [Context.swap_plus (by simp [Operand.size_received, Nat.add_comm])] at hcall

/-- A call of the value behind its arguments. -/
theorem Performs.call {walk : Locals → Body → Walk Value} {callee : Value} {args : List Value}
    (hk : program.Knows bodies) (hwalk : program.Walks walk) (hs : Shows program w c r callee)
    (hi : program.instruction? ip = some ⟨.call, ⟨.immediate, args.length⟩, r, .unused⟩) :
    Performs program cs (c.plus ip (args.toArray ++ r.received callee)) c
      (Walk.call bodies walk callee args) w (Delivers program c (ip + 1) .stack) := by
  cases hrefusal : callee.refusal? args.length with
  | some v =>
    rw [call_of_refusal hrefusal]
    exact .of_leads (.refused hs hrefusal hi) (.pure ⟨rfl, .inl rfl⟩)
  | none =>
    obtain ⟨f, rfl, hparams⟩ := Value.function_of_refusal hrefusal
    have hcall : Walk.call bodies walk (.function f) args =
        Walk.untilReturn (enter bodies walk f args) :=
      if_neg fun hne => hne hparams
    rw [hcall]
    cases hbody : bodies f.entry with
    | none =>
      unfold Performs
      rw [untilReturn_apply, enter, hbody]
      trivial
    | some body =>
      obtain ⟨p, hp, br, stop, hstands, hret⟩ := hk f.entry body hbody
      have hx : Performs program cs _ _ (walk ⟨some w.heap.size, f.captured⟩ body) { w with
          heap := w.heap.push (Frame.ofArgs args.toArray f.frameSize) } _ :=
        (hwalk hp hstands _).start rfl (Locals.fits_called c (ip + 1) f _)
      refine of_leads_to (.entered hs hparams hi) (untilReturn hx (hp.instruction? hret)) ?_
      rw [untilReturn_apply, untilReturn_apply, enter_apply hbody]

theorem Does.call {xs : Walk (List Value)} {walk : Locals → Body → Walk Value} {n : Nat}
    (hk : program.Knows bodies) (hwalk : program.Walks walk) (hxs : DoesAll program l base a xs)
    (hn : ∀ {w vs w'}, xs w = .ok vs w' → vs.length = n)
    (hy : Does program l a .stack r b y)
    (hi : program.instruction? b = some ⟨.call, ⟨.immediate, n⟩, r, .unused⟩) :
    Does program l base dest .stack (b + 1) (do
      let vs ← xs
      let f ← y
      call bodies walk f vs) := by
  intro c cs w hip hl
  rw [settle_of_stack, bind_pure]
  refine (hxs c cs w hip hl).bind fun vs w₁ c₁ hw hc₁ => ?_
  rw [hc₁]
  refine (hy.run hl).bind fun callee w₂ c₂ _ ⟨hc₂, hs⟩ => ?_
  rw [← hn hw] at hi
  rw [hc₂]
  exact .call hk hwalk hs hi

/-! ## Reading and writing -/

theorem Does.readLine (hi : program.instruction? base = some ⟨.readLine, dest, .unused, .unused⟩) :
    Does program l base dest dest (base + 1) readLine := by
  rintro c cs w rfl hl
  rw [settle_self]
  have hread : Performs program cs (c.plus c.ip #[]) c (Walk.readLine >>= put program c dest) w
      (Delivers program c (c.ip + 1) dest) := by
    have hread : Walk.readLine w = .ok (w.console.read.1.elim .nil .string)
        { w with console := w.console.read.2 } := rfl
    refine .store (y := fun limits => Action.readLine program limits _)
      (Walk.bind_of_ok hread) hi (fun _ => rfl) fun limits m w' hm hw => ?_
    have hreach : Action.Reaches limits _ _ m _ cs w' :=
      Action.readLine_at (i := ⟨.readLine, dest, .unused, .unused⟩) hm hw
    rwa [Context.swap_zero_plus, Array.empty_append] at hreach
  rwa [Context.plus_self] at hread

theorem Does.write {ending : String} (hx : Does program l base .stack r a x)
    (hi : program.instruction? a = some ⟨op, dest, r, .unused⟩) (he : op.effect = .write ending) :
    Does program l base dest dest (a + 1) (do write ((← x).text ++ ending)) := by
  intro c cs w hip hl
  rw [settle_self, bind_assoc]
  refine (hx.start hip hl).bind fun v w₁ c₁ _ ⟨hc₁, hs⟩ => ?_
  rw [hc₁]
  have hwrite : Walk.write (v.text ++ ending) w₁ = .ok .nil
      { w₁ with console := w₁.console.write (v.text ++ ending) } := rfl
  refine .store (y := fun limits => Action.write program limits _ ending)
    (Walk.bind_of_ok hwrite) hi
    (fun _ => by rw [Instruction.effect, he]; rfl) fun limits m w' hm hw => ?_
  have hreach : Action.Reaches limits _ _ m _ cs w' :=
    Action.write_at (i := ⟨op, dest, r, .unused⟩) hm (hs.look_received (a + 1)) hw
  rwa [Context.swap_plus (Operand.size_received r v).symm] at hreach

end

end YieldMachine
