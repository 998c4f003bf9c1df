import YieldMachine.Proofs.Compile.Ending
import YieldMachine.Proofs.Walk.Simulation

/-!
# What pieces of code do

`Does program l base dest r stop x` says that the code from `base` to `stop` performs the
walk `x` in whatever context it runs, and leaves the value at `r`; where `r` is the
destination, the value has been stored there too. Each kind of node has one rule, which
takes its parts for granted.
-/

namespace YieldMachine

open Walk

/-! ## Values and where they are -/

/-- Store a value, and give it. -/
def Walk.put (program : Program) (c : Context) (o : Operand) (v : Value) : Walk Value := do
  change fun w => w.put? program c o v
  return v

/-- Store a value at `dest`, if this is where its code leaves it. -/
def Walk.settle (program : Program) (c : Context) (dest r : Operand) (v : Value) : Walk Value :=
  if r = dest then put program c dest v else return v

/-- The context has come to `ip`, and a value can be read at `r`. -/
def Delivers (program : Program) (c : Context) (ip : Nat) (r : Operand) (v : Value) (w : World)
    (c' : Context) : Prop :=
  c' = c.plus ip (r.received v) ∧ Shows program w c r v

section

variable {program : Program} {c c₀ : Context} {cs : Array Context} {w w₁ : World} {α : Type}
  {x : Walk α} {post : α → World → Context → Prop} {a b ip : Nat} {dest r r' : Operand}
  {v u : Value} {us : Array Value} {i : Instruction}

theorem Walk.get_bind (f : World → Walk α) : (get >>= f) w = f w w :=
  rfl

theorem Walk.change_apply (f : World → Option World) :
    change f w = match f w with
      | some w' => .ok () w'
      | none => .error .fatal w := by
  unfold change
  rw [Walk.get_bind]
  cases f w <;> rfl

theorem Walk.put_apply : put program c r v w = match w.put? program c r v with
    | some w' => .ok v w'
    | none => .error .fatal w := by
  have hchange := change_apply (w := w) fun w => w.put? program c r v
  unfold put
  cases hw : w.put? program c r v with
  | none =>
    rw [hw] at hchange
    exact bind_of_error hchange
  | some w' =>
    rw [hw] at hchange
    exact bind_of_ok hchange

theorem Walk.put_stack : put program c .stack v = pure v := by
  funext w
  rfl

theorem Walk.settle_stack : settle program c .stack r = pure := by
  funext v
  unfold settle
  split
  · exact put_stack
  · rfl

theorem Walk.settle_of_stack : settle program c dest .stack = pure := by
  funext v
  unfold settle
  split
  · next h => exact h ▸ put_stack
  · rfl

theorem Walk.settle_self : settle program c dest dest = put program c dest := by
  funext v
  rw [settle, if_pos rfl]

namespace Performs

/-- An instruction that does what the walk does before it stores a value, and stores it. -/
theorem store {x : Walk Value} {y : Limits → Action Unit}
    (hx : x w = put program c dest v w₁) (hi : program.instruction? ip = some i)
    (he : ∀ limits, i.effect.run program limits ip i = do y limits; return Flow.next)
    (hy : ∀ (limits : Limits) (m : Machine) (w' : World), m.At (c.plus (ip + 1) us) cs w →
      w₁.put? program c dest v = some w' →
      Action.Reaches limits (c.plus (ip + 1) us) (y limits) m
        (c.plus (ip + 1) (dest.received v)) cs w') :
    Performs program cs (c.plus ip us) c x w (Delivers program c (ip + 1) dest) := by
  unfold Performs
  rw [hx, put_apply]
  cases hw : w₁.put? program c dest v with
  | none => trivial
  | some w' =>
    refine ⟨_, .step (y := y) hi he fun limits m hm => hy limits m w' ?_ hw, rfl, shows_of_put hw⟩
    rwa [Context.moved_plus] at hm

/-- An instruction that applies an operation to one value. -/
theorem unary {op : Opcode} {z : Operand} {f : Value → Value} (hs : Shows program w c r v)
    (hi : program.instruction? ip = some ⟨op, dest, r, z⟩) (he : op.effect = .unary f) :
    Performs program cs (c.plus ip (r.received v)) c (put program c dest (f v)) w
      (Delivers program c (ip + 1) dest) := by
  refine store (y := fun limits => Action.unary program limits _ f) rfl hi
    (fun limits => by rw [Instruction.effect, he]; rfl) fun limits m w' hm hw => ?_
  have hreach : Action.Reaches limits _ _ m _ cs w' :=
    Action.unary_at (f := f) (i := ⟨op, dest, r, z⟩) hm (hs.look_received (ip + 1)) hw
  rwa [Context.swap_plus (Operand.size_received r v).symm] at hreach

/-- An instruction that applies an operation to two values. -/
theorem binary {op : Opcode} {lr rr : Operand} {f : Value → Value → Value}
    (hu : Shows program w c lr u) (hv : Shows program w c rr v)
    (hi : program.instruction? ip = some ⟨op, dest, lr, rr⟩) (he : op.effect = .binary f) :
    Performs program cs (c.plus ip (lr.received u ++ rr.received v)) c
      (put program c dest (f u v)) w (Delivers program c (ip + 1) dest) := by
  refine store (y := fun limits => Action.binary program limits _ f) rfl hi
    (fun limits => by rw [Instruction.effect, he]; rfl) fun limits m w' hm hw => ?_
  have hc := hv.look (ip + 1) (lr.received u)
  have hb := hu.look_received (ip + 1)
  have hcut : (c.plus (ip + 1) (lr.received u ++ rr.received v)).swap rr.cells #[] =
      c.plus (ip + 1) (lr.received u) := by
    rw [Context.swap_plus_append (Operand.size_received rr v).symm, Array.append_empty]
  rw [← hcut] at hb
  have hreach : Action.Reaches limits _ _ m _ cs w' :=
    Action.binary_at (f := f) (i := ⟨op, dest, lr, rr⟩) hm hc hb hw
  rwa [Context.swap_plus (by simp [Operand.size_received, Nat.add_comm])] at hreach

theorem slice {ar br cr : Operand} {z : Value} (hu : Shows program w c ar u)
    (hv : Shows program w c br v) (hz : Shows program w c cr z)
    (hi : program.instruction? ip = some ⟨.slice, ar, br, cr⟩) :
    Performs program cs (c.plus ip (ar.received u ++ br.received v ++ cr.received z)) c
      (Pure.pure (u.slice v z)) w (Delivers program c (ip + 1) .stack) := by
  rw [← @put_stack program c]
  refine store (y := fun limits => Action.slice program limits _) rfl hi (fun _ => rfl)
    fun limits m w' hm hw => ?_
  cases hw
  have hc := hz.look (ip + 1) (ar.received u ++ br.received v)
  have hb := hv.look (ip + 1) (ar.received u)
  have ha := hu.look_received (ip + 1)
  have hcut : (c.plus (ip + 1) (ar.received u ++ br.received v ++ cr.received z)).swap cr.cells
      #[] = c.plus (ip + 1) (ar.received u ++ br.received v) := by
    rw [Context.swap_plus_append (Operand.size_received cr z).symm, Array.append_empty]
  have hcut' : (c.plus (ip + 1) (ar.received u ++ br.received v ++ cr.received z)).swap
      (cr.cells + br.cells) #[] = c.plus (ip + 1) (ar.received u) := by
    rw [← Context.swap_swap, hcut, Context.swap_plus_append (Operand.size_received br v).symm,
      Array.append_empty]
  rw [← hcut] at hb
  rw [← hcut'] at ha
  have hreach : Action.Reaches limits _ _ m _ cs w :=
    Action.slice_at (i := ⟨.slice, ar, br, cr⟩) hm hc hb ha
  rwa [Context.swap_plus (by simp [Operand.size_received]; omega)] at hreach

/-- The code that makes a value available at another operand. -/
theorem carry (hcarry : program.Carries r dest a b) (hs : Shows program w c r v) :
    Performs program cs (c.plus a (r.received v)) c (put program c dest v) w
      (Delivers program c b dest) := by
  unfold Program.Carries at hcarry
  split at hcarry
  · next heq =>
    subst heq hcarry
    unfold Performs
    rw [put_apply]
    cases hw : w.put? program c r v with
    | none => trivial
    | some w' =>
      rw [hs.put_eq hw]
      exact ⟨_, .refl _ _ _ _, rfl, hs⟩
  · obtain ⟨hi, rfl⟩ := hcarry
    exact unary (f := id) hs hi rfl

/-- An instruction that puts a value on the stack is no part of the walk. -/
theorem pushes (hput : Performs program cs c₀ (c.plus a us) (put program (c.plus a us) .stack v) w
      (Delivers program (c.plus a us) b .stack))
    (h : Performs program cs (c.plus b (us ++ #[v])) c x w post) :
    Performs program cs c₀ c x w post := by
  rw [put_stack] at hput
  obtain ⟨c', hc', rfl, -⟩ := hput
  rw [Context.plus_plus] at hc'
  exact h.of_leads hc'

/-- A value that stays where it can be read, or goes onto the stack. -/
theorem pinned (hcarry : program.Carries r r' a b) (hr : r' = r ∨ r' = .stack)
    (hs : Shows program w c r v)
    (h : Shows program w c r' v →
      Performs program cs (c.plus b (us ++ r'.received v)) c x w post) :
    Performs program cs (c.plus a (us ++ r.received v)) c x w post := by
  rcases hr with rfl | rfl
  · rw [Program.Carries, if_pos rfl] at hcarry
    subst hcarry
    exact h hs
  · rw [Context.plus_append]
    exact pushes (carry hcarry (shows_plus.2 hs)) (h (.inl rfl))

/-- A value that is read in place is where it should be. -/
theorem settle (hs : Shows program w c r v) :
    Performs program cs (c.plus ip (r.received v)) c (settle program c dest r v) w
      (Delivers program c ip r) := by
  unfold Walk.settle
  split
  · next h =>
    subst h
    exact carry (program.carries_refl r) hs
  · exact .pure ⟨rfl, hs⟩

end Performs

end

/-! ## Pieces -/

section

variable (program : Program) (l : Locals)

/-- The code from `base` to `stop` performs a walk and leaves its value at `r`. -/
def Does (base : Nat) (dest r : Operand) (stop : Nat) (x : Walk Value) : Prop :=
  ∀ (c : Context) (cs : Array Context) (w : World), c.ip = base → l.Fits c.frames →
    Performs program cs c c (x >>= settle program c dest r) w (Delivers program c stop r)

/-- The code from `base` to `stop` performs a walk and leaves its values on the stack. -/
def DoesAll (base stop : Nat) (x : Walk (List Value)) : Prop :=
  ∀ (c : Context) (cs : Array Context) (w : World), c.ip = base → l.Fits c.frames →
    Performs program cs c c x w fun vs _ c' => c' = c.plus stop vs.toArray

end

section

variable {program : Program} {l : Locals} {c : Context} {cs : Array Context} {w : World}
  {x y z : Walk Value} {a b d ip base stop : Nat} {dest r r' lr rr : Operand} {v u : Value}
  {us : Array Value} {op : Opcode}

/-- A piece whose value goes nowhere else. -/
theorem Does.start (h : Does program l a .stack r b x) (hip : c.ip = a) (hl : l.Fits c.frames) :
    Performs program cs c c x w (Delivers program c b r) := by
  have hx := h c cs w hip hl
  rwa [settle_stack, bind_pure] at hx

/-- A piece whose value goes nowhere else, behind other values on the stack. -/
theorem Does.run (h : Does program l a .stack r b x) (hl : l.Fits c.frames) :
    Performs program cs (c.plus a us) c x w fun v w' c' =>
      c' = c.plus b (us ++ r.received v) ∧ Shows program w' c r v := by
  refine (h.start (c := c.plus a us) rfl hl).of_plus.mono fun v w' c' ⟨hc, hs⟩ => ?_
  rw [Context.plus_plus] at hc
  exact ⟨hc, shows_plus.1 hs⟩

/-- A piece that starts with nothing more on the stack. -/
theorem Does.go (h : Does program l a dest r b x) (hl : l.Fits c.frames) :
    Performs program cs (c.plus a #[]) c (x >>= settle program c dest r) w
      (Delivers program c b r) := by
  refine (h (c.plus a #[]) cs w rfl hl).of_plus.mono fun v w' c' ⟨hc, hs⟩ => ?_
  rw [Context.plus_plus, Array.empty_append] at hc
  exact ⟨hc, shows_plus.1 hs⟩

theorem DoesAll.run {xs : Walk (List Value)} (h : DoesAll program l a b xs)
    (hl : l.Fits c.frames) :
    Performs program cs (c.plus a us) c xs w fun vs _ c' =>
      c' = c.plus b (us ++ vs.toArray) := by
  refine (h (c.plus a us) cs w rfl hl).of_plus.mono fun vs w' c' hc => ?_
  rwa [Context.plus_plus] at hc

/-! ### Values that are read in place -/

theorem Performs.inPlace (hr : r.isStack = false) (hs : Shows program w c r v) :
    Performs program cs c c (Walk.settle program c dest r v) w (Delivers program c c.ip r) := by
  have : Performs program cs (c.plus c.ip (r.received v)) c (Walk.settle program c dest r v) w _ :=
    settle hs
  rwa [Operand.received, hr, if_neg Bool.false_ne_true, Context.plus_self] at this

theorem Does.constant (h : program.pool.Constant r v) :
    Does program l base dest r base (pure v) := by
  rintro c cs w rfl hl
  rw [pure_bind]
  exact .inPlace h.isStack (shows_of_constant rfl h)

theorem Pool.Variable.isVariable {pool : Pool} {target : Ref} (h : pool.Variable target r) :
    r.isVariable := by
  cases target with
  | own slot | outer slot =>
    obtain rfl := h
    rfl
  | global name =>
    obtain ⟨i, rfl, -⟩ := h
    rfl

/-- A variable of a walk is a variable of the machine. -/
theorem World.look_of_read {w : World} {target : Ref} (hr : program.pool.Variable target r)
    (hl : l.Fits c.frames) (h : w.read? l target = some v) : w.look program c r = some v := by
  cases target with
  | own slot =>
    obtain rfl := hr
    show w.slot? (c.frames.at? 0) _ = _
    rw [hl.own]
    exact h
  | outer slot =>
    obtain rfl := hr
    obtain ⟨id, hid, hslot⟩ := Option.bind_eq_some_iff.1 h
    show w.slot? (c.frames.at? 1) _ = _
    rw [hl.outer id hid]
    exact hslot
  | global name =>
    obtain ⟨i, rfl, hi⟩ := hr
    have hname : program.name? ⟨.global, i⟩ = some name :=
      Program.name?_eq_some.2 ((Action.at?_natCast _ _).trans hi)
    rw [World.look]
    dsimp only
    rw [hname]
    exact h

theorem World.put_of_write {w w' : World} {target : Ref}
    (hr : program.pool.Variable target r) (hl : l.Fits c.frames)
    (h : w.write? l target v = some w') : w.put? program c r v = some w' := by
  cases target with
  | own slot =>
    obtain rfl := hr
    show w.setSlot? (c.frames.at? 0) _ v = _
    rw [hl.own]
    exact h
  | outer slot =>
    obtain rfl := hr
    obtain ⟨id, hid, hslot⟩ := Option.bind_eq_some_iff.1 h
    show w.setSlot? (c.frames.at? 1) _ v = _
    rw [hl.outer id hid]
    exact hslot
  | global name =>
    obtain ⟨i, rfl, hi⟩ := hr
    have hname : program.name? ⟨.global, i⟩ = some name :=
      Program.name?_eq_some.2 ((Action.at?_natCast _ _).trans hi)
    rw [World.put?]
    dsimp only
    rw [hname]
    exact h

theorem Walk.read_apply {target : Ref} : read l target w = match w.read? l target with
    | some v => .ok v w
    | none => .error .fatal w := by
  unfold read
  rw [Walk.get_bind]
  cases w.read? l target <;> rfl

theorem Does.ref {target : Ref} (h : program.pool.Variable target r) :
    Does program l base dest r base (read l target) := by
  rintro c cs w rfl hl
  have hread : read l target w = _ := read_apply
  cases hv : w.read? l target with
  | none =>
    rw [hv] at hread
    exact .fatal (bind_of_error hread)
  | some v =>
    rw [hv] at hread
    have hsettle : Performs program cs c c (settle program c dest r v) w _ :=
      .inPlace h.isStack (.inr (World.look_of_read h hl hv))
    unfold Performs at hsettle ⊢
    rwa [bind_of_ok hread]

/-! ### Assignments -/

/-- The machine may have stored the value before it is assigned. -/
theorem Walk.assign_refines {target : Ref} {home : Operand}
    (hr : program.pool.Variable target home) (hl : l.Fits c.frames) :
    (do let v ← x; change fun w => w.write? l target v; return v : Walk Value) w =
        (x >>= settle program c home r >>= put program c home) w ∨
      ∃ w', (do let v ← x; change fun w => w.write? l target v; return v : Walk Value) w =
        .error .fatal w' := by
  rw [bind_assoc]
  cases hx : x w with
  | error s w' => exact .inl ((bind_of_error hx).trans (bind_of_error hx).symm)
  | ok v w₁ =>
    rw [bind_of_ok hx, bind_of_ok hx]
    have hchange := change_apply (w := w₁) fun w => w.write? l target v
    cases hw : w₁.write? l target v with
    | none =>
      rw [hw] at hchange
      exact .inr ⟨w₁, bind_of_error hchange⟩
    | some w' =>
      rw [hw] at hchange
      refine .inl ((bind_of_ok hchange).trans ?_)
      have hput := World.put_of_write hr hl hw
      have hput₁ : put program c home v w₁ = .ok v w' := by
        rw [put_apply, hput]
      unfold settle
      split
      · have hvar := hr.isVariable
        have hput₂ : put program c home v w' =
            .ok v w' := by
          rw [put_apply, World.put?_look hvar (World.look_put hvar hput)]
        rw [bind_of_ok hput₁, hput₂]
        rfl
      · rw [pure_bind, hput₁]
        rfl

theorem Does.assign {target : Ref} {home : Operand} (hr : program.pool.Variable target home)
    (hx : Does program l base home r a x) (hcarry : program.Carries r home a stop) :
    Does program l base dest home stop
      (do let v ← x; change fun w => w.write? l target v; return v) := by
  intro c cs w hip hl
  have hstored : Performs program cs c c (x >>= settle program c home r >>= put program c home) w
      (Delivers program c stop home) :=
    (hx c cs w hip hl).bind fun v w' c' _ ⟨hc, hs⟩ => hc ▸ .carry hcarry hs
  exact (hstored.refine_walk (assign_refines hr hl)).bind fun v w' c' _ ⟨hc, hs⟩ =>
    hc ▸ .settle hs

/-! ### Operations -/

theorem Does.unary {f : Value → Value} (hx : Does program l base .stack r a x)
    (hi : program.instruction? a = some ⟨op, dest, r, .unused⟩) (he : op.effect = .unary f) :
    Does program l base dest dest (a + 1) (do return f (← x)) := by
  intro c cs w hip hl
  rw [bind_assoc]
  refine (hx.start hip hl).bind fun v w₁ c₁ _ ⟨hc, hs⟩ => ?_
  rw [pure_bind, settle_self, hc]
  exact .unary hs hi he

/-- What a pinned operand shows is not changed by what runs before it is read. -/
structure Keeps (r r' : Operand) (y : Walk Value) : Prop where
  eq : r' = r ∨ r' = .stack
  still : r'.isVariable → ∀ {w v w'}, y w = .ok v w' → w' = w

theorem Does.binary {f : Value → Value → Value}
    (hx : Does program l base .stack lr a x) (hc : program.Carries lr r' a b)
    (hk : Keeps lr r' y) (hy : Does program l b .stack rr d y)
    (hi : program.instruction? d = some ⟨op, dest, r', rr⟩) (he : op.effect = .binary f) :
    Does program l base dest dest (d + 1) (do
      let u ← x
      let v ← y
      return f u v) := by
  intro c cs w hip hl
  rw [bind_assoc]
  refine (hx.start hip hl).bind fun u w₁ c₁ _ ⟨hc₁, hu⟩ => ?_
  rw [hc₁, ← @Array.empty_append _ (lr.received u)]
  refine .pinned hc hk.eq hu fun hu => ?_
  rw [bind_assoc]
  refine (hy.run hl).bind fun v w₂ c₂ hyw ⟨hc₂, hv⟩ => ?_
  rw [pure_bind, settle_self, hc₂, Array.empty_append]
  exact .binary (hu.still fun hvar => by rw [hk.still hvar hyw]) hv hi he

theorem Does.slice {tr ar br tr' ar' : Operand} {a b d e f : Nat}
    (hx : Does program l base .stack tr a x) (hc : program.Carries tr tr' a b)
    (hk : Keeps tr tr' y) (hk' : Keeps tr tr' z)
    (hy : Does program l b .stack ar d y) (hc' : program.Carries ar ar' d e)
    (hkz : Keeps ar ar' z) (hz : Does program l e .stack br f z)
    (hi : program.instruction? f = some ⟨.slice, tr', ar', br⟩) :
    Does program l base dest .stack (f + 1) (do
      let u ← x
      let v ← y
      let t ← z
      return u.slice v t) := by
  intro c cs w hip hl
  rw [settle_of_stack, bind_pure]
  refine (hx.start hip hl).bind fun u w₁ c₁ _ ⟨hc₁, hu⟩ => ?_
  rw [hc₁, ← @Array.empty_append _ (tr.received u)]
  refine .pinned hc hk.eq hu fun hu => ?_
  refine (hy.run hl).bind fun v w₂ c₂ hyw ⟨hc₂, hv⟩ => ?_
  rw [hc₂, Array.empty_append]
  refine .pinned hc' hkz.eq hv fun hv => ?_
  refine (hz.run hl).bind fun t w₃ c₃ hzw ⟨hc₃, ht⟩ => ?_
  rw [hc₃]
  refine .slice ?_ (hv.still fun hvar => by rw [hkz.still hvar hzw]) ht hi
  exact hu.still fun hvar => by rw [hk'.still hvar hzw, hk.still hvar hyw]

/-- A piece whose value goes on to its destination. -/
theorem Does.carried (hx : Does program l base .stack r a x)
    (hc : program.Carries r dest a b) : Does program l base dest dest b x := by
  intro c cs w hip hl
  rw [settle_self]
  exact (hx.start hip hl).bind fun v w₁ c₁ _ ⟨hc₁, hs⟩ => hc₁ ▸ .carry hc hs

/-! ### Blocks -/

theorem Performs.drop {α : Type} {x : Walk α} {post : α → World → Context → Prop}
    (hd : program.Drops r a b) (h : Performs program cs (c.plus b us) c x w post) :
    Performs program cs (c.plus a (us ++ r.received v)) c x w post := by
  unfold Program.Drops at hd
  split at hd
  · next hr =>
    obtain ⟨hi, rfl⟩ := hd
    refine h.of_leads (.step (y := fun _ => discard Action.pop) hi (fun _ => rfl)
      fun limits m hm => ?_)
    rw [Operand.received, if_pos hr, Context.moved_plus] at *
    have hback : (c.plus (a + 1) (us ++ #[v])).stack.back? = some v := by
      show (c.stack ++ (us ++ #[v])).back? = some v
      rw [← Array.append_assoc, Array.append_singleton, Array.back?_push]
    have hreach : Action.Reaches limits (c.plus (a + 1) (us ++ #[v])) _ m _ cs w :=
      Action.pop_at hm hback
    have hcut : (c.plus (a + 1) (us ++ #[v])).swap 1 #[] = c.plus (a + 1) (us ++ #[]) :=
      Context.swap_plus_append rfl
    rw [hcut, Array.append_empty] at hreach
    exact hreach
  · next hr =>
    subst hd
    rwa [Operand.received, if_neg hr, Array.append_empty]

theorem Does.andThen (hx : Does program l base .stack r a x) (hd : program.Drops r a b)
    (hy : Does program l b dest r' stop y) :
    Does program l base dest r' stop (do let _ ← x; y) := by
  intro c cs w hip hl
  rw [bind_assoc]
  refine (hx.start hip hl).bind fun v w₁ c₁ _ ⟨hc₁, _⟩ => ?_
  rw [hc₁, ← @Array.empty_append _ (r.received v)]
  exact .drop hd (hy.go hl)

/-! ### Branches and loops -/

namespace Performs

variable {α : Type} {x : Walk α} {post : α → World → Context → Prop} {t : Nat} {o : Operand}

theorem jump (hi : program.instruction? ip = some ⟨.jump, o, .unused, .unused⟩)
    (ho : program.Leaps ip o t) (h : Performs program cs (c.plus t us) c x w post) :
    Performs program cs (c.plus ip us) c x w post := by
  obtain ⟨hin, rfl⟩ := ho
  refine h.of_leads (.step (y := fun _ => do Action.goto (← Action.target program ip o)) hi
    (fun limits => ?_) fun limits m hm => ?_)
  · show (do Action.goto (← Action.target program ip o); return Flow.next) = _
    rw [bind_assoc]
  · have hreach : Action.Reaches limits _ _ m _ cs w := Action.jump_at hm hin
    rwa [Context.moved_plus, Context.moved_plus] at hreach

/-- A test goes on behind it, or jumps if it fails. -/
theorem test {q : Bool} (hi : program.instruction? ip = some ⟨.jumpIfFalse, o, r, .unused⟩)
    (ho : program.Leaps ip o t) (hs : Shows program w c r (.bool q))
    (h : Performs program cs (c.plus (if q then ip + 1 else t) us) c x w post) :
    Performs program cs (c.plus ip (us ++ r.received (.bool q))) c x w post := by
  obtain ⟨hin, rfl⟩ := ho
  refine h.of_leads (.step (y := fun _ => Action.jumpIfFalse program ip _) hi (fun _ => rfl)
    fun limits m hm => ?_)
  have hreach : Action.Reaches limits _ _ m _ cs w :=
    Action.jumpIfFalse_at (i := ⟨.jumpIfFalse, o, r, .unused⟩) hm hin (hs.look (ip + 1) us)
  cases q with
  | true =>
    rw [if_pos rfl, Context.moved_plus,
      Context.swap_plus_append (Operand.size_received r _).symm, Array.append_empty] at hreach
    exact hreach
  | false =>
    rw [if_neg Bool.false_ne_true, Context.moved_plus, Context.moved_plus,
      Context.swap_plus_append (Operand.size_received r _).symm, Array.append_empty] at hreach
    exact hreach

end Performs

theorem Walk.truth_of_ne {v : Value} (h : ∀ q, v ≠ .bool q) : truth v w = .error .fatal w := by
  unfold truth
  split
  · next q => exact absurd rfl (h q)
  · rfl

theorem Does.cond {cr o o' : Operand} (hx : Does program l base .stack cr a x)
    (ha : program.instruction? a = some ⟨.jumpIfFalse, o, cr, .unused⟩)
    (ho : program.Leaps a o (b + 1)) (hy : Does program l (a + 1) .stack .stack b y)
    (hb : program.instruction? b = some ⟨.jump, o', .unused, .unused⟩)
    (ho' : program.Leaps b o' stop) (hz : Does program l (b + 1) .stack .stack stop z) :
    Does program l base dest .stack stop (do if ← truth (← x) then y else z) := by
  intro c cs w hip hl
  rw [settle_of_stack, bind_pure]
  refine (hx.start hip hl).bind fun v w₁ c₁ _ ⟨hc₁, hs⟩ => ?_
  by_cases hv : ∃ q, v = .bool q
  · obtain ⟨q, rfl⟩ := hv
    show Performs program cs c₁ c (pure q >>= _) w₁ _
    rw [pure_bind, hc₁, ← @Array.empty_append _ (cr.received _)]
    refine .test ha ho hs ?_
    cases q with
    | true =>
      rw [if_pos rfl, ← bind_pure y]
      refine (hy.run hl).bind fun v w₂ c₂ _ ⟨hc₂, _⟩ => ?_
      rw [hc₂, Array.empty_append]
      exact .jump hb ho' (.pure ⟨rfl, .inl rfl⟩)
    | false =>
      rw [if_neg Bool.false_ne_true]
      refine (hz.run hl).mono fun v w₂ c₂ ⟨hc₂, hs⟩ => ?_
      rw [Array.empty_append] at hc₂
      exact ⟨hc₂, hs⟩
  · exact .fatal (bind_of_error (truth_of_ne fun q hq => hv ⟨q, hq⟩))

/-- A loop that stands at its test, with the value of the last pass on the stack. -/
theorem Performs.loop {cr o o' : Operand}
    (hx : Does program l (base + 1) .stack cr a x)
    (ha : program.instruction? a = some ⟨.jumpIfFalse, o, cr, .unused⟩)
    (ho : program.Leaps a o stop) (hpop : program.instruction? (a + 1) = some (.bare .pop))
    (hy : Does program l (a + 2) .stack .stack b y)
    (hb : program.instruction? b = some ⟨.jump, o', .unused, .unused⟩)
    (ho' : program.Leaps b o' (base + 1)) (hl : l.Fits c.frames) (fuel : Nat) :
    ∀ {last : Value} {w : World}, Performs program cs (c.plus (base + 1) #[last]) c
      (whileTrue x y fuel last) w (Delivers program c stop .stack) := by
  induction fuel with
  | zero =>
    intro last w
    trivial
  | succ fuel ih =>
    intro last w
    rw [whileTrue]
    refine (hx.run hl).bind fun v w₁ c₁ _ ⟨hc₁, hs⟩ => ?_
    by_cases hv : ∃ q, v = .bool q
    · obtain ⟨q, rfl⟩ := hv
      show Performs program cs c₁ c (Pure.pure q >>= _) w₁ _
      rw [pure_bind, hc₁]
      refine .test ha ho hs ?_
      cases q with
      | true =>
        rw [if_pos rfl]
        have hdrop : program.Drops .stack (a + 1) (a + 2) := ⟨hpop, rfl⟩
        show Performs program cs (c.plus (a + 1) (#[] ++ Operand.stack.received last)) c _ _ _
        refine .drop hdrop ?_
        refine (hy.run hl).bind fun v w₂ c₂ _ ⟨hc₂, _⟩ => ?_
        rw [hc₂]
        exact .jump hb ho' ih
      | false =>
        rw [if_neg Bool.false_ne_true]
        exact .pure ⟨rfl, .inl rfl⟩
    · exact .fatal (bind_of_error (truth_of_ne fun q hq => hv ⟨q, hq⟩))

theorem Does.loop {nil cr o o' : Operand} (hnil : program.pool.Constant nil .nil)
    (hi : program.instruction? base = some ⟨.move, .stack, nil, .unused⟩)
    (hx : Does program l (base + 1) .stack cr a x)
    (ha : program.instruction? a = some ⟨.jumpIfFalse, o, cr, .unused⟩)
    (ho : program.Leaps a o stop) (hpop : program.instruction? (a + 1) = some (.bare .pop))
    (hy : Does program l (a + 2) .stack .stack b y)
    (hb : program.instruction? b = some ⟨.jump, o', .unused, .unused⟩)
    (ho' : program.Leaps b o' (base + 1)) (fuel : Nat) :
    Does program l base dest .stack stop (whileTrue x y fuel .nil) := by
  intro c cs w hip hl
  rw [settle_of_stack, bind_pure]
  have hcarry : program.Carries nil .stack base (base + 1) := by
    rw [Program.Carries, if_neg]
    · exact ⟨hi, rfl⟩
    · rintro rfl
      cases hnil.isStack
  have hstart : Performs program cs c c (pure .nil) w (Delivers program c (base + 1) .stack) :=
    ((Does.constant hnil).carried hcarry).start hip hl
  have : Performs program cs c c (pure Value.nil >>= fun _ => whileTrue x y fuel .nil) w
      (Delivers program c stop .stack) := by
    apply hstart.bind
    rintro v w₁ c₁ hv ⟨hc₁, _⟩
    cases hv
    rw [hc₁]
    exact .loop hx ha ho hpop hy hb ho' hl fuel
  rwa [pure_bind] at this

end

end YieldMachine
