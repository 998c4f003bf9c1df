import YieldMachine.Proofs.Machine.Effect

/-!
# Machines side by side

Two machines are twins when they differ in nothing but their journals, and two programs
when their instructions differ in nothing but the numbers of constants. What one does,
its twin does too. The twin may have more room: then only a fault for lack of room in
the first, one of those that `T` gives up, sets them apart.

    Tracks T x y m m'   the action `y` leads from `m'` to the twin of where `x` leads from `m`
-/

namespace YieldMachine

/-! ## Twins -/

/-- The machines differ in nothing but their journals. -/
def Machine.Twin (m m' : Machine) : Prop :=
  ∃ journal, m' = { m with journal }

/-- Is the address of an operand the number of a constant? -/
def Operand.isPooled (o : Operand) : Bool :=
  match o.mode with
  | .global | .data => true
  | _ => false

/-- The operand of `p` and that of `q` name the same. -/
structure Operand.Twin (p q : Program) (o o' : Operand) : Prop where
  mode : o'.mode = o.mode
  constant : o.isPooled →
    Action.at? q.pool.constants o'.address = Action.at? p.pool.constants o.address
  address : o'.address = o.address ∨ o.isPooled ∧ p.Readable o

/-- The addresses that an instruction takes as they are, whatever their modes. -/
def Instruction.numbers (i : Instruction) : List Int :=
  match i.effect with
  | .makeArray => [i.b.address]
  | .jump | .jumpIfFalse | .call => [i.a.address]
  | .spawn | .resume => [i.a.address, i.b.address]
  | .makeFunction => [i.a.address, i.b.address, i.c.address]
  | _ => []

/-- The instruction of `p` and that of `q` do the same. -/
structure Instruction.Twin (p q : Program) (i i' : Instruction) : Prop where
  opcode : i'.opcode = i.opcode
  a : i.a.Twin p q i'.a
  b : i.b.Twin p q i'.b
  c : i.c.Twin p q i'.c
  numbers : i'.numbers = i.numbers

/-- One limit after another, the second machine has as much room as the first, or more of it
where the first may fail for lack of it. -/
structure Limits.Room (T : Cause → Prop) (l l' : Limits) : Prop where
  stack : l'.maxStack = l.maxStack ∨
    l.maxStack ≤ l'.maxStack ∧ T (.stackOverflow l.maxStack)
  calls : l'.maxCalls = l.maxCalls ∨
    l.maxCalls ≤ l'.maxCalls ∧ T (.frameOverflow l.maxCalls)
  contexts : l'.maxContexts = l.maxContexts ∨
    l.maxContexts ≤ l'.maxContexts ∧ T (.contextOverflow l.maxContexts)

/-- Where `x` leads from one machine, `y` leads from the other to a twin; but `x` may give up. -/
def Action.Tracks {α : Type} (T : Cause → Prop) (x y : Action α) (m m' : Machine) : Prop :=
  match x m with
  | .ok a n => ∃ n', y m' = .ok a n' ∧ n.Twin n'
  | .error cause n => T cause ∨ ∃ n', y m' = .error cause n' ∧ n.Twin n'

theorem Machine.Twin.refl (m : Machine) : m.Twin m :=
  ⟨m.journal, rfl⟩

theorem Operand.Twin.refl (p : Program) (o : Operand) : o.Twin p p o :=
  ⟨rfl, fun _ => rfl, .inl rfl⟩

theorem Instruction.Twin.refl (p : Program) (i : Instruction) : i.Twin p p i :=
  ⟨rfl, .refl p _, .refl p _, .refl p _, rfl⟩

namespace Action

variable {T : Cause → Prop} {α β : Type} {x y : Action α} {f g : α → Action β} {m m' n : Machine}
  {p q : Program} {l l' : Limits} {o o' : Operand} {v : Value} {i i' : Instruction}

/-! ## Composing -/

theorem Tracks.bind (hx : Tracks T x y m m')
    (hf : ∀ a n n', n.Twin n' → Tracks T (f a) (g a) n n') : Tracks T (x >>= f) (y >>= g) m m' := by
  unfold Tracks at hx ⊢
  show match EStateM.bind x f m with
    | .ok b n => ∃ n', EStateM.bind y g m' = .ok b n' ∧ n.Twin n'
    | .error cause n => T cause ∨ ∃ n', EStateM.bind y g m' = .error cause n' ∧ n.Twin n'
  unfold EStateM.bind
  cases hxm : x m with
  | ok a n =>
    rw [hxm] at hx
    obtain ⟨n', hy, hn⟩ := hx
    rw [hy]
    exact hf a n n' hn
  | error cause n =>
    rw [hxm] at hx
    obtain hgone | ⟨n', hy, hn⟩ := hx
    · exact .inl hgone
    · rw [hy]
      exact .inr ⟨n', rfl, hn⟩

theorem Tracks.get {f g : Machine → Action β} (h : Tracks T (f m) (g m') m m') :
    Tracks T (MonadState.get >>= f) (MonadState.get >>= g) m m' :=
  h

theorem tracks_pure (a : α) (hm : m.Twin m') : Tracks T (pure a) (pure a) m m' :=
  ⟨m', rfl, hm⟩

theorem tracks_throw (cause : Cause) (hm : m.Twin m') :
    Tracks T (throw cause : Action α) (throw cause) m m' :=
  .inr ⟨m', rfl, hm⟩

theorem tracks_modify {f g : Machine → Machine} (h : (f m).Twin (g m')) :
    Tracks T (modify f) (modify g) m m' :=
  ⟨g m', rfl, h⟩

theorem tracks_set {s s' : Machine} (h : s.Twin s') : Tracks T (set s) (set s') m m' :=
  ⟨s', rfl, h⟩

/-- A fault for lack of room is given up where the second machine has more room. -/
theorem tracks_guard {n limit limit' : Nat} {overflow : Nat → Cause} (hm : m.Twin m')
    (hroom : limit' = limit ∨ limit ≤ limit' ∧ T (overflow limit))
    (hx : n < limit → Tracks T x y m m') :
    Tracks T (if limit ≤ n then throw (overflow limit) else x)
      (if limit' ≤ n then throw (overflow limit') else y) m m' := by
  obtain rfl | ⟨hle, hgone⟩ := hroom
  · split
    · exact tracks_throw _ hm
    · exact hx (by omega)
  · split
    · exact .inl hgone
    · rw [if_neg (by omega)]
      exact hx (by omega)

/-! ## The operand stack -/

theorem record_tracks (e : Event) (hm : m.Twin m') : Tracks T (record e) (record e) m m' := by
  obtain ⟨j, rfl⟩ := hm
  exact tracks_modify ⟨_, rfl⟩

theorem goto_tracks (ip : Nat) (hm : m.Twin m') : Tracks T (goto ip) (goto ip) m m' := by
  obtain ⟨j, rfl⟩ := hm
  exact tracks_modify ⟨j, rfl⟩

theorem truncate_tracks (height : Nat) (hm : m.Twin m') :
    Tracks T (truncate height) (truncate height) m m' := by
  obtain ⟨j, rfl⟩ := hm
  exact tracks_modify ⟨j, rfl⟩

theorem push_tracks (hroom : l.Room T l') (v : Value) (hm : m.Twin m') :
    Tracks T (push l v) (push l' v) m m' := by
  obtain ⟨j, rfl⟩ := hm
  refine Tracks.get ?_
  exact tracks_guard ⟨j, rfl⟩ hroom.stack fun _ => tracks_set ⟨j, rfl⟩

theorem pop_tracks (hm : m.Twin m') : Tracks T pop pop m m' := by
  obtain ⟨j, rfl⟩ := hm
  refine Tracks.get ?_
  dsimp only
  cases m.active.stack.back? with
  | none => exact tracks_throw _ ⟨j, rfl⟩
  | some v => exact (tracks_set ⟨j, rfl⟩).bind fun _ _ _ hm => tracks_pure _ hm

/-! ## Operands -/

theorem globalName_tracks (ho : o.Twin p q o') (hmode : o.mode = .global) (hm : m.Twin m') :
    Tracks T (globalName p o.address) (globalName q o'.address) m m' := by
  have hpooled : o.isPooled := by rw [Operand.isPooled, hmode]
  unfold globalName
  rw [ho.constant hpooled]
  split
  · exact tracks_pure _ hm
  · next v hne hv =>
    obtain heq | ⟨-, hread⟩ := ho.address
    · rw [heq]
      exact tracks_throw _ hm
    · rw [Program.Readable, hmode] at hread
      obtain ⟨name, hname⟩ := hread
      cases hv.symm.trans hname
      exact absurd rfl (hne name)
  · next hnone =>
    obtain heq | ⟨-, hread⟩ := ho.address
    · rw [heq]
      exact tracks_throw _ hm
    · rw [Program.Readable, hmode] at hread
      obtain ⟨name, hname⟩ := hread
      cases hnone.symm.trans hname

theorem frameAt_tracks (depth : Nat) (hm : m.Twin m') :
    Tracks T (frameAt depth) (frameAt depth) m m' := by
  obtain ⟨j, rfl⟩ := hm
  refine Tracks.get ?_
  dsimp only
  cases m.active.frames.at? depth with
  | none => exact tracks_throw _ ⟨j, rfl⟩
  | some id => exact tracks_pure _ ⟨j, rfl⟩

theorem readSlot_tracks (depth : Nat) (slot : Int) (hm : m.Twin m') :
    Tracks T (readSlot depth slot) (readSlot depth slot) m m' := by
  refine (frameAt_tracks depth hm).bind ?_
  rintro id m _ ⟨j, rfl⟩
  refine Tracks.get ?_
  dsimp only
  cases at? (m.heap.frame id) slot with
  | none => exact tracks_throw _ ⟨j, rfl⟩
  | some v => exact tracks_pure _ ⟨j, rfl⟩

theorem writeSlot_tracks (depth : Nat) (slot : Int) (v : Value) (hm : m.Twin m') :
    Tracks T (writeSlot depth slot v) (writeSlot depth slot v) m m' := by
  refine (frameAt_tracks depth hm).bind ?_
  rintro id m _ ⟨j, rfl⟩
  refine Tracks.get ?_
  dsimp only
  split
  · exact tracks_modify ⟨j, rfl⟩
  · exact tracks_throw _ ⟨j, rfl⟩

theorem Operand.Twin.address_eq (ho : o.Twin p q o') (h : o.isPooled = false) :
    o'.address = o.address :=
  ho.address.resolve_right fun hread => by simp [h] at hread

theorem fetch_tracks (ho : o.Twin p q o') (hm : m.Twin m') :
    Tracks T (fetch p o) (fetch q o') m m' := by
  have hfixed := Operand.Twin.address_eq ho
  have hname : o.mode = .global →
      Tracks T (globalName p o.address) (globalName q o'.address) m m' :=
    fun hmode => globalName_tracks ho hmode hm
  obtain ⟨mode, address⟩ := o
  obtain ⟨mode', address'⟩ := o'
  obtain rfl : mode' = mode := ho.mode
  cases mode' with
  | immediate =>
    obtain rfl : address' = address := hfixed rfl
    exact tracks_pure _ hm
  | global =>
    refine (hname rfl).bind ?_
    rintro name n _ ⟨j, rfl⟩
    exact Tracks.get (tracks_pure _ ⟨j, rfl⟩)
  | frame =>
    obtain rfl : address' = address := hfixed rfl
    exact readSlot_tracks 0 _ hm
  | closure =>
    obtain rfl : address' = address := hfixed rfl
    exact readSlot_tracks 1 _ hm
  | stack => exact pop_tracks hm
  | data =>
    simp only [fetch]
    rw [show at? q.pool.constants address' = at? p.pool.constants address from ho.constant rfl]
    cases hv : at? p.pool.constants address with
    | some v => exact tracks_pure _ hm
    | none =>
      obtain heq | ⟨-, v, hread, -⟩ := ho.address
      · obtain rfl : address' = address := heq
        exact tracks_throw _ hm
      · cases hv.symm.trans hread

theorem store_tracks (hroom : l.Room T l') (ho : o.Twin p q o') (v : Value) (hm : m.Twin m') :
    Tracks T (store p l o v) (store q l' o' v) m m' := by
  have hfixed := Operand.Twin.address_eq ho
  have hname : o.mode = .global →
      Tracks T (globalName p o.address) (globalName q o'.address) m m' :=
    fun hmode => globalName_tracks ho hmode hm
  obtain ⟨mode, address⟩ := o
  obtain ⟨mode', address'⟩ := o'
  obtain rfl : mode' = mode := ho.mode
  cases mode' with
  | immediate | data => exact tracks_throw _ hm
  | global =>
    refine (hname rfl).bind ?_
    rintro name n _ ⟨j, rfl⟩
    exact tracks_modify ⟨j, rfl⟩
  | frame =>
    obtain rfl : address' = address := hfixed rfl
    exact writeSlot_tracks 0 _ v hm
  | closure =>
    obtain rfl : address' = address := hfixed rfl
    exact writeSlot_tracks 1 _ v hm
  | stack => exact push_tracks hroom v hm

theorem target_tracks (ip : Nat) (hsize : q.code.size = p.code.size)
    (ha : o'.address = o.address) (hm : m.Twin m') :
    Tracks T (target p ip o) (target q ip o') m m' := by
  unfold target
  rw [ha, hsize]
  dsimp only
  split
  · exact tracks_pure _ hm
  · exact tracks_throw _ hm

/-! ## Instructions -/

theorem unary_tracks (hroom : l.Room T l') (hi : i.Twin p q i') (f : Value → Value)
    (hm : m.Twin m') : Tracks T (unary p l i f) (unary q l' i' f) m m' :=
  (fetch_tracks hi.b hm).bind fun _ _ _ hm => store_tracks hroom hi.a _ hm

theorem binary_tracks (hroom : l.Room T l') (hi : i.Twin p q i') (f : Value → Value → Value)
    (hm : m.Twin m') : Tracks T (binary p l i f) (binary q l' i' f) m m' :=
  (fetch_tracks hi.c hm).bind fun _ _ _ hm => (fetch_tracks hi.b hm).bind fun _ _ _ hm =>
    store_tracks hroom hi.a _ hm

theorem slice_tracks (hroom : l.Room T l') (hi : i.Twin p q i') (hm : m.Twin m') :
    Tracks T (slice p l i) (slice q l' i') m m' :=
  (fetch_tracks hi.c hm).bind fun _ _ _ hm => (fetch_tracks hi.b hm).bind fun _ _ _ hm =>
    (fetch_tracks hi.a hm).bind fun _ _ _ hm => push_tracks hroom _ hm

theorem makeArray_tracks (hroom : l.Room T l') (hi : i.Twin p q i')
    (hb : i'.b.address = i.b.address) (hm : m.Twin m') :
    Tracks T (makeArray p l i) (makeArray q l' i') m m' := by
  obtain ⟨j, rfl⟩ := hm
  refine Tracks.get ?_
  dsimp only
  rw [hb]
  split
  · exact (truncate_tracks _ ⟨j, rfl⟩).bind fun _ _ _ hm => store_tracks hroom hi.a _ hm
  · exact tracks_throw _ ⟨j, rfl⟩

theorem jump_tracks (ip : Nat) (hsize : q.code.size = p.code.size)
    (ha : o'.address = o.address) (hm : m.Twin m') :
    Tracks T (do goto (← target p ip o)) (do goto (← target q ip o')) m m' :=
  (target_tracks ip hsize ha hm).bind fun _ _ _ hm => goto_tracks _ hm

theorem jumpIfFalse_tracks (ip : Nat) (hsize : q.code.size = p.code.size) (hi : i.Twin p q i')
    (ha : i'.a.address = i.a.address) (hm : m.Twin m') :
    Tracks T (jumpIfFalse p ip i) (jumpIfFalse q ip i') m m' := by
  refine (fetch_tracks hi.b hm).bind fun v n n' hn => ?_
  split
  · exact jump_tracks ip hsize ha hn
  · exact tracks_pure _ hn
  · exact tracks_throw _ hn

theorem readLine_tracks (hroom : l.Room T l') (hi : i.Twin p q i') (hm : m.Twin m') :
    Tracks T (readLine p l i) (readLine q l' i') m m' := by
  obtain ⟨j, rfl⟩ := hm
  refine @Tracks.bind T (Option String) Unit _ _ _ _ m { m with journal := j } ⟨_, rfl, j, rfl⟩ ?_
  exact fun line _ _ hm => store_tracks hroom hi.a _ hm

theorem write_tracks (hroom : l.Room T l') (hi : i.Twin p q i') (ending : String)
    (hm : m.Twin m') : Tracks T (write p l i ending) (write q l' i' ending) m m' := by
  refine (fetch_tracks hi.b hm).bind ?_
  rintro v n _ ⟨j, rfl⟩
  refine Tracks.bind (tracks_modify ⟨j, rfl⟩) ?_
  exact fun _ _ _ hm => store_tracks hroom hi.a _ hm

/-! ## Calls -/

theorem makeFunction_tracks (hroom : l.Room T l') (ip : Nat) (hsize : q.code.size = p.code.size)
    {a b c a' b' c' : Operand} (ha : a'.address = a.address) (hb : b'.address = b.address)
    (hc : c'.address = c.address) (hm : m.Twin m') :
    Tracks T (makeFunction p l ip a b c) (makeFunction q l' ip a' b' c') m m' := by
  refine (target_tracks ip hsize ha hm).bind ?_
  rintro start n _ ⟨j, rfl⟩
  refine Tracks.get ?_
  rw [hb, hc]
  exact push_tracks hroom _ ⟨j, rfl⟩

theorem refuse_tracks (hroom : l.Room T l') (base : Nat) (v : Value) (hm : m.Twin m') :
    Tracks T (refuse l base v) (refuse l' base v) m m' :=
  (truncate_tracks base hm).bind fun _ _ _ hm => push_tracks hroom v hm

theorem enter_tracks (f : Func) (base : Nat) (hm : m.Twin m') :
    Tracks T (enter f base) (enter f base) m m' := by
  obtain ⟨j, rfl⟩ := hm
  exact tracks_modify ⟨j, rfl⟩

theorem call_tracks (hroom : l.Room T l') {count count' : Operand}
    (hc : count'.address = count.address) (ho : o.Twin p q o') (hm : m.Twin m') :
    Tracks T (call p l count o) (call q l' count' o') m m' := by
  refine (fetch_tracks ho hm).bind ?_
  rintro callee n _ ⟨j, rfl⟩
  refine Tracks.get ?_
  dsimp only
  rw [hc]
  split
  · exact tracks_throw _ ⟨j, rfl⟩
  · cases callee with
    | function f =>
      dsimp only
      split
      · exact refuse_tracks hroom _ _ ⟨j, rfl⟩
      · refine Tracks.get ?_
        exact tracks_guard ⟨j, rfl⟩ hroom.calls fun _ => enter_tracks f _ ⟨j, rfl⟩
    | _ => exact refuse_tracks hroom _ _ ⟨j, rfl⟩

end Action

end YieldMachine
