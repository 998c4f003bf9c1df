import YieldMachine.Proofs.Compile.Code

/-!
# Effects of lowering

What it means that a step of lowering succeeds: a constant is in the pool that it leaves,
an operand that it gives has an address that fits, and a label is the distance that it
was asked for. A pool only ever grows, so all of this also holds of every later pool.

    Lowering.constant v b = .ok o b' → b.pool.Within b'.pool ∧
      Operand.fits o.address ∧ ∀ q, b'.pool.Within q → q.Constant o v
-/

namespace YieldMachine

/-! ## Effects -/

theorem estate_bind_eq_ok {ε σ α β : Type} {x : EStateM ε σ α} {f : α → EStateM ε σ β}
    {s s' : σ} {b : β} :
    (x >>= f) s = .ok b s' ↔ ∃ a s₁, x s = .ok a s₁ ∧ f a s₁ = .ok b s' := by
  show EStateM.bind x f s = _ ↔ _
  unfold EStateM.bind
  cases x s <;> simp

theorem estate_pure_eq_ok {ε σ α : Type} {s s' : σ} {a b : α} :
    (pure a : EStateM ε σ α) s = .ok b s' ↔ a = b ∧ s = s' := by
  show EStateM.Result.ok a s = _ ↔ _
  simp

/-- A function that gives `g a` for each `a`, with a state that only changes by `R`, maps
like `g`. -/
theorem estate_mapM_eq_ok {ε σ α β : Type} {f : α → EStateM ε σ β} {g : α → β} {P : α → Prop}
    {R : σ → σ → Prop} (refl : ∀ s, R s s) (trans : ∀ {r s t}, R r s → R s t → R r t)
    (hf : ∀ {a s b s'}, f a s = .ok b s' → b = g a ∧ P a ∧ R s s') :
    ∀ (xs : List α) {s s' : σ} {ys : List β}, xs.mapM f s = .ok ys s' →
      ys = xs.map g ∧ (∀ x ∈ xs, P x) ∧ R s s' := by
  intro xs
  induction xs with
  | nil =>
    intro s s' ys h
    rw [List.mapM_nil, estate_pure_eq_ok] at h
    obtain ⟨rfl, rfl⟩ := h
    exact ⟨rfl, by simp, refl s⟩
  | cons x xs ih =>
    intro s s' ys h
    rw [List.mapM_cons] at h
    simp only [estate_bind_eq_ok, estate_pure_eq_ok] at h
    obtain ⟨y, s₁, hy, zs, s₂, hzs, rfl, rfl⟩ := h
    obtain ⟨rfl, hp, hr⟩ := hf hy
    obtain ⟨rfl, hps, hrs⟩ := ih hzs
    exact ⟨rfl, List.forall_mem_cons.2 ⟨hp, hps⟩, trans hr hrs⟩

/-! ## Pools -/

/-- Every constant of `p` is a constant of `q`, with the same number. -/
def Pool.Within (p q : Pool) : Prop :=
  ∀ (i : Nat) (v : Value), p.constants[i]? = some v → q.constants[i]? = some v

theorem Pool.Within.refl (p : Pool) : p.Within p :=
  fun _ _ h => h

theorem Pool.Within.trans {p q r : Pool} (hpq : p.Within q) (hqr : q.Within r) : p.Within r :=
  fun i v h => hqr i v (hpq i v h)

theorem Value.key?_inj {v w : Value} {k : Key} (hv : v.key? = some k) (hw : w.key? = some k) :
    v = w := by
  have h : v.key? = w.key? := hv.trans hw.symm
  cases v <;> simp only [Value.key?, reduceCtorEq] at hv <;>
    cases w <;> simp only [Value.key?, reduceCtorEq] at hw <;>
    simp only [Value.key?, Option.some.injEq, reduceCtorEq, Key.int.injEq, Key.float.injEq,
      Key.bool.injEq, Key.string.injEq] at h
  case int.int => rw [h]
  case float.float => rw [Double.ext h]
  case bool.bool => rw [h]
  case string.string => rw [h]
  case nil.nil => rfl

theorem Literal.key?_value (l : Literal) : l.value.key?.isSome := by
  cases l <;> rfl

theorem Pool.add_spec (p : Pool) (v : Value) :
    p.Within (p.add v).2 ∧ (p.add v).2.constants[(p.add v).1]? = some v := by
  obtain ⟨constants, index, index_iff⟩ := p
  have hpush : ∀ (i : Nat) (w : Value), constants[i]? = some w →
      (constants.push v)[i]? = some w := by
    intro i w h
    have hlt : i < constants.size := by
      rcases Nat.lt_or_ge i constants.size with hi | hi
      · exact hi
      · rw [Array.getElem?_eq_none hi] at h
        cases h
    rw [Array.getElem?_push, if_neg (by omega), h]
  unfold Pool.add
  dsimp only
  split
  · exact ⟨hpush, by simp⟩
  · next key hv =>
    split
    · next i hk =>
      refine ⟨Pool.Within.refl _, ?_⟩
      have hb := (index_iff key i).1 hk
      cases hc : constants[i]? with
      | none => rw [hc] at hb; cases hb
      | some w =>
        rw [hc] at hb
        exact congrArg some (Value.key?_inj hb hv)
    · exact ⟨hpush, by simp⟩

/-! ## Operands -/

theorem Operand.checked_eq_ok {mode : Mode} {address : Int} {field : AddressField} {o : Operand}
    (h : Operand.checked mode address field = .ok o) : o = ⟨mode, address⟩ ∧ fits address := by
  unfold Operand.checked at h
  split at h
  · next hf =>
    cases h
    exact ⟨rfl, hf⟩
  · cases h

theorem Lowering.check_eq_ok {α : Type} {e : Except CompileError α} {a : α} {b b' : Workbench}
    (h : Lowering.check e b = .ok a b') : e = .ok a ∧ b' = b := by
  cases e with
  | ok x =>
    unfold Lowering.check at h
    rw [estate_pure_eq_ok] at h
    obtain ⟨rfl, rfl⟩ := h
    exact ⟨rfl, rfl⟩
  | error e => cases h

theorem Lowering.number_eq_ok {value : Int} {field : AddressField} {o : Operand} {b b' : Workbench}
    (h : Lowering.number value field b = .ok o b') :
    o = ⟨.immediate, value⟩ ∧ Operand.fits value ∧ b' = b := by
  obtain ⟨ho, rfl⟩ := Lowering.check_eq_ok h
  obtain ⟨rfl, hf⟩ := Operand.checked_eq_ok ho
  exact ⟨rfl, hf, rfl⟩

theorem Lowering.add_run (v : Value) (b : Workbench) :
    Lowering.add v b = .ok (b.pool.add v).1 ⟨(b.pool.add v).2, b.journal⟩ :=
  rfl

theorem Lowering.add_eq_ok {v : Value} {i : Nat} {b b' : Workbench}
    (h : Lowering.add v b = .ok i b') :
    b.pool.Within b'.pool ∧ b'.pool.constants[i]? = some v := by
  obtain ⟨pool, journal⟩ := b
  have hs := pool.add_spec v
  cases h
  exact hs

theorem Lowering.constant_eq_ok {v : Value} {o : Operand} {b b' : Workbench}
    (h : Lowering.constant v b = .ok o b') :
    b.pool.Within b'.pool ∧ Operand.fits o.address ∧ ∀ q, b'.pool.Within q → q.Constant o v := by
  unfold Lowering.constant at h
  simp only [estate_bind_eq_ok] at h
  obtain ⟨i, b₁, hi, ho⟩ := h
  obtain ⟨hw, hv⟩ := Lowering.add_eq_ok hi
  obtain ⟨hc, rfl⟩ := Lowering.check_eq_ok ho
  obtain ⟨rfl, hf⟩ := Operand.checked_eq_ok hc
  exact ⟨hw, hf, fun q hq => ⟨i, rfl, hq i v hv⟩⟩

theorem Lowering.variableOperand_eq_ok {ref : Ref} {o : Operand} {b b' : Workbench}
    (h : Lowering.variableOperand ref b = .ok o b') :
    b.pool.Within b'.pool ∧ Operand.fits o.address ∧
      ∀ q, b'.pool.Within q → q.Variable ref o := by
  cases ref with
  | own slot =>
    obtain ⟨ho, rfl⟩ := Lowering.check_eq_ok h
    obtain ⟨rfl, hf⟩ := Operand.checked_eq_ok ho
    exact ⟨Pool.Within.refl _, hf, fun q _ => rfl⟩
  | outer slot =>
    obtain ⟨ho, rfl⟩ := Lowering.check_eq_ok h
    obtain ⟨rfl, hf⟩ := Operand.checked_eq_ok ho
    exact ⟨Pool.Within.refl _, hf, fun q _ => rfl⟩
  | global name =>
    simp only [Lowering.variableOperand, estate_bind_eq_ok] at h
    obtain ⟨i, b₁, hi, ho⟩ := h
    obtain ⟨hw, hv⟩ := Lowering.add_eq_ok hi
    obtain ⟨hc, rfl⟩ := Lowering.check_eq_ok ho
    obtain ⟨rfl, hf⟩ := Operand.checked_eq_ok hc
    exact ⟨hw, hf, fun q hq => ⟨i, rfl, hq i _ hv⟩⟩

theorem Lowering.variables_eq_ok : ∀ (refs : List Ref) {os : List Operand} {b b' : Workbench},
    refs.mapM Lowering.variableOperand b = .ok os b' →
      b.pool.Within b'.pool ∧ (∀ o ∈ os, Operand.fits o.address) ∧
        ∀ q, b'.pool.Within q → List.Forall₂ q.Variable refs os := by
  intro refs
  induction refs with
  | nil =>
    intro os b b' h
    rw [List.mapM_nil, estate_pure_eq_ok] at h
    obtain ⟨rfl, rfl⟩ := h
    exact ⟨Pool.Within.refl _, by simp, fun q _ => .nil⟩
  | cons ref refs ih =>
    intro os b b' h
    rw [List.mapM_cons] at h
    simp only [estate_bind_eq_ok, estate_pure_eq_ok] at h
    obtain ⟨o, b₁, ho, os, b₂, hos, rfl, rfl⟩ := h
    obtain ⟨hw, hf, hv⟩ := Lowering.variableOperand_eq_ok ho
    obtain ⟨hws, hfs, hvs⟩ := ih hos
    refine ⟨hw.trans hws, ?_, fun q hq => .cons (hv q (hws.trans hq)) (hvs q hq)⟩
    intro x hx
    rcases List.mem_cons.1 hx with rfl | hx
    · exact hf
    · exact hfs x hx

theorem Lowering.forward_eq_ok {source target : Nat} {d : Int} {b b' : Workbench}
    (h : Lowering.forward source target b = .ok d b') :
    d = distance source target ∧ Operand.fits (distance source target) ∧ b'.pool = b.pool := by
  unfold Lowering.forward at h
  split at h
  · next hf =>
    cases h
    exact ⟨rfl, hf, rfl⟩
  · cases h

theorem distance_forward (source n : Nat) : distance source (source + 1 + n) = n := by
  unfold distance
  omega

theorem Lowering.forward_eq_nat {source target n : Nat} {d : Int} {b b' : Workbench}
    (h : Lowering.forward source target b = .ok d b') (ht : target = source + 1 + n) :
    d = n ∧ Operand.fits n ∧ b'.pool = b.pool := by
  obtain ⟨rfl, hf, hp⟩ := Lowering.forward_eq_ok h
  rw [ht, distance_forward] at hf ⊢
  exact ⟨rfl, hf, hp⟩

theorem Lowering.back_eq_nat {source target n : Nat} {field : AddressField} {o : Operand}
    {b b' : Workbench} (h : Lowering.number (distance source target) field b = .ok o b')
    (hs : source + 1 = target + n) :
    o = .jump (-(n : Int)) ∧ Operand.fits (-(n : Int)) ∧ b' = b := by
  obtain ⟨rfl, hf, rfl⟩ := Lowering.number_eq_ok h
  have hd : distance source target = -(n : Int) := by
    unfold distance
    omega
  rw [hd] at hf ⊢
  exact ⟨rfl, hf, rfl⟩

theorem Lowering.numbers_eq_ok {field : AddressField} (xs : List Nat) {os : List Operand}
    {b b' : Workbench} (h : xs.mapM (fun (i : Nat) => Lowering.number i field) b = .ok os b') :
    os = xs.map (fun (i : Nat) => ⟨.immediate, i⟩) ∧ (∀ i ∈ xs, Operand.fits i) ∧ b' = b :=
  estate_mapM_eq_ok (R := fun b b' : Workbench => b' = b) (fun _ => rfl)
    (fun h₁ h₂ => h₂.trans h₁) (fun h => Lowering.number_eq_ok h) xs h

theorem Lowering.forwards_eq_ok {α : Type} {source : α → Nat} {target : Nat} (xs : List α)
    {ds : List Int} {b b' : Workbench}
    (h : xs.mapM (fun x => Lowering.forward (source x) target) b = .ok ds b') :
    ds = xs.map (fun x => distance (source x) target) ∧
      (∀ x ∈ xs, Operand.fits (distance (source x) target)) ∧ b'.pool = b.pool :=
  estate_mapM_eq_ok (R := fun b b' : Workbench => b'.pool = b.pool) (fun _ => rfl)
    (fun h₁ h₂ => h₂.trans h₁) (fun h => Lowering.forward_eq_ok h) xs h

end YieldMachine
