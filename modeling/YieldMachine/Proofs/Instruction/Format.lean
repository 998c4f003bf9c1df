import YieldMachine.Proofs.Instruction.Packing

/-!
# The instruction format is exact

Words and instructions whose addresses fit correspond one to one: a word that is read
as an instruction is the one that packs it. A word that is read as none says which
field is at fault, the opcode before the modes and these in the order A, B, C.

    Instruction.decode w = .ok i ↔ i.Fits ∧ i.encode = w
-/

namespace YieldMachine

/-! ## Fields -/

/-- The seven bits of a word for the number of its opcode. -/
def Word.opcodeField (w : Word) : Nat :=
  w.toNat >>> 57

/-- The three bits of a word for the number of an operand's mode. -/
def Word.modeField (w : Word) (slot : Slot) : Nat :=
  w.toNat >>> slot.shift >>> 16 % 8

/-- The first fault of a word, if there is one: its opcode, then its modes in order. -/
def Word.fault? (w : Word) : Option DecodeError :=
  if 38 < w.opcodeField then some (.unknownOpcode w.opcodeField)
  else ([Slot.a, Slot.b, Slot.c].find? fun slot => 5 < w.modeField slot).map fun slot =>
    .unknownMode (w.modeField slot)

/-! ## Numbers of opcodes and modes -/

theorem Opcode.code_getElem : ∀ n : Fin 39, (Opcode.all[n]).code = n := by
  decide

theorem Mode.code_getElem : ∀ n : Fin 6, (Mode.all[n]).code = n := by
  decide

theorem Opcode.ofCode?_eq_some_iff {n : Nat} {op : Opcode} :
    Opcode.ofCode? n = some op ↔ op.code = n := by
  constructor
  · intro h
    obtain ⟨hlt, rfl⟩ := Array.getElem?_eq_some_iff.1 h
    exact Opcode.code_getElem ⟨n, hlt⟩
  · rintro rfl
    exact op.ofCode?_code

theorem Opcode.ofCode?_eq_none_iff {n : Nat} : Opcode.ofCode? n = none ↔ 38 < n :=
  Array.getElem?_eq_none_iff

theorem Mode.ofCode?_eq_some_iff {n : Nat} {mode : Mode} :
    Mode.ofCode? n = some mode ↔ mode.code = n := by
  constructor
  · intro h
    obtain ⟨hlt, rfl⟩ := Array.getElem?_eq_some_iff.1 h
    exact Mode.code_getElem ⟨n, hlt⟩
  · rintro rfl
    exact mode.ofCode?_code

theorem Mode.ofCode?_eq_none_iff {n : Nat} : Mode.ofCode? n = none ↔ 5 < n :=
  Array.getElem?_eq_none_iff

/-! ## Operands -/

/-- An operand is read from its nineteen bits and from nothing else. -/
theorem Operand.ofBits_eq_ok_iff {n : Nat} {o : Operand} :
    Operand.ofBits n = .ok o ↔ Operand.fits o.address ∧ o.bits = n % 0x80000 := by
  constructor
  · intro h
    unfold Operand.ofBits at h
    dsimp only at h
    split at h
    · next mode hmode =>
      cases h
      have hcode := Mode.ofCode?_eq_some_iff.1 hmode
      have hfits : Operand.fits (signed (n % 0x10000)) := by
        simp only [Operand.fits, Bool.and_eq_true, decide_eq_true_eq]
        unfold signed
        split <;> omega
      have haddress : (signed (n % 0x10000) % 0x10000).toNat = n % 0x10000 := by
        unfold signed
        split <;> omega
      refine ⟨hfits, ?_⟩
      simp only [Operand.bits, hcode, haddress]
      omega
    · cases h
  · rintro ⟨hfits, hbits⟩
    have hn : n = (n / 0x80000) <<< 19 + o.bits := by omega
    rw [hn]
    exact Operand.ofBits_bits hfits _

theorem Operand.ofBits_eq_error_iff {n : Nat} {e : DecodeError} :
    Operand.ofBits n = .error e ↔ 5 < n >>> 16 % 8 ∧ e = .unknownMode (n >>> 16 % 8) := by
  unfold Operand.ofBits
  dsimp only
  split
  · next mode hmode =>
    have hlt := mode.code_lt
    rw [Mode.ofCode?_eq_some_iff.1 hmode] at hlt
    constructor
    · intro h
      cases h
    · intro h
      omega
  · next hmode =>
    have hgt := Mode.ofCode?_eq_none_iff.1 hmode
    constructor
    · intro h
      cases h
      exact ⟨hgt, rfl⟩
    · rintro ⟨-, rfl⟩
      rfl

/-! ## Instructions -/

/-- A word is read as an instruction field by field. -/
theorem Instruction.decode_eq_ok_iff {w : Word} {i : Instruction} :
    Instruction.decode w = .ok i ↔ i.opcode.code = w.opcodeField ∧
      Operand.ofBits (w.toNat >>> 38) = .ok i.a ∧ Operand.ofBits (w.toNat >>> 19) = .ok i.b ∧
      Operand.ofBits w.toNat = .ok i.c := by
  constructor
  · intro h
    unfold Instruction.decode at h
    dsimp only at h
    split at h
    · cases h
    · next opcode hop =>
      cases ha : Operand.ofBits (w.toNat >>> 38) with
      | error e => rw [ha] at h; cases h
      | ok a =>
        cases hb : Operand.ofBits (w.toNat >>> 19) with
        | error e => rw [ha, hb] at h; cases h
        | ok b =>
          cases hc : Operand.ofBits w.toNat with
          | error e => rw [ha, hb, hc] at h; cases h
          | ok c =>
            rw [ha, hb, hc] at h
            cases h
            exact ⟨Opcode.ofCode?_eq_some_iff.1 hop, rfl, rfl, rfl⟩
  · rintro ⟨hop, ha, hb, hc⟩
    exact Instruction.decode_eq_ok hop.symm ha hb hc

/-- A word that is read as an instruction is the one that packs it. -/
theorem Instruction.encode_of_decode {w : Word} {i : Instruction}
    (h : Instruction.decode w = .ok i) : i.Fits ∧ i.encode = w := by
  obtain ⟨hop, ha, hb, hc⟩ := Instruction.decode_eq_ok_iff.1 h
  obtain ⟨hfa, ha⟩ := Operand.ofBits_eq_ok_iff.1 ha
  obtain ⟨hfb, hb⟩ := Operand.ofBits_eq_ok_iff.1 hb
  obtain ⟨hfc, hc⟩ := Operand.ofBits_eq_ok_iff.1 hc
  refine ⟨⟨hfa, hfb, hfc⟩, UInt64.toNat_inj.1 ?_⟩
  rw [i.toNat_encode, hop, ha, hb, hc, Word.opcodeField]
  omega

/-- A slot of a word holds an operand, unless its mode is none. -/
theorem Word.ofBits_shift (w : Word) (slot : Slot) :
    (∃ o, Operand.ofBits (w.toNat >>> slot.shift) = .ok o ∧ ¬ 5 < w.modeField slot) ∨
      Operand.ofBits (w.toNat >>> slot.shift) = .error (.unknownMode (w.modeField slot)) ∧
        5 < w.modeField slot := by
  cases h : Operand.ofBits (w.toNat >>> slot.shift) with
  | ok o =>
    refine .inl ⟨o, rfl, fun hgt => ?_⟩
    have he := Operand.ofBits_eq_error_iff.2 ⟨hgt, rfl⟩
    rw [h] at he
    cases he
  | error e =>
    obtain ⟨hgt, rfl⟩ := Operand.ofBits_eq_error_iff.1 h
    exact .inr ⟨rfl, hgt⟩

/-- Reading a word reports its first fault. -/
theorem Instruction.decode_eq_error_iff {w : Word} {e : DecodeError} :
    Instruction.decode w = .error e ↔ w.fault? = some e := by
  unfold Instruction.decode Word.fault?
  dsimp only
  cases hop : Opcode.ofCode? (w.toNat >>> 57) with
  | none =>
    rw [if_pos (show 38 < w.opcodeField from Opcode.ofCode?_eq_none_iff.1 hop)]
    simp [Word.opcodeField]
  | some opcode =>
    have hle : ¬ 38 < w.opcodeField := fun hgt => by
      rw [show Opcode.ofCode? (w.toNat >>> 57) = none from Opcode.ofCode?_eq_none_iff.2 hgt] at hop
      cases hop
    rw [if_neg hle]
    -- the first operand whose mode is none decides, whatever stands in those behind it
    obtain ⟨a, ha, hma⟩ | ⟨ha, hma⟩ := w.ofBits_shift .a
    · obtain ⟨b, hb, hmb⟩ | ⟨hb, hmb⟩ := w.ofBits_shift .b
      · obtain ⟨c, hc, hmc⟩ | ⟨hc, hmc⟩ := w.ofBits_shift .c
        · simp only [Slot.shift, Nat.shiftRight_zero] at ha hb hc
          simp [ha, hb, hc, hma, hmb, hmc, bind, Except.bind, pure, Except.pure]
        · simp only [Slot.shift, Nat.shiftRight_zero] at ha hb hc
          simp [ha, hb, hc, hma, hmb, hmc, bind, Except.bind]
      · simp only [Slot.shift] at ha hb
        simp [ha, hb, hma, hmb, bind, Except.bind]
    · simp only [Slot.shift] at ha
      simp [ha, hma, bind, Except.bind]

/-- A word has a fault when its opcode is beyond the last, or a mode is. -/
theorem Word.fault?_isSome_iff (w : Word) :
    (∃ e, w.fault? = some e) ↔
      38 < w.opcodeField ∨ ∃ slot, w.modeField slot = 6 ∨ w.modeField slot = 7 := by
  have hbad : ∀ slot, 5 < w.modeField slot ↔ w.modeField slot = 6 ∨ w.modeField slot = 7 := by
    intro slot
    have hlt : w.modeField slot < 8 := Nat.mod_lt _ (by decide)
    omega
  have hslots : (∃ slot, 5 < w.modeField slot) ↔
      ∃ slot ∈ [Slot.a, Slot.b, Slot.c], 5 < w.modeField slot :=
    exists_congr fun slot => by cases slot <;> simp
  simp only [← hbad, hslots, ← Option.isSome_iff_exists]
  unfold Word.fault?
  split
  · next h => simp [h]
  · next h => simp [h]

/-! ## The format -/

/-- Instructions whose addresses fit are read back from their words; a word that is read
as an instruction packs it; and every other word has a fault in one of its fields, of
which the first is reported. -/
theorem Instruction.format_exact :
    (∀ i : Instruction, Instruction.decode i.encode = .ok i ↔ i.Fits) ∧
      (∀ (w : Word) (i : Instruction), Instruction.decode w = .ok i ↔ i.Fits ∧ i.encode = w) ∧
      (∀ w : Word, (∃ e, Instruction.decode w = .error e) ↔
        38 < w.opcodeField ∨ ∃ slot, w.modeField slot = 6 ∨ w.modeField slot = 7) ∧
      ∀ (w : Word) (e : DecodeError), Instruction.decode w = .error e ↔ w.fault? = some e := by
  refine ⟨fun i => ?_, fun w i => ?_, fun w => ?_, fun w e => Instruction.decode_eq_error_iff⟩
  · exact ⟨fun h => (Instruction.encode_of_decode h).1, Instruction.decode_encode⟩
  · constructor
    · exact Instruction.encode_of_decode
    · rintro ⟨hfits, rfl⟩
      exact Instruction.decode_encode hfits
  · simp only [Instruction.decode_eq_error_iff]
    exact w.fault?_isSome_iff

/-- Of two modes that are none, that of B is reported before that of C. -/
example : Instruction.decode 0x3800060000 = .error (.unknownMode 7) := by rfl

end YieldMachine
