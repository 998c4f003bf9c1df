import YieldMachine.Proofs.Instruction.Format

/-!
# Patching changes one address

A word is given by its seven fields: the opcode, and the mode and the address of each operand.
A patch puts another number into one address field and leaves the six others, whether or not the
word is an instruction. All that is said of patches follows from this.

    Word.patch w slot d = .ok w' ↔ Operand.fits d ∧ w.Patched w' slot (d % 0x10000).toNat
    Word.patch i.encode slot d = .ok (i.withAddress slot d).encode
    patch_exact   when a patch is refused, and what it does to words and to code
-/

namespace YieldMachine

variable {w w' v v' : Word} {slot slot' : Slot} {d d' : Int} {x y : Nat}

/-! ## Definitions -/

/-- The sixteen bits of a word for the address of an operand. -/
def Word.addressField (w : Word) (slot : Slot) : Nat :=
  w.toNat >>> slot.shift % 0x10000

/-- The operand in a slot of a word. -/
def Word.operand (w : Word) (slot : Slot) : Except DecodeError Operand :=
  Operand.ofBits (w.toNat >>> slot.shift)

/-- The instruction with another address in one slot. -/
def Instruction.withAddress (i : Instruction) (slot : Slot) (address : Int) : Instruction :=
  match slot with
  | .a => { i with a := ⟨i.a.mode, address⟩ }
  | .b => { i with b := ⟨i.b.mode, address⟩ }
  | .c => { i with c := ⟨i.c.mode, address⟩ }

/-- Two words whose fields agree, but that the address field of one slot holds a new number. -/
structure Word.Patched (w w' : Word) (slot : Slot) (x : Nat) : Prop where
  opcode : w'.opcodeField = w.opcodeField
  mode : ∀ s, w'.modeField s = w.modeField s
  address : ∀ s, w'.addressField s = if s = slot then x else w.addressField s

/-! ## Fields -/

/-- A word is given by its fields. -/
theorem Word.ext_fields (hop : w.opcodeField = w'.opcodeField)
    (hmode : ∀ s, w.modeField s = w'.modeField s)
    (haddress : ∀ s, w.addressField s = w'.addressField s) : w = w' := by
  have hma := hmode .a
  have hmb := hmode .b
  have hmc := hmode .c
  have haa := haddress .a
  have hab := haddress .b
  have hac := haddress .c
  simp only [opcodeField, modeField, addressField, Slot.shift] at *
  exact UInt64.toNat_inj.1 (by omega)

namespace Word.Patched

/-- The address is taken out of the number of the word and the new one put in. -/
theorem of_toNat (hx : x < 0x10000)
    (h : w'.toNat + w.addressField slot <<< slot.shift = w.toNat + x <<< slot.shift) :
    w.Patched w' slot x := by
  refine ⟨?_, fun s => ?_, fun s => ?_⟩
  · cases slot <;> simp only [opcodeField, addressField, Slot.shift] at * <;> omega
  · cases slot <;> cases s <;> simp only [modeField, addressField, Slot.shift] at * <;> omega
  · cases slot <;> cases s <;> simp only [addressField, Slot.shift, reduceCtorEq, if_true,
      if_false] at * <;> omega

theorem unique (h : w.Patched v slot x) (h' : w.Patched v' slot x) : v = v' :=
  ext_fields (h.opcode.trans h'.opcode.symm) (fun s => (h.mode s).trans (h'.mode s).symm)
    fun s => (h.address s).trans (h'.address s).symm

/-- A second patch of the slot is a patch of the word as it was. -/
theorem again (h : w.Patched w' slot x) : w'.Patched v slot y ↔ w.Patched v slot y := by
  constructor
  · rintro ⟨hop, hmode, haddress⟩
    refine ⟨hop.trans h.opcode, fun s => (hmode s).trans (h.mode s), fun s => ?_⟩
    rw [haddress, h.address]
    split <;> rfl
  · rintro ⟨hop, hmode, haddress⟩
    refine ⟨hop.trans h.opcode.symm, fun s => (hmode s).trans (h.mode s).symm, fun s => ?_⟩
    rw [haddress, h.address]
    split <;> rfl

/-- Patches of two slots may be made in either order. -/
theorem comm (hne : slot' ≠ slot) (h : w.Patched w' slot x) (hv : w'.Patched v slot' y)
    (h' : w.Patched v' slot' y) : v'.Patched v slot x := by
  refine ⟨?_, fun s => ?_, fun s => ?_⟩
  · rw [hv.opcode, h.opcode, h'.opcode]
  · rw [hv.mode, h.mode, h'.mode]
  · rw [hv.address, h.address, h'.address]
    by_cases hs : s = slot
    · rw [hs, if_pos rfl, if_pos rfl, if_neg hne.symm]
    · rw [if_neg hs, if_neg hs]

/-! ## Reading -/

theorem operand_self (h : w.Patched w' slot (d % 0x10000).toNat) (hd : Operand.fits d) :
    w'.operand slot = (w.operand slot).map fun o => ⟨o.mode, d⟩ := by
  have hmode := h.mode slot
  have haddress := h.address slot
  rw [if_pos rfl] at haddress
  unfold modeField addressField at *
  unfold Word.operand Operand.ofBits
  dsimp only
  rw [hmode, haddress, signed_emod hd]
  cases Mode.ofCode? _ <;> rfl

theorem operand_of_ne {s : Slot} (h : w.Patched w' slot x) (hs : s ≠ slot) :
    w'.operand s = w.operand s := by
  have hmode := h.mode s
  have haddress := h.address s
  rw [if_neg hs] at haddress
  unfold modeField addressField at *
  unfold Word.operand Operand.ofBits
  dsimp only
  rw [hmode, haddress]

end Word.Patched

/-- An instruction is read from the number of its opcode and its three operands. -/
theorem Instruction.decode_eq (w : Word) : Instruction.decode w =
    match Opcode.ofCode? w.opcodeField with
    | none => .error (.unknownOpcode w.opcodeField)
    | some opcode => do
      let a ← w.operand .a
      let b ← w.operand .b
      let c ← w.operand .c
      return ⟨opcode, a, b, c⟩ :=
  rfl

/-- What is read from a patched word differs in one address, if anything is read at all. -/
theorem Word.Patched.decode (h : w.Patched w' slot (d % 0x10000).toNat) (hd : Operand.fits d) :
    Instruction.decode w' = (Instruction.decode w).map (·.withAddress slot d) := by
  have hself := h.operand_self hd
  rw [Instruction.decode_eq, Instruction.decode_eq, h.opcode]
  cases Opcode.ofCode? w.opcodeField with
  | none => rfl
  | some opcode =>
    -- the slot that was patched is read like before up to its address, the two others as they were
    cases slot with
    | a =>
      rw [hself, h.operand_of_ne (s := .b) (by decide), h.operand_of_ne (s := .c) (by decide)]
      cases w.operand .a <;> cases w.operand .b <;> cases w.operand .c <;> rfl
    | b =>
      rw [hself, h.operand_of_ne (s := .a) (by decide), h.operand_of_ne (s := .c) (by decide)]
      cases w.operand .a <;> cases w.operand .b <;> cases w.operand .c <;> rfl
    | c =>
      rw [hself, h.operand_of_ne (s := .a) (by decide), h.operand_of_ne (s := .b) (by decide)]
      cases w.operand .a <;> cases w.operand .b <;> cases w.operand .c <;> rfl

/-! ## Patching a word -/

theorem Operand.fits_iff : Operand.fits d ↔ -32768 ≤ d ∧ d ≤ 32767 := by
  simp [Operand.fits]

theorem Word.patch_of_fits (hd : Operand.fits d) (w : Word) (slot : Slot) :
    ∃ w', Word.patch w slot d = .ok w' ∧ w.Patched w' slot (d % 0x10000).toNat := by
  refine ⟨_, if_pos hd, .of_toNat (toNat_emod_lt d) ?_⟩
  have hx := toNat_emod_lt d
  have hw := w.toNat_lt
  rw [UInt64.toNat_ofNat']
  cases slot <;> simp only [addressField, Slot.shift, Nat.reduceShiftLeft] <;> omega

theorem Word.patch_of_not_fits (hd : ¬Operand.fits d) (w : Word) (slot : Slot) :
    Word.patch w slot d = .error (.addressOverflow .jumpOffset d) :=
  if_neg hd

/-- The patch of a word is the one word that differs from it in the address. -/
theorem Word.patch_eq_ok_iff :
    Word.patch w slot d = .ok w' ↔ Operand.fits d ∧ w.Patched w' slot (d % 0x10000).toNat := by
  by_cases hd : Operand.fits d
  · obtain ⟨v, hv, hpatched⟩ := Word.patch_of_fits hd w slot
    rw [hv]
    constructor
    · rintro ⟨⟩
      exact ⟨hd, hpatched⟩
    · rintro ⟨-, h⟩
      rw [hpatched.unique h]
  · rw [Word.patch_of_not_fits hd]
    exact ⟨fun h => (nomatch h), fun h => absurd h.1 hd⟩

theorem Word.patch_eq_error_iff {e : CompileError} :
    Word.patch w slot d = .error e ↔ ¬Operand.fits d ∧ e = .addressOverflow .jumpOffset d := by
  by_cases hd : Operand.fits d
  · obtain ⟨v, hv, -⟩ := Word.patch_of_fits hd w slot
    rw [hv]
    exact ⟨fun h => (nomatch h), fun h => absurd hd h.1⟩
  · rw [Word.patch_of_not_fits hd, Except.error.injEq]
    exact ⟨fun h => ⟨hd, h.symm⟩, fun h => h.2.symm⟩

theorem Instruction.patched_withAddress (i : Instruction) (slot : Slot) (d : Int) :
    i.encode.Patched (i.withAddress slot d).encode slot (d % 0x10000).toNat := by
  apply Word.Patched.of_toNat (toNat_emod_lt d)
  have ha := i.a.bits_lt
  have hb := i.b.bits_lt
  have hc := i.c.bits_lt
  have haa := toNat_emod_lt i.a.address
  have hba := toNat_emod_lt i.b.address
  have hca := toNat_emod_lt i.c.address
  rw [Word.addressField, Instruction.toNat_encode, Instruction.toNat_encode]
  cases slot <;> simp only [withAddress, Slot.shift, Operand.bits] at * <;> omega

/-- An instruction that is packed and then patched is the one that is packed with the address. -/
theorem Word.patch_encode (i : Instruction) (hd : Operand.fits d) (slot : Slot) :
    Word.patch i.encode slot d = .ok (i.withAddress slot d).encode :=
  Word.patch_eq_ok_iff.2 ⟨hd, i.patched_withAddress slot d⟩

theorem Word.patch_again (h : Word.patch w slot d = .ok w') (d' : Int) :
    Word.patch w' slot d' = Word.patch w slot d' := by
  by_cases hd' : Operand.fits d'
  · obtain ⟨v, hv, hpatched⟩ := Word.patch_of_fits hd' w slot
    rw [hv, Word.patch_eq_ok_iff]
    exact ⟨hd', (Word.patch_eq_ok_iff.1 h).2.again.2 hpatched⟩
  · rw [Word.patch_of_not_fits hd', Word.patch_of_not_fits hd']

theorem Word.patch_comm (hne : slot' ≠ slot) (h : Word.patch w slot d = .ok w') (d' : Int) :
    Word.patch w' slot' d' = (Word.patch w slot' d').bind (Word.patch · slot d) := by
  by_cases hd' : Operand.fits d'
  · obtain ⟨hd, hw'⟩ := Word.patch_eq_ok_iff.1 h
    obtain ⟨v, hv, hpatched⟩ := Word.patch_of_fits hd' w' slot'
    obtain ⟨v', hv', hpatched'⟩ := Word.patch_of_fits hd' w slot'
    rw [hv, hv']
    exact (Word.patch_eq_ok_iff.2 ⟨hd, hw'.comm hne hpatched hpatched'⟩).symm
  · rw [Word.patch_of_not_fits hd', Word.patch_of_not_fits hd']
    rfl

/-! ## Patching code -/

theorem Patching.get_bind (f : Array Word → Patching Unit) (code : Array Word) :
    (get >>= f) code = f code code :=
  rfl

theorem Patching.run_patch {code : Array Word} {offset : Nat} (hw : code[offset]? = some w) :
    (Patching.patch offset slot d).run code =
      match Word.patch w slot d with
      | .ok w' => .ok () (code.setIfInBounds offset w')
      | .error e => .error e code := by
  show Patching.patch offset slot d code = _
  rw [Patching.patch, Patching.get_bind, hw]
  dsimp only
  cases Word.patch w slot d <;> rfl

/-- A patch is refused exactly when the address does not fit. Otherwise the word is read like
before, or refused like before, but for the one address; a second patch of the slot overrides the
first; and patches of two slots may be made in either order. In code no other word changes, and
none at all when the patch is refused. -/
theorem Word.patch_exact (w : Word) (slot : Slot) (d : Int) :
    ((∃ e, Word.patch w slot d = .error e) ↔ d < -32768 ∨ 32767 < d) ∧
    (∀ e, Word.patch w slot d = .error e → e = .addressOverflow .jumpOffset d) ∧
    (∀ w', Word.patch w slot d = .ok w' →
      Instruction.decode w' = (Instruction.decode w).map (·.withAddress slot d) ∧
      w.Patched w' slot (d % 0x10000).toNat ∧
      (∀ d', Word.patch w' slot d' = Word.patch w slot d') ∧
      ∀ slot' ≠ slot, ∀ d',
        Word.patch w' slot' d' = (Word.patch w slot' d').bind (Word.patch · slot d)) ∧
    ∀ (code : Array Word) (offset : Nat), code[offset]? = some w →
      (∀ e, Word.patch w slot d = .error e →
        (Patching.patch offset slot d).run code = .error e code) ∧
      ∀ w', Word.patch w slot d = .ok w' →
        ∃ code', (Patching.patch offset slot d).run code = .ok () code' ∧
          code'.size = code.size ∧ code'[offset]? = some w' ∧
          ∀ i ≠ offset, code'[i]? = code[i]? := by
  refine ⟨?refused, ?cause, fun w' h => ?patched, fun code offset hw => ⟨fun e h => ?kept,
    fun w' h => ?other⟩⟩
  case refused =>
    simp only [Word.patch_eq_error_iff, exists_and_left, exists_eq, and_true, Operand.fits_iff]
    omega
  case cause => exact fun e h => (Word.patch_eq_error_iff.1 h).2
  case patched =>
    obtain ⟨hd, hpatched⟩ := Word.patch_eq_ok_iff.1 h
    exact ⟨hpatched.decode hd, hpatched, Word.patch_again h,
      fun slot' hne d' => Word.patch_comm hne h d'⟩
  case kept => rw [Patching.run_patch hw, h]
  case other =>
    obtain ⟨hlt, -⟩ := Array.getElem?_eq_some_iff.1 hw
    refine ⟨_, by rw [Patching.run_patch hw, h], Array.size_setIfInBounds,
      Array.getElem?_setIfInBounds_self_of_lt hlt,
      fun i hi => Array.getElem?_setIfInBounds_ne hi.symm⟩

/-- A jump backwards: the sign of its distance does not reach into the fields beside it. A jump
that is too far leaves the code as it is. -/
theorem Word.patch_exact_backward :
    let w := Instruction.encode ⟨.jumpIfFalse, .unused, ⟨.global, 9⟩, .unused⟩
    let w' := Instruction.encode ⟨.jumpIfFalse, ⟨.immediate, -300⟩, ⟨.global, 9⟩, .unused⟩
    Word.patch w .a (-300) = .ok w' ∧ #[w, w'][0]? = some w ∧ Slot.c ≠ .a ∧
      Instruction.decode w' = (Instruction.decode w).map (·.withAddress .a (-300)) ∧
      Word.patch w' .c 7 = (Word.patch w .c 7).bind (Word.patch · .a (-300)) ∧
      (∃ code, (Patching.patch 0 .a (-300)).run #[w, w'] = .ok () code ∧
        code[0]? = some w' ∧ code[1]? = some w') ∧
      Word.patch w .a 32768 = .error (.addressOverflow .jumpOffset 32768) ∧
      (Patching.patch 0 .a 32768).run #[w, w'] =
        .error (.addressOverflow .jumpOffset 32768) #[w, w'] := by
  intro w w'
  have hnear : Word.patch w .a (-300) = .ok w' := Word.patch_encode _ rfl .a
  have hfar : Word.patch w .a 32768 = .error (.addressOverflow .jumpOffset 32768) := rfl
  have hw : #[w, w'][0]? = some w := rfl
  obtain ⟨-, -, hpatched, hcode⟩ := Word.patch_exact w .a (-300)
  obtain ⟨hdecode, -, -, hcomm⟩ := hpatched w' hnear
  obtain ⟨code, hrun, -, hself, hother⟩ := (hcode #[w, w'] 0 hw).2 w' hnear
  have hkept := ((Word.patch_exact w .a 32768).2.2.2 #[w, w'] 0 hw).1 _ hfar
  exact ⟨hnear, hw, by decide, hdecode, hcomm .c (by decide) 7,
    ⟨code, hrun, hself, hother 1 (by decide)⟩, hfar, hkept⟩

end YieldMachine
