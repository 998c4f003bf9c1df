import YieldMachine.Instruction.Word

/-!
# Packed instructions read back

A word holds the opcode and three operands as digits of nineteen bits. An instruction
whose addresses fit their sixteen bits is read back from its word.

    i.Fits → Instruction.decode i.encode = .ok i
-/

namespace YieldMachine

/-- Do the addresses of an instruction fit? -/
def Instruction.Fits (i : Instruction) : Prop :=
  Operand.fits i.a.address ∧ Operand.fits i.b.address ∧ Operand.fits i.c.address

/-! ## Digits -/

theorem digits_lt {p a b c : Nat} (hp : p < 39) (ha : a < 0x80000) (hb : b < 0x80000)
    (hc : c < 0x80000) : p <<< 57 + a <<< 38 + b <<< 19 + c < UInt64.size := by
  unfold UInt64.size
  omega

theorem digits_eq (p a b c : Nat) : p <<< 57 + a <<< 38 + b <<< 19 + c =
    ((p <<< 19 + a) <<< 19 + b) <<< 19 + c := by
  omega

theorem shift_digit {x y : Nat} (h : y < 0x80000) : (x <<< 19 + y) >>> 19 = x := by
  omega

theorem shift_38 (n : Nat) : n >>> 38 = n >>> 19 >>> 19 :=
  Nat.shiftRight_add n 19 19

theorem shift_57 (n : Nat) : n >>> 57 = n >>> 38 >>> 19 :=
  Nat.shiftRight_add n 38 19

theorem mode_digit {n c a : Nat} (hc : c < 6) (ha : a < 0x10000) :
    (n <<< 19 + (c <<< 16 + a)) >>> 16 % 8 = c := by
  omega

theorem address_digit {n c a : Nat} (ha : a < 0x10000) :
    (n <<< 19 + (c <<< 16 + a)) % 0x10000 = a := by
  omega

theorem operand_lt {c a : Nat} (hc : c < 6) (ha : a < 0x10000) : c <<< 16 + a < 0x80000 := by
  omega

theorem toNat_emod_lt (a : Int) : (a % 0x10000).toNat < 0x10000 := by
  omega

theorem Operand.bits_lt (o : Operand) : o.bits < 0x80000 :=
  operand_lt o.mode.code_lt (toNat_emod_lt o.address)

/-! ## Reading -/

theorem signed_emod {a : Int} (h : Operand.fits a) : signed (a % 0x10000).toNat = a := by
  simp only [Operand.fits, Bool.and_eq_true, decide_eq_true_eq] at h
  unfold signed
  split <;> omega

theorem Operand.ofBits_eq_ok {n : Nat} {o : Operand} (hm : n >>> 16 % 8 = o.mode.code)
    (ha : signed (n % 0x10000) = o.address) : Operand.ofBits n = .ok o := by
  simp only [Operand.ofBits, hm, Mode.ofCode?_code, ha]

/-- An operand is read from the low digit, whatever stands above it. -/
theorem Operand.ofBits_bits {o : Operand} (h : fits o.address) (n : Nat) :
    Operand.ofBits (n <<< 19 + o.bits) = .ok o := by
  apply Operand.ofBits_eq_ok
  · exact mode_digit o.mode.code_lt (toNat_emod_lt o.address)
  · rw [show (n <<< 19 + o.bits) % 0x10000 = (o.address % 0x10000).toNat from
      address_digit (toNat_emod_lt o.address)]
    exact signed_emod h

theorem Instruction.decode_eq_ok {w : Word} {i : Instruction}
    (hop : w.toNat >>> 57 = i.opcode.code) (ha : Operand.ofBits (w.toNat >>> 38) = .ok i.a)
    (hb : Operand.ofBits (w.toNat >>> 19) = .ok i.b) (hc : Operand.ofBits w.toNat = .ok i.c) :
    Instruction.decode w = .ok i := by
  simp only [Instruction.decode, hop, Opcode.ofCode?_code, ha, hb, hc]
  rfl

/-! ## Round trip -/

theorem Instruction.toNat_encode (i : Instruction) : i.encode.toNat =
    ((i.opcode.code <<< 19 + i.a.bits) <<< 19 + i.b.bits) <<< 19 + i.c.bits := by
  have hlt := digits_lt i.opcode.code_lt i.a.bits_lt i.b.bits_lt i.c.bits_lt
  rw [← digits_eq]
  exact UInt64.toNat_ofNat'.trans (Nat.mod_eq_of_lt hlt)

theorem Instruction.decode_encode {i : Instruction} (h : i.Fits) :
    Instruction.decode i.encode = .ok i := by
  obtain ⟨ha, hb, hc⟩ := h
  have hnb : i.encode.toNat >>> 19 =
      (i.opcode.code <<< 19 + i.a.bits) <<< 19 + i.b.bits := by
    rw [i.toNat_encode, shift_digit i.c.bits_lt]
  have hna : i.encode.toNat >>> 38 = i.opcode.code <<< 19 + i.a.bits := by
    rw [shift_38, hnb, shift_digit i.b.bits_lt]
  have hop : i.encode.toNat >>> 57 = i.opcode.code := by
    rw [shift_57, hna, shift_digit i.a.bits_lt]
  apply Instruction.decode_eq_ok hop
  · rw [hna]
    exact Operand.ofBits_bits ha _
  · rw [hnb]
    exact Operand.ofBits_bits hb _
  · rw [i.toNat_encode]
    exact Operand.ofBits_bits hc _

end YieldMachine
