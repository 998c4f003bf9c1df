import YieldMachine.Value.Conversion

/-!
# Integers read back from their text

The text of an integer is a sign and digits, none of them blank, and the reader for 64 bits
takes every such text up to both ends of the range. So an integer that was written with blanks
around it is read back as it was, and never as a decimal, which would be a double cut off.

    Text.trim_blanks : trim (u ++ s ++ v) = trim s
    Decimal.readInt64?_intText : readInt64? (intText n.toInt) = some n
    Value.toInt_text   the conversion of the text of an integer between blanks
-/

namespace YieldMachine

/-! ## Blanks -/

namespace Text

variable {cs front back : List Char}

/-- Blanks at both ends make no difference to what is left when blanks are dropped. -/
theorem trimChars_blanks (hfront : ∀ c ∈ front, isBlank c) (hback : ∀ c ∈ back, isBlank c)
    (cs : List Char) : trimChars (front ++ cs ++ back) = trimChars cs := by
  have hreverse : ∀ c ∈ back.reverse, isBlank c := fun c hc => hback c (List.mem_reverse.1 hc)
  unfold trimChars
  rw [List.append_assoc, List.dropWhile_append_of_pos hfront, List.dropWhile_append]
  split
  · next hempty =>
    -- nothing but blanks is left, so those behind are dropped as well
    have hdropped : (back ++ []).dropWhile isBlank = [] := List.dropWhile_append_of_pos hback
    rw [List.append_nil] at hdropped
    rw [hdropped, List.isEmpty_iff.1 hempty]
  · rw [List.reverse_append, List.dropWhile_append_of_pos hreverse]

theorem trim_blanks {u v : String} (hu : ∀ c ∈ u.toList, isBlank c)
    (hv : ∀ c ∈ v.toList, isBlank c) (s : String) : trim (u ++ s ++ v) = trim s := by
  unfold trim
  rw [String.toList_append, String.toList_append, trimChars_blanks hu hv]

theorem dropWhile_isBlank (h : ∀ c ∈ cs, isBlank c = false) : cs.dropWhile isBlank = cs := by
  cases cs with
  | nil => rfl
  | cons c cs => exact List.dropWhile_cons_of_neg (by simp [h c])

theorem trim_ofList (h : ∀ c ∈ cs, isBlank c = false) :
    trim (String.ofList cs) = String.ofList cs := by
  have hreverse : ∀ c ∈ cs.reverse, isBlank c = false := fun c hc => h c (List.mem_reverse.1 hc)
  rw [trim, String.toList_ofList, trimChars, dropWhile_isBlank h, dropWhile_isBlank hreverse,
    List.reverse_reverse]

theorem isBlank_of_isDigit {c : Char} (h : c.isDigit) : isBlank c = false := by
  obtain ⟨hlow, hhigh⟩ : 48 ≤ c.toNat ∧ c.toNat ≤ 57 := by
    simpa [Char.isDigit, UInt32.le_iff_toNat_le] using h
  simp only [isBlank, Bool.or_eq_false_iff, Bool.and_eq_false_iff, decide_eq_false_iff_not,
    beq_eq_false_iff_ne]
  omega

end Text

/-! ## Digits -/

namespace Decimal

variable {cs : List Char} {c : Char} {bound n : Nat}

theorem digit?_of_isDigit (h : c.isDigit) : digit? c = some (c.toNat - '0'.toNat) :=
  if_pos (by simpa [Char.isDigit, Char.le_def] using h)

theorem numberFrom_eq (h : ∀ c ∈ cs, c.isDigit) (n : Nat) :
    numberFrom n cs = Nat.ofDigitChars 10 cs n := by
  induction cs generalizing n with
  | nil => rfl
  | cons c cs ih =>
    obtain ⟨hc, hcs⟩ := List.forall_mem_cons.1 h
    rw [Nat.ofDigitChars_cons, ← ih hcs, numberFrom, List.foldl_cons, digit?_of_isDigit hc,
      Nat.mul_comm]
    rfl

theorem isDigit_of_mem_digitChars (h : c ∈ digitChars n) : c.isDigit :=
  Nat.isDigit_of_mem_toDigits (by decide) (by decide) h

theorem readNat?_digitChars (n : Nat) : readNat? (digitChars n) = some n := by
  have hdigits : (digitChars n).all isDigit := by
    rw [List.all_eq_true]
    intro c hc
    rw [isDigit, digit?_of_isDigit (isDigit_of_mem_digitChars hc)]
    rfl
  have hnonempty : (digitChars n).isEmpty = false :=
    List.isEmpty_eq_false_iff.2 Nat.toDigits_ne_nil
  have hnumber : numberFrom 0 (digitChars n) = n :=
    (numberFrom_eq (fun _ => isDigit_of_mem_digitChars) 0).trans Nat.ofDigitChars_ten_toDigits
  simp [readNat?, hdigits, hnonempty, hnumber]

theorem readNatBelow?_digitChars (h : n < bound) :
    readNatBelow? bound (digitChars n) = some n := by
  rw [readNatBelow?_eq_filter bound _ (by omega), readNat?_digitChars]
  simp [h]

/-! ## Integers -/

theorem readInt64?_minus (cs : List Char) : readInt64? (String.ofList ('-' :: cs)) =
    (readNatBelow? (1 <<< 63 + 1) cs).map fun n : Nat => Int64.ofInt (-n) := by
  rw [readInt64?, String.toList_ofList]
  split
  · next rest heq =>
    cases heq
    cases readNatBelow? (1 <<< 63 + 1) cs <;> rfl
  · next heq => cases heq
  · next hminus _ => exact absurd rfl (hminus cs)

/-- A text without a sign is read as it is. -/
theorem readInt64?_unsigned (h : ∀ c ∈ cs, c.isDigit) : readInt64? (String.ofList cs) =
    (readNatBelow? (1 <<< 63) cs).map fun n : Nat => Int64.ofInt n := by
  rw [readInt64?, String.toList_ofList]
  split
  · exact absurd (h '-' List.mem_cons_self) (by decide)
  · exact absurd (h '+' List.mem_cons_self) (by decide)
  · cases readNatBelow? (1 <<< 63) cs <;> rfl

/-- The least integer has no positive counterpart, but one more is allowed behind a minus. -/
theorem readInt64?_intText (n : Int64) : readInt64? (intText n.toInt) = some n := by
  have hlow := n.le_toInt
  have hhigh := n.toInt_lt
  cases hn : n.toInt with
  | ofNat k =>
    have hk : k < 1 <<< 63 := by
      rw [hn, Int.ofNat_eq_natCast] at hhigh
      omega
    have hvalue : Int64.ofInt k = n := by rw [← Int.ofNat_eq_natCast, ← hn, Int64.ofInt_toInt]
    rw [intText, readInt64?_unsigned fun _ => isDigit_of_mem_digitChars,
      readNatBelow?_digitChars hk, Option.map_some, hvalue]
  | negSucc k =>
    have hk : k + 1 < 1 <<< 63 + 1 := by omega
    have hvalue : Int64.ofInt (-(k + 1 : Nat)) = n := by
      rw [Int.neg_ofNat_succ, ← hn, Int64.ofInt_toInt]
    rw [intText, readInt64?_minus, readNatBelow?_digitChars hk, Option.map_some, hvalue]

theorem trim_intText (n : Int) : Text.trim (intText n) = intText n := by
  have hdigits : ∀ k, ∀ c ∈ digitChars k, Text.isBlank c = false := fun _ _ hc =>
    Text.isBlank_of_isDigit (isDigit_of_mem_digitChars hc)
  cases n with
  | ofNat k => exact Text.trim_ofList (hdigits k)
  | negSucc k => exact Text.trim_ofList (List.forall_mem_cons.2 ⟨by decide, hdigits (k + 1)⟩)

end Decimal

/-! ## Conversion -/

namespace Value

open Decimal

theorem toInt_of_readInt64? {s : String} {n : Int64} (h : readInt64? (Text.trim s) = some n) :
    (Value.string s).toInt = .int n := by
  simp only [toInt, h]

/-- The text of an integer with blanks around it is read as that integer by the reader of
integers, so that it is never taken for a decimal; and conversion to a text and back changes no
integer. -/
theorem toInt_text (n : Int64) (u v : String) (hu : ∀ c ∈ u.toList, Text.isBlank c)
    (hv : ∀ c ∈ v.toList, Text.isBlank c) :
    readInt64? (Text.trim (u ++ (Value.int n).text ++ v)) = some n ∧
      (Value.string (u ++ (Value.int n).text ++ v)).toInt = .int n ∧
      (Value.int n).toStr.toInt = .int n := by
  have htext : (Value.int n).text = intText n.toInt := String.empty_append
  have hread : readInt64? (Text.trim (intText n.toInt)) = some n := by
    rw [trim_intText, readInt64?_intText]
  have hblanks : readInt64? (Text.trim (u ++ (Value.int n).text ++ v)) = some n := by
    rw [Text.trim_blanks hu hv, htext, hread]
  refine ⟨hblanks, toInt_of_readInt64? hblanks, toInt_of_readInt64? ?_⟩
  rw [htext, hread]

/-- The least integer between a no-break space and a line feed. -/
theorem toInt_text_least :
    (∀ c ∈ "\u00a0".toList, Text.isBlank c) ∧ (∀ c ∈ "\n".toList, Text.isBlank c) ∧
      (Value.string ("\u00a0" ++ (Value.int Int64.minValue).text ++ "\n")).toInt =
        .int Int64.minValue := by
  have hu : ∀ c ∈ "\u00a0".toList, Text.isBlank c := by simp [Text.isBlank]
  have hv : ∀ c ∈ "\n".toList, Text.isBlank c := by simp [Text.isBlank]
  exact ⟨hu, hv, (toInt_text Int64.minValue _ _ hu hv).2.1⟩

end Value

end YieldMachine
