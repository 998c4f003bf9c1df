import YieldMachine.Console

/-!
# Two inputs, the same lines

A text is cut into lines beforehand, or its bytes are read one line at a time. The first way
counts characters and the second bytes, but in UTF-8 the byte of a line feed stands for nothing
else, so both cut at the same places; and both drop the same terminators.

    mem_bytes : 10 ∈ bytes cs ↔ '\n' ∈ cs
    Supplies.read   a read takes the first of the lines that an input has left
    lineAt_agree    every read gives the same, also past the end
-/

namespace YieldMachine

/-! ## Definitions -/

namespace Text

/-- The bytes of characters in UTF-8. -/
def bytes (cs : List Char) : List UInt8 :=
  cs.flatMap String.utf8EncodeChar

end Text

/-- What is read after `k` other reads. -/
def Console.lineAt (console : Console) : Nat → Option String
  | 0 => console.read.1
  | k + 1 => console.read.2.lineAt k

/-- The lines that a console has left to read. -/
inductive Console.Supplies : Console → List String → Prop
  | lines (pending : List String) (output : String) : Supplies ⟨.lines pending, output⟩ pending
  | stream (cs : List Char) (output : String) :
    Supplies ⟨.stream (Text.bytes cs), output⟩ (Text.linesFrom [] cs)

/-! ## Bytes -/

namespace Text

variable {cs line rest : List Char}

theorem mem_utf8EncodeChar (c : Char) : 10 ∈ String.utf8EncodeChar c ↔ c = '\n' := by
  have hc : c = '\n' ↔ c.val.toNat = 10 := by
    rw [← Char.val_inj, ← UInt32.toNat_inj]
    rfl
  rw [hc]
  unfold String.utf8EncodeChar
  dsimp only
  -- only a character of one byte has a byte below 128
  repeat' split
  all_goals
    simp only [List.mem_cons, List.not_mem_nil, or_false, ← UInt8.toNat_inj,
      UInt8.toNat_ofNat', UInt8.reduceToNat]
    omega

theorem mem_bytes : 10 ∈ bytes cs ↔ '\n' ∈ cs := by
  simp [bytes, mem_utf8EncodeChar]

theorem bytes_eq_nil : bytes cs = [] ↔ cs = [] := by
  cases cs <;> simp [bytes]

theorem bytes_ended (line rest : List Char) :
    bytes (line ++ '\n' :: rest) = bytes line ++ 10 :: bytes rest := by
  rw [bytes, List.flatMap_append, List.flatMap_cons]
  rfl

theorem bytes_toList (t : String) : bytes t.toList = t.toUTF8.data.toList := by
  rw [String.toUTF8_eq_toByteArray, ← String.utf8Encode_toList, List.utf8Encode,
    List.toList_data_toByteArray]
  rfl

/-- The bytes of characters are read as these characters. -/
theorem fromUTF8?_bytes (cs : List Char) :
    String.fromUTF8? ⟨(bytes cs).toArray⟩ = some (String.ofList cs) := by
  have hbytes : (⟨(bytes cs).toArray⟩ : ByteArray) = cs.utf8Encode := by
    ext1
    rw [List.utf8Encode, List.data_toByteArray]
    rfl
  rw [hbytes, String.fromUTF8?, dif_pos ByteArray.isValidUTF8_utf8Encode, Option.some.injEq,
    ← String.toByteArray_inj, String.toByteArray_ofList]
  rfl

/-! ## Lines -/

theorem linesFrom_unended (h : '\n' ∉ cs) (seen : List Char) :
    linesFrom seen cs =
      if (seen.reverse ++ cs).isEmpty then [] else [String.ofList (seen.reverse ++ cs)] := by
  induction cs generalizing seen with
  | nil => simp [linesFrom]
  | cons c cs ih =>
    have hc := (List.ne_of_not_mem_cons h).symm
    have hcs := List.not_mem_of_not_mem_cons h
    rw [linesFrom, if_neg hc, ih hcs]
    simp

theorem linesFrom_ended (h : '\n' ∉ line) (seen rest : List Char) :
    linesFrom seen (line ++ '\n' :: rest) =
      String.ofList (dropReturn (seen.reverse ++ line)) :: linesFrom [] rest := by
  induction line generalizing seen with
  | nil => simp [linesFrom]
  | cons c line ih =>
    have hc := (List.ne_of_not_mem_cons h).symm
    have hline := List.not_mem_of_not_mem_cons h
    rw [List.cons_append, linesFrom, if_neg hc, ih hline]
    simp

end Text

theorem cutLine_unended {bs : List UInt8} (h : 10 ∉ bs) (seen : List UInt8) :
    cutLine seen bs = (seen.reverse ++ bs, []) := by
  induction bs generalizing seen with
  | nil => simp [cutLine]
  | cons b bs ih =>
    have hb := (List.ne_of_not_mem_cons h).symm
    have hbs := List.not_mem_of_not_mem_cons h
    rw [cutLine, if_neg hb, ih hbs]
    simp

theorem cutLine_ended {bs : List UInt8} (h : 10 ∉ bs) (seen rest : List UInt8) :
    cutLine seen (bs ++ 10 :: rest) = (seen.reverse ++ bs ++ [10], rest) := by
  induction bs generalizing seen with
  | nil => simp [cutLine]
  | cons b bs ih =>
    have hb := (List.ne_of_not_mem_cons h).symm
    have hbs := List.not_mem_of_not_mem_cons h
    rw [List.cons_append, cutLine, if_neg hb, ih hbs]
    simp

theorem dropTerminator_unended {cs : List Char} (h : '\n' ∉ cs) : dropTerminator cs = cs := by
  unfold dropTerminator
  split
  · next heq => exact absurd (List.mem_reverse.1 (heq ▸ List.mem_cons_self)) h
  · rfl

theorem dropTerminator_ended (line : List Char) :
    dropTerminator (line ++ ['\n']) = Text.dropReturn line := by
  simp [dropTerminator]

/-! ## Reading -/

section
variable {cs line rest : List Char}

theorem readStream_of_cutLine {bs : List UInt8} (hne : cs ≠ [])
    (hcut : cutLine [] (Text.bytes cs) = (Text.bytes line, bs)) :
    readStream (Text.bytes cs) = (some (String.ofList (dropTerminator line)), bs) := by
  unfold readStream
  split
  · next hnil => exact absurd (Text.bytes_eq_nil.1 hnil) hne
  · simp [hcut, Text.fromUTF8?_bytes]

theorem readStream_unended (h : '\n' ∉ cs) (hne : cs ≠ []) :
    readStream (Text.bytes cs) = (some (String.ofList cs), []) := by
  have hcut := cutLine_unended (mt Text.mem_bytes.1 h) []
  rw [readStream_of_cutLine hne hcut, dropTerminator_unended h]

theorem readStream_ended (h : '\n' ∉ line) :
    readStream (Text.bytes (line ++ '\n' :: rest)) =
      (some (String.ofList (Text.dropReturn line)), Text.bytes rest) := by
  have hcut : cutLine [] (Text.bytes (line ++ '\n' :: rest)) =
      (Text.bytes (line ++ ['\n']), Text.bytes rest) := by
    rw [Text.bytes_ended, Text.bytes_ended, cutLine_ended (mt Text.mem_bytes.1 h)]
    rfl
  rw [readStream_of_cutLine (by simp) hcut, dropTerminator_ended]

end

namespace Console

variable {console : Console} {pending : List String}

/-- A read gives the first line that is left, if there is one, and leaves the others. -/
theorem Supplies.read (h : console.Supplies pending) :
    console.read.1 = pending.head? ∧ console.read.2.Supplies pending.tail := by
  cases h with
  | lines pending output =>
    cases pending with
    | nil => exact ⟨rfl, .lines [] output⟩
    | cons line pending => exact ⟨rfl, .lines pending output⟩
  | stream cs output =>
    by_cases hmem : '\n' ∈ cs
    · obtain ⟨line, rest, rfl, hline⟩ := List.eq_append_cons_of_mem hmem
      simp only [Console.read, Input.read, readStream_ended hline, Text.linesFrom_ended hline]
      exact ⟨rfl, .stream rest output⟩
    · by_cases hne : cs = []
      · subst hne
        exact ⟨rfl, .stream [] output⟩
      · simp only [Console.read, Input.read, readStream_unended hmem hne,
          Text.linesFrom_unended hmem]
        simp only [List.reverse_nil, List.nil_append, List.isEmpty_iff, if_neg hne]
        exact ⟨rfl, .stream [] output⟩

theorem Supplies.lineAt (h : console.Supplies pending) (k : Nat) :
    console.lineAt k = pending[k]? := by
  induction k generalizing console pending with
  | zero => rw [Console.lineAt, h.read.1, List.head?_eq_getElem?]
  | succ k ih => rw [Console.lineAt, ih h.read.2, List.getElem?_tail]

/-- The bytes of a text as a stream give the same as its lines, read by read: the lines of the
text in order, and nothing from then on. -/
theorem lineAt_agree (t : String) (k : Nat) :
    (ofBytes t.toUTF8.data.toList).lineAt k = (ofText t).lineAt k ∧
      (ofText t).lineAt k = (Text.lines t)[k]? := by
  have htext : (ofText t).Supplies (Text.lines t) := .lines (Text.lines t) ""
  have hstream : (ofBytes t.toUTF8.data.toList).Supplies (Text.lines t) := by
    rw [← Text.bytes_toList]
    exact .stream t.toList ""
  exact ⟨(hstream.lineAt k).trans (htext.lineAt k).symm, htext.lineAt k⟩

/-- Of two carriage returns before a line feed one stays, and so does one at the end. -/
example : (List.range 4).map (ofBytes "é\r\r\n\n\r".toUTF8.data.toList).lineAt =
    [some "é\r", some "", some "\r", none] := by
  cbv

end Console

end YieldMachine
