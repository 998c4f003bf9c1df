import YieldMachine.Value.Sequence

/-!
# Laws of sequences

A text and an array are each seen as the list of what they are made of. Length, index, slice
and concatenation, each written on its own, are length, look-up, cut and append of that list,
so they fit together. A position is a 64-bit integer, and no sum or difference of positions
inside a sequence wraps.

    elements   the list behind a sequence
    sequence_laws   how the four operations fit together
-/

namespace YieldMachine
namespace Value

/-! ## Definitions -/

/-- Texts and arrays. -/
inductive IsSequence : Value → Prop
  | text (s : String) : IsSequence (.string s)
  | array (items : Array Value) : IsSequence (.array items)

/-- What a sequence is made of: the characters of a text, each as a text, or the elements of an
array. -/
def elements : Value → List Value
  | .string s => s.toList.map fun c => .string (String.ofList [c])
  | .array items => items.toList
  | _ => []

/-- Does a range lie inside a sequence? -/
def Cuts (s : Value) (a b : Int64) : Prop :=
  0 ≤ a.toInt ∧ a.toInt ≤ b.toInt ∧ b.toInt ≤ s.elements.length

instance (s : Value) (a b : Int64) : Decidable (s.Cuts a b) :=
  inferInstanceAs (Decidable (_ ∧ _ ∧ _))

variable {s t v : Value} {a b i : Int64} {k : Nat}

/-! ## Positions -/

theorem toInt_add_of_lt (ha : 0 ≤ a.toInt) (hi : 0 ≤ i.toInt) (h : a.toInt + i.toInt < b.toInt) :
    (a + i).toInt = a.toInt + i.toInt := by
  have hb := b.toInt_lt
  rw [Int64.toInt_add, Int.bmod_eq_of_le (by omega) (by omega)]

theorem toInt_sub_ofNat {n : Nat} (h : n ≤ i.toInt) :
    (i - Int64.ofNat n).toInt = i.toInt - n := by
  have hi := i.toInt_lt
  rw [Int64.toInt_sub, Int64.toInt_ofNat_of_lt (by omega), Int.bmod_eq_of_le (by omega) (by omega)]

/-! ## The list behind a sequence -/

namespace IsSequence

theorem of_kind (hs : s.IsSequence) (h : t.kind = s.kind) : t.IsSequence := by
  cases hs with
  | text =>
    cases t with
    | string r => exact .text r
    | _ => cases h
  | array =>
    cases t with
    | array items => exact .array items
    | _ => cases h

/-- A sequence is given by its kind and its list. -/
theorem ext (hs : s.IsSequence) (h : t.kind = s.kind) (he : t.elements = s.elements) : t = s := by
  cases hs with
  | text =>
    cases t with
    | string r =>
      have hlist := (List.map_inj_right (by simp)).1 he
      rw [String.toList_inj.1 hlist]
    | _ => cases h
  | array items =>
    cases t with
    | array items' => rw [Array.toList_inj.1 he]
    | _ => cases h

theorem seqLength?_eq (hs : s.IsSequence) : s.seqLength? = some s.elements.length := by
  cases hs <;> simp [seqLength?, elements, String.length_toList]

theorem elementAt?_eq (hs : s.IsSequence) (k : Nat) : s.elementAt? k = s.elements[k]? := by
  cases hs <;> simp [elementAt?, elements]

theorem part?_eq (hs : s.IsSequence) (k l : Nat) : ∃ v, s.part? k l = some v ∧ v.kind = s.kind ∧
    v.elements = (s.elements.drop k).take (l - k) := by
  cases hs with
  | text r => exact ⟨_, rfl, rfl, by simp [elements]⟩
  | array items => exact ⟨_, rfl, rfl, by simp [elements, List.extract_eq_take_drop]⟩

/-- Concatenation appends the lists. -/
theorem joined (hs : s.IsSequence) (h : t.kind = s.kind) :
    (BinaryOp.add.apply s t).kind = s.kind ∧
      (BinaryOp.add.apply s t).elements = s.elements ++ t.elements := by
  have ht := hs.of_kind h
  cases hs with
  | text =>
    cases ht with
    | text => exact ⟨rfl, by simp [BinaryOp.apply, firstError, isError, BinaryOp.arith, elements]⟩
    | array => cases h
  | array =>
    cases ht with
    | text => cases h
    | array => exact ⟨rfl, by simp [BinaryOp.apply, firstError, isError, BinaryOp.arith, elements]⟩

theorem len_eq (hs : s.IsSequence) : s.len = .int (Int64.ofNat s.elements.length) := by
  have hlen := hs.seqLength?_eq
  cases hs <;> simp only [len, hlen]

/-! ## Index and slice -/

theorem index_eq (hs : s.IsSequence) (i : Int64) :
    s.index (.int i) = ((position? i s.elements.length).bind (s.elements[·]?)).getD
      (ValueError.index i.toInt s.elements.length).value := by
  have hlen := hs.seqLength?_eq
  have hat := funext hs.elementAt?_eq
  unfold index
  rw [hlen, hat]
  cases hs <;> rfl

theorem index_of_getElem? (hs : s.IsSequence) (hk : s.elements[k]? = some v)
    (hi : i.toInt = k) : s.index (.int i) = v := by
  obtain ⟨hlt, -⟩ := List.getElem?_eq_some_iff.1 hk
  rw [hs.index_eq, position?, if_pos (by omega), hi]
  simp [hk]

theorem index_of_not (hs : s.IsSequence) (hi : ¬(0 ≤ i.toInt ∧ i.toInt < s.elements.length)) :
    s.index (.int i) = (ValueError.index i.toInt s.elements.length).value := by
  rw [hs.index_eq, position?, if_neg hi]
  rfl

theorem slice_eq (hs : s.IsSequence) (a b : Int64) :
    s.slice (.int a) (.int b) =
      if s.Cuts a b then
        (s.part? a.toInt.toNat b.toInt.toNat).getD
          (ValueError.operands "[:]" s.kind .int).value
      else (ValueError.slice a.toInt b.toInt s.elements.length).value := by
  have hlen := hs.seqLength?_eq
  unfold slice
  rw [hlen]
  cases hs <;> rfl

theorem slice_of_cuts (hs : s.IsSequence) (h : s.Cuts a b) :
    (s.slice (.int a) (.int b)).kind = s.kind ∧
      (s.slice (.int a) (.int b)).elements =
        (s.elements.drop a.toInt.toNat).take (b.toInt.toNat - a.toInt.toNat) := by
  obtain ⟨v, hv, hkind, helements⟩ := hs.part?_eq a.toInt.toNat b.toInt.toNat
  rw [hs.slice_eq, if_pos h, hv]
  exact ⟨hkind, helements⟩

theorem slice_of_not_cuts (hs : s.IsSequence) (h : ¬s.Cuts a b) :
    s.slice (.int a) (.int b) =
      (ValueError.slice a.toInt b.toInt s.elements.length).value := by
  rw [hs.slice_eq, if_neg h]

theorem kind_slice_iff (hs : s.IsSequence) :
    (s.slice (.int a) (.int b)).kind = s.kind ↔ s.Cuts a b := by
  constructor
  · intro hkind
    refine Decidable.byContradiction fun h => ?_
    rw [hs.slice_of_not_cuts h] at hkind
    cases hs <;> cases hkind
  · exact fun h => (hs.slice_of_cuts h).1

theorem length_slice (hs : s.IsSequence) (h : s.Cuts a b) :
    (s.slice (.int a) (.int b)).elements.length = b.toInt.toNat - a.toInt.toNat := by
  have hb := h.2.2
  rw [(hs.slice_of_cuts h).2, List.length_take, List.length_drop]
  omega

theorem len_slice (hs : s.IsSequence) (h : s.Cuts a b) :
    (s.slice (.int a) (.int b)).len = .int (b - a) := by
  obtain ⟨ha, hab, hb⟩ := h
  rw [(hs.of_kind (hs.kind_slice_iff.2 ⟨ha, hab, hb⟩)).len_eq, hs.length_slice ⟨ha, hab, hb⟩,
    ← Int64.ofInt_eq_ofNat, Int.ofNat_sub (by omega), Int.toNat_of_nonneg ha,
    Int.toNat_of_nonneg (by omega), Int64.ofInt_sub, Int64.ofInt_toInt, Int64.ofInt_toInt]

theorem index_slice (hs : s.IsSequence) (h : s.Cuts a b) (h0 : 0 ≤ i.toInt)
    (hi : i.toInt < b.toInt - a.toInt) :
    (s.slice (.int a) (.int b)).index (.int i) = s.index (.int (a + i)) := by
  obtain ⟨ha, hab, hb⟩ := h
  have hsum := toInt_add_of_lt ha h0 (b := b) (by omega)
  obtain ⟨v, hv⟩ : ∃ v, s.elements[a.toInt.toNat + i.toInt.toNat]? = some v :=
    ⟨_, List.getElem?_eq_getElem (by omega)⟩
  have hslice := hs.slice_of_cuts ⟨ha, hab, hb⟩
  rw [hs.index_of_getElem? hv (by omega)]
  refine (hs.of_kind hslice.1).index_of_getElem? (k := i.toInt.toNat) ?_ (by omega)
  rw [hslice.2, List.getElem?_take_of_lt (by omega), List.getElem?_drop, hv]

/-- A sequence cut in two is the two parts joined. -/
theorem add_slices (hs : s.IsSequence) (h0 : 0 ≤ a.toInt) (hab : a.toInt ≤ b.toInt)
    (hb : b.toInt = s.elements.length) :
    BinaryOp.add.apply (s.slice (.int 0) (.int a)) (s.slice (.int a) (.int b)) = s := by
  have hzero : (0 : Int64).toInt = 0 := rfl
  have hfront := hs.slice_of_cuts (a := 0) (b := a) ⟨by omega, by omega, by omega⟩
  have hback := hs.slice_of_cuts (a := a) (b := b) ⟨h0, hab, by omega⟩
  have hjoined := (hs.of_kind hfront.1).joined (hback.1.trans hfront.1.symm)
  refine hs.ext (hjoined.1.trans hfront.1) ?_
  have hrest : (s.elements.drop a.toInt.toNat).take (b.toInt.toNat - a.toInt.toNat) =
      s.elements.drop a.toInt.toNat :=
    List.take_of_length_le (by rw [List.length_drop]; omega)
  rw [hjoined.2, hfront.2, hback.2, hrest, hzero]
  exact List.take_append_drop a.toInt.toNat s.elements

theorem len_add (hs : s.IsSequence) (h : t.kind = s.kind) :
    (BinaryOp.add.apply s t).len = BinaryOp.add.apply s.len t.len := by
  have hjoined := hs.joined h
  rw [(hs.of_kind hjoined.1).len_eq, hs.len_eq, (hs.of_kind h).len_eq, hjoined.2,
    List.length_append, Int64.ofNat_add]
  rfl

theorem index_add_left (hs : s.IsSequence) (h : t.kind = s.kind) (h0 : 0 ≤ i.toInt)
    (hi : i.toInt < s.elements.length) :
    (BinaryOp.add.apply s t).index (.int i) = s.index (.int i) := by
  have hjoined := hs.joined h
  obtain ⟨v, hv⟩ : ∃ v, s.elements[i.toInt.toNat]? = some v :=
    ⟨_, List.getElem?_eq_getElem (by omega)⟩
  rw [hs.index_of_getElem? hv (by omega)]
  refine (hs.of_kind hjoined.1).index_of_getElem? (k := i.toInt.toNat) ?_ (by omega)
  rw [hjoined.2, List.getElem?_append_left (by omega), hv]

theorem index_add_right (hs : s.IsSequence) (h : t.kind = s.kind)
    (h0 : s.elements.length ≤ i.toInt)
    (hi : i.toInt < s.elements.length + t.elements.length) :
    (BinaryOp.add.apply s t).index (.int i) =
      t.index (.int (i - Int64.ofNat s.elements.length)) := by
  have hjoined := hs.joined h
  have hdiff := toInt_sub_ofNat h0
  obtain ⟨v, hv⟩ : ∃ v, t.elements[i.toInt.toNat - s.elements.length]? = some v :=
    ⟨_, List.getElem?_eq_getElem (by omega)⟩
  rw [(hs.of_kind h).index_of_getElem? hv (by omega)]
  refine (hs.of_kind hjoined.1).index_of_getElem? (k := i.toInt.toNat) ?_ (by omega)
  rw [hjoined.2, List.getElem?_append_right (by omega), hv]

end IsSequence

/-- Of a sequence of `n` parts: its length is `n`; a slice is a sequence of its kind exactly
when the range lies inside and else the slice error, with the length of the range and the
parts from its start on; cut in two it is the two halves joined; an index inside gives the
part there and any other the index error; and joined with another of its kind it gives one of
that kind, with both lengths and the parts of both in a row. -/
theorem sequence_laws {s : Value} (hs : s.IsSequence) :
    s.len = .int (Int64.ofNat s.elements.length) ∧
    (∀ a b : Int64,
      ((s.slice (.int a) (.int b)).kind = s.kind ↔ s.Cuts a b) ∧
      (¬s.Cuts a b → s.slice (.int a) (.int b) =
        (ValueError.slice a.toInt b.toInt s.elements.length).value) ∧
      (s.Cuts a b → (s.slice (.int a) (.int b)).len = .int (b - a) ∧
        ∀ i : Int64, 0 ≤ i.toInt → i.toInt < b.toInt - a.toInt →
          (s.slice (.int a) (.int b)).index (.int i) = s.index (.int (a + i)))) ∧
    (∀ a n : Int64, n.toInt = s.elements.length → 0 ≤ a.toInt → a.toInt ≤ n.toInt →
      BinaryOp.add.apply (s.slice (.int 0) (.int a)) (s.slice (.int a) (.int n)) = s) ∧
    (∀ i : Int64,
      (∀ k v, i.toInt = (k : Nat) → s.elements[k]? = some v → s.index (.int i) = v) ∧
      (¬(0 ≤ i.toInt ∧ i.toInt < s.elements.length) →
        s.index (.int i) = (ValueError.index i.toInt s.elements.length).value)) ∧
    ∀ t : Value, t.kind = s.kind →
      (BinaryOp.add.apply s t).kind = s.kind ∧
      (BinaryOp.add.apply s t).len = BinaryOp.add.apply s.len t.len ∧
      ∀ i : Int64,
        (0 ≤ i.toInt → i.toInt < s.elements.length →
          (BinaryOp.add.apply s t).index (.int i) = s.index (.int i)) ∧
        (s.elements.length ≤ i.toInt → i.toInt < s.elements.length + t.elements.length →
          (BinaryOp.add.apply s t).index (.int i) =
            t.index (.int (i - Int64.ofNat s.elements.length))) := by
  refine ⟨hs.len_eq, fun a b => ⟨hs.kind_slice_iff, hs.slice_of_not_cuts, fun h => ?_⟩,
    fun a n hn h0 ha => hs.add_slices h0 ha hn, fun i => ⟨fun k v hi hk => ?_, hs.index_of_not⟩,
    fun t ht => ⟨(hs.joined ht).1, hs.len_add ht,
      fun i => ⟨hs.index_add_left ht, hs.index_add_right ht⟩⟩⟩
  · exact ⟨hs.len_slice h, fun i h0 hi => hs.index_slice h h0 hi⟩
  · exact hs.index_of_getElem? hk hi

/-- In a text a position is a character, however many bytes it takes. -/
theorem sequence_laws_accents :
    (Value.string "año").IsSequence ∧ (Value.string "año").Cuts 1 3 ∧
      ((Value.string "año").slice (.int 1) (.int 3)).len = .int 2 ∧
      ((Value.string "año").slice (.int 1) (.int 3)).index (.int 0) =
        (Value.string "año").index (.int 1) ∧
      (Value.string "año").index (.int 1) = .string "ñ" := by
  have hs : (Value.string "año").IsSequence := .text _
  have hcuts : (Value.string "año").Cuts 1 3 := by decide
  obtain ⟨-, hslice, -, hindex, -⟩ := sequence_laws hs
  obtain ⟨hlen, hinside⟩ := (hslice 1 3).2.2 hcuts
  exact ⟨hs, hcuts, hlen, hinside 0 (by decide) (by decide), (hindex 1).1 1 _ rfl rfl⟩

end Value
end YieldMachine
