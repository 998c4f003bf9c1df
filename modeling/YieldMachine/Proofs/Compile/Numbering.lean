import Mathlib.Data.Finset.Card
import YieldMachine.Proofs.Compile.Sharing

/-!
# The numbers of constants

A pool is filled call by call, and each call gives a number. The number is for good: from then
on every pool has the constant there. Two calls give one number exactly when their constants
are shared, and what is not shared gets a number of its own each time. So a pool holds one
constant for each key and one for each call that adds what is not shared.

    numberAt calls j   what the call at place `j` gives
    numbering_exact   which numbers the calls give, and how many constants they leave
-/

namespace YieldMachine

/-! ## Definitions -/

/-- Are two constants kept as one? Of one kind and with the same content, doubles by their bits;
arrays, errors and functions never. -/
def Value.Shares : Value → Value → Prop
  | .nil, .nil => True
  | .int a, .int b => a = b
  | .float a, .float b => a.toBits = b.toBits
  | .bool a, .bool b => a = b
  | .string a, .string b => a = b
  | _, _ => False

namespace Pool

/-- A call that adds a constant: any value, or a text. -/
inductive Call where
  | add (v : Value)
  | addText (s : String)

/-- The constant that a call adds. -/
def Call.constant : Call → Value
  | .add v => v
  | .addText s => .string s

/-- Make a call: the number it gives, and the pool that it leaves. -/
def perform (p : Pool) : Call → Nat × Pool
  | .add v => p.add v
  | .addText s => p.addText s

/-- The pool that some calls leave, the first of them made on the empty pool. -/
def after (calls : List Call) : Pool :=
  calls.foldl (fun p c => (p.perform c).2) empty

/-- The number that the call at a place gives. -/
def numberAt (calls : List Call) (j : Nat) (hj : j < calls.length) : Nat :=
  ((after (calls.take j)).perform calls[j]).1

/-- The keys of the constants that some calls add. -/
def keys (calls : List Call) : Finset Key :=
  (calls.filterMap fun c => c.constant.key?).toFinset

/-- How many of some calls add a constant that is not shared. -/
def unshared (calls : List Call) : Nat :=
  calls.countP fun c => c.constant.key?.isNone

variable {p : Pool} {v w : Value} {calls before : List Call} {c : Call} {i j k n : Nat}

/-! ## One call -/

theorem perform_eq (p : Pool) (c : Call) : p.perform c = p.add c.constant := by
  cases c <;> rfl

/-- Shared constants are those with one key. -/
theorem key_eq_iff_shares : v.key?.isSome = true ∧ v.key? = w.key? ↔ v.Shares w := by
  cases v <;> cases w <;> simp [Value.Shares, Value.key?]

instance : DecidableRel Value.Shares :=
  fun _ _ => decidable_of_iff _ key_eq_iff_shares

theorem shares_iff : v.Shares w ↔ v = w ∧ w.key?.isSome = true := by
  rw [← key_eq_iff_shares]
  constructor
  · rintro ⟨hkey, heq⟩
    obtain ⟨k, hk⟩ := Option.isSome_iff_exists.1 hkey
    exact ⟨Value.key?_inj hk (heq ▸ hk), heq ▸ hkey⟩
  · rintro ⟨rfl, hkey⟩
    exact ⟨hkey, rfl⟩

theorem shares_comm : v.Shares w ↔ w.Shares v := by
  rw [shares_iff, shares_iff]
  constructor <;> rintro ⟨rfl, hkey⟩ <;> exact ⟨rfl, hkey⟩

/-- A call gives the number of a constant that is there exactly when the two are shared. -/
theorem eq_add_iff (hi : p.constants[i]? = some v) : i = (p.add w).1 ↔ v.Shares w := by
  rw [shares_iff]
  obtain ⟨hkey, hfound, -⟩ | ⟨habsent, hnumber, -⟩ := p.add_cases w
  · constructor
    · rintro rfl
      exact ⟨Option.some.inj (hi.symm.trans hfound), hkey⟩
    · rintro ⟨rfl, -⟩
      exact get?_inj hkey hi hfound
  · constructor
    · intro heq
      have hlt : i < p.size := (Array.getElem?_eq_some_iff.1 hi).1
      omega
    · rintro ⟨rfl, hkey⟩
      exact absurd hi (habsent hkey i)

theorem mem_add (h : (p.add v).2.constants[i]? = some w) : p.constants[i]? = some w ∨ v = w := by
  obtain ⟨-, -, hsame⟩ | ⟨-, -, hpush⟩ := p.add_cases v
  · rw [hsame] at h
    exact .inl h
  · rw [hpush, Array.getElem?_push] at h
    split at h
    · exact .inr (Option.some.inj h)
    · exact .inl h

/-! ## Many calls -/

theorem after_concat (calls : List Call) (c : Call) :
    after (calls ++ [c]) = ((after calls).add c.constant).2 := by
  rw [after, List.foldl_concat, ← perform_eq]
  rfl

/-- Later pools have every constant at its number. -/
theorem after_within (h : before <+: calls) : (after before).Within (after calls) := by
  obtain ⟨more, rfl⟩ := h
  induction more using List.reverseRecOn with
  | nil => rw [List.append_nil]; exact Within.refl _
  | append_singleton more c ih =>
    rw [← List.append_assoc, after_concat]
    exact ih.trans (add_spec _ _).1

theorem getElem?_numberAt (hj : j < calls.length) (h : j < n) :
    (after (calls.take n)).constants[numberAt calls j hj]? = some calls[j].constant := by
  have hnow := ((after (calls.take j)).add_spec calls[j].constant).2
  rw [← perform_eq] at hnow
  refine after_within (List.take_prefix_take_left h) _ _ ?_
  rw [List.take_succ_eq_append_getElem hj, after_concat, ← perform_eq]
  exact hnow

theorem numberAt_eq_iff_of_lt (hj : j < calls.length) (hk : k < calls.length) (h : j < k) :
    numberAt calls j hj = numberAt calls k hk ↔ calls[j].constant.Shares calls[k].constant := by
  rw [show numberAt calls k hk = _ from congrArg Prod.fst (perform_eq _ _)]
  exact eq_add_iff (getElem?_numberAt hj h)

theorem numberAt_eq_iff (hj : j < calls.length) (hk : k < calls.length) :
    numberAt calls j hj = numberAt calls k hk ↔
      j = k ∨ calls[j].constant.Shares calls[k].constant := by
  obtain h | rfl | h := Nat.lt_trichotomy j k
  · rw [numberAt_eq_iff_of_lt hj hk h]
    simp [h.ne]
  · simp
  · rw [eq_comm, numberAt_eq_iff_of_lt hk hj h, shares_comm]
    simp [h.ne']

/-- Every constant was added by a call. -/
theorem mem_calls (h : (after calls).constants[i]? = some v) : ∃ c ∈ calls, c.constant = v := by
  induction calls using List.reverseRecOn with
  | nil => cases h
  | append_singleton calls c ih =>
    rw [after_concat] at h
    obtain h | h := mem_add h
    · obtain ⟨d, hd, hdv⟩ := ih h
      exact ⟨d, List.mem_append_left _ hd, hdv⟩
    · exact ⟨c, List.mem_append_right _ (List.mem_singleton_self c), h⟩

/-- What was added is there. -/
theorem exists_of_mem (hc : c ∈ calls) : ∃ i : Nat, (after calls).constants[i]? = some c.constant := by
  obtain ⟨j, hj, rfl⟩ := List.getElem_of_mem hc
  have h := getElem?_numberAt hj hj
  rw [List.take_length] at h
  exact ⟨_, h⟩

theorem mem_keys {key : Key} : key ∈ keys calls ↔ ∃ c ∈ calls, c.constant.key? = some key := by
  rw [keys, List.mem_toFinset, List.mem_filterMap]

theorem keys_concat_none (h : c.constant.key? = none) : keys (calls ++ [c]) = keys calls := by
  simp [keys, h]

theorem keys_concat_some {key : Key} (h : c.constant.key? = some key) :
    keys (calls ++ [c]) = insert key (keys calls) := by
  ext other
  simp [keys, h, eq_comm]

theorem unshared_concat (calls : List Call) (c : Call) :
    unshared (calls ++ [c]) = unshared calls + if c.constant.key?.isNone then 1 else 0 := by
  rw [unshared, List.countP_append, List.countP_singleton]
  rfl

/-- A pool has one constant for each key, and one for each call that adds what is not shared. -/
theorem size_after (calls : List Call) :
    (after calls).size = (keys calls).card + unshared calls := by
  induction calls using List.reverseRecOn with
  | nil => rfl
  | append_singleton calls c ih =>
    have hpush (habsent : c.constant.key?.isSome →
        ∀ i : Nat, (after calls).constants[i]? ≠ some c.constant) :
        ((after calls).add c.constant).2.size = (after calls).size + 1 := by
      rw [size, (add_of_absent habsent).2, Array.size_push, size]
    rw [after_concat, unshared_concat]
    cases hk : c.constant.key? with
    | none =>
      rw [hpush (by simp [hk]), ih, keys_concat_none hk]
      rfl
    | some key =>
      by_cases hmem : key ∈ keys calls
      · obtain ⟨d, hd, hdk⟩ := mem_keys.1 hmem
        obtain ⟨i, hi⟩ := exists_of_mem hd
        rw [Value.key?_inj hdk hk] at hi
        rw [add_of_get? (by rw [hk]; rfl) hi, ih, keys_concat_some hk,
          Finset.insert_eq_of_mem hmem]
        rfl
      · have habsent : ∀ i : Nat, (after calls).constants[i]? ≠ some c.constant := by
          intro i hi
          obtain ⟨d, hd, hdc⟩ := mem_calls hi
          exact hmem (mem_keys.2 ⟨d, hd, hdc ▸ hk⟩)
        rw [hpush fun _ => habsent, ih, keys_concat_some hk, Finset.card_insert_of_notMem hmem,
          Option.isNone_some, if_neg Bool.false_ne_true]
        omega

/-- The number that a call gives is that of its constant from then on, two calls give the same
number when their constants are shared and never else, and as many constants are there as
keys and calls that add what is not shared. -/
theorem numbering_exact (calls : List Call) :
    (∀ j (hj : j < calls.length) n, j < n →
      (after (calls.take n)).get? (numberAt calls j hj) = some calls[j].constant) ∧
    (∀ j k (hj : j < calls.length) (hk : k < calls.length),
      numberAt calls j hj = numberAt calls k hk ↔
        j = k ∨ calls[j].constant.Shares calls[k].constant) ∧
    (after calls).size = (keys calls).card + unshared calls :=
  ⟨fun _ hj _ h => getElem?_numberAt hj h, fun _ _ hj hk => numberAt_eq_iff hj hk,
    size_after calls⟩

/-- What is not a number is told apart by its sign, and shared with its like. -/
example :
    ¬(Value.float (.ofBits 0x7ff8000000000000)).Shares (.float (.ofBits 0xfff8000000000000)) ∧
      (Value.float (.ofBits 0xfff8000000000000)).Shares (.float (.ofBits 0xfff8000000000000)) := by
  decide

end Pool

end YieldMachine
