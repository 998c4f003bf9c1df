import YieldMachine.Listing
import YieldMachine.Proofs.Compile.Growth

/-!
# The lines of a listing

The listing of a compiled program has an entry for every word of its range, and behind
each entry a line feed. An entry begins with the offset of its word, in at least four
digits. Opcodes, operands, numbers and targets never break a line, and a text that is a
constant is quoted; but the name of a global is shown as it is. So an entry is broken as
often as the names of globals in it are.

    Built.listingRange_lines   one line for each word, unless a name that is shown breaks it
-/

namespace YieldMachine

open Decimal

/-! ## Definitions -/

/-- How often a text breaks off its line. -/
def Text.breaks (s : String) : Nat :=
  s.toList.count '\n'

/-- All constants are shared: no array, no error and no function is among them. -/
def Pool.Shared (p : Pool) : Prop :=
  ∀ (i : Nat) (v : Value), p.constants[i]? = some v → v.key?.isSome

/-- The programs that compiling statements leads to, whatever became of each. -/
inductive Program.Built : Program → Prop
  | empty : Program.Built .empty
  | compile {p : Program} (journal : Journal) (node : Node) :
      p.Built → (p.compile journal node).program.Built

/-- The name that a listing shows for an operand that is a global. -/
def Operand.shownName? (pool : Pool) (o : Operand) : Option String :=
  if o.mode = .global ∧ 0 ≤ o.address then
    match pool.get? o.address.toNat with
    | some (.string name) => some name
    | _ => none
  else none

/-- The names that a listing shows for the operands of the instruction at a place. -/
def Program.shownNames (p : Program) (ip : Nat) : List String :=
  match p.instruction? ip with
  | some i => [i.a, i.b, i.c].filterMap (Operand.shownName? p.pool)
  | none => []

/-- The line of one word, without the line feed behind it. -/
def listingEntry (pool : Pool) (ip : Nat) (w : Word) : String :=
  padOffset ip ++ " " ++ match Instruction.decode w with
    | .ok i => i.text ++ notes pool ip i
    | .error e => "<" ++ e.message ++ "> 0x" ++ Text.hexPadded 16 w.toNat

theorem listingLine_eq (pool : Pool) (ip : Nat) (w : Word) :
    listingLine pool ip w = listingEntry pool ip w ++ "\n" :=
  rfl

theorem listingEntry_eq (pool : Pool) (ip : Nat) (w : Word) :
    ∃ rest, listingEntry pool ip w = padOffset ip ++ " " ++ rest :=
  ⟨_, rfl⟩

/-! ## Breaks -/

namespace Text

@[simp] theorem breaks_append (s t : String) : breaks (s ++ t) = breaks s + breaks t := by
  rw [breaks, String.toList_append, List.count_append]
  rfl

theorem breaks_ofList {cs : List Char} (h : '\n' ∉ cs) : breaks (String.ofList cs) = 0 := by
  rw [breaks, String.toList_ofList, List.count_eq_zero_of_not_mem h]

theorem breaks_eq_zero {s : String} : breaks s = 0 ↔ '\n' ∉ s.toList :=
  List.count_eq_zero

theorem breaks_join_cons (s : String) (ss : List String) :
    breaks (String.join (s :: ss)) = breaks s + breaks (String.join ss) := by
  rw [String.join_cons, breaks_append]

theorem breaks_intercalate {separator : String} (h : breaks separator = 0) (ss : List String) :
    breaks (separator.intercalate ss) = breaks (String.join ss) := by
  have hjoined : ∀ ss : List String,
      List.count '\n' (separator.toList.intercalate (ss.map String.toList)) =
        breaks (String.join ss) := by
    intro ss
    induction ss with
    | nil => rfl
    | cons s ss ih =>
      cases ss with
      | nil => simp [breaks]
      | cons t ss =>
        rw [List.map_cons, List.map_cons, List.intercalate_cons_cons, List.count_append,
          List.count_append, ← List.map_cons, ih, show List.count '\n' separator.toList = 0 from h,
          breaks_join_cons s]
        rfl
  rw [breaks, String.toList_intercalate, hjoined]

/-! ## Numbers -/

theorem digits_unbroken {base : Nat} (hbase : 1 < base) (n : Nat) :
    '\n' ∉ Nat.toDigits base n := by
  have hdigit : ∀ k : Nat, '\n' ≠ k.digitChar := fun k => (Nat.digitChar_ne '\n' (by decide)).symm
  induction n using Nat.strongRecOn with
  | ind n ih =>
    rw [Nat.toDigits_eq_if hbase]
    split
    · simp [hdigit n]
    · next hle =>
      have hsmaller := ih (n / base) (Nat.div_lt_self (by omega) hbase)
      simp [hsmaller, hdigit (n % base)]

@[simp] theorem breaks_intText (n : Int) : breaks (intText n) = 0 := by
  cases n with
  | ofNat k => exact breaks_ofList (digits_unbroken (by decide) k)
  | negSucc k =>
    have hdigits : '\n' ∉ digitChars (k + 1) := digits_unbroken (by decide) (k + 1)
    exact breaks_ofList (by simpa using hdigits)

theorem positional_unbroken {digits : List Char} (h : '\n' ∉ digits) (p : Int) :
    '\n' ∉ positional digits p := by
  have htake : '\n' ∉ digits.take p.toNat := fun hm => h (List.mem_of_mem_take hm)
  have hdrop : '\n' ∉ digits.drop p.toNat := fun hm => h (List.mem_of_mem_drop hm)
  unfold positional
  split
  · simp [h]
  · dsimp only
    split
    · simp [h]
    · simp [htake, hdrop]

theorem scientific_unbroken {digits : List Char} (h : '\n' ∉ digits) (plus : Bool) (p : Int) :
    '\n' ∉ scientific plus digits p := by
  have hexponent : '\n' ∉ exponentText plus (p - 1) := by
    have hint := breaks_eq_zero.1 (breaks_intText (p - 1))
    unfold exponentText
    split
    · simpa using hint
    · exact hint
  unfold scientific
  match digits with
  | [] => simpa using hexponent
  | [d] => simpa [hexponent] using h
  | d :: e :: rest => simpa [hexponent] using h

@[simp] theorem breaks_styleText (style : Style) (x : Float) : breaks (style.text x) = 0 := by
  have hwrite : ∀ d : Dec, '\n' ∉ style.write d := by
    intro d
    unfold Style.write
    split
    · decide
    · dsimp only
      split
      · exact positional_unbroken (digits_unbroken (by decide) _) _
      · exact scientific_unbroken (digits_unbroken (by decide) _) _ _
  unfold Style.text
  split
  · rfl
  · split <;> rfl
  · next negative m q =>
    refine breaks_ofList ?_
    split
    · simpa using hwrite _
    · exact hwrite _

@[simp] theorem breaks_hexPadded (width n : Nat) : breaks (hexPadded width n) = 0 :=
  breaks_ofList (by simpa [hexDigits] using digits_unbroken (by decide) n)

/-! ## Texts -/

theorem quoteChar_unbroken (c : Char) : '\n' ∉ quoteChar c := by
  have hhex : '\n' ∉ hexDigits c.toNat := digits_unbroken (by decide) _
  unfold quoteChar
  split_ifs
  case neg => simpa [eq_comm] using ‹c ≠ '\n'›
  all_goals simp [hhex]

/-- A quoted text stays on its line. -/
@[simp] theorem breaks_quote (s : String) : breaks (quote s) = 0 := by
  refine breaks_ofList ?_
  simpa using fun c _ => quoteChar_unbroken c

end Text

open Text

/-! ## Values and operands -/

/-- A constant that is no text is shown on one line. -/
theorem Value.breaks_text {v : Value} (hv : v.key?.isSome) (h : ∀ s, v ≠ .string s) :
    breaks v.text = 0 := by
  cases v with
  | int n =>
    show breaks ("" ++ intText n.toInt) = 0
    rw [breaks_append, breaks_intText]
    rfl
  | float x =>
    show breaks ("" ++ floatStyle.text x.toFloat) = 0
    rw [breaks_append, breaks_styleText]
    rfl
  | bool b => cases b <;> rfl
  | string s => exact absurd rfl (h s)
  | nil => rfl
  | array xs | error message | function f => cases hv

@[simp] theorem Operand.breaks_text (o : Operand) : breaks o.text = 0 := by
  obtain ⟨mode, address⟩ := o
  cases mode <;> simp only [Operand.text, breaks_append, breaks_intText] <;> rfl

@[simp] theorem breaks_padOffset (n : Int) : breaks (padOffset n) = 0 := by
  have hdigits : '\n' ∉ digitChars n.natAbs := digits_unbroken (by decide) n.natAbs
  refine breaks_ofList ?_
  split <;> simpa using hdigits

@[simp] theorem breaks_padName (name : String) : breaks (padName name) = breaks name := by
  rw [padName, breaks_append, breaks_ofList (by simp), Nat.add_zero]

@[simp] theorem Instruction.breaks_text (i : Instruction) : breaks i.text = 0 := by
  have hname : breaks i.opcode.name = 0 := by
    cases i.opcode <;> rfl
  simp only [Instruction.text, breaks_append, breaks_padName, hname, Operand.breaks_text]
  rfl

/-! ## Notes -/

/-- The note on an operand is broken as often as the name that it shows. -/
theorem constantNote?_breaks {pool : Pool} (hp : pool.Shared) (o : Operand) :
    (constantNote? pool o).elim 0 breaks = (o.shownName? pool).elim 0 breaks := by
  obtain ⟨mode, address⟩ := o
  have hfront : breaks (Operand.text ⟨mode, address⟩ ++ " = ") = 0 := by
    rw [breaks_append, Operand.breaks_text]
    rfl
  unfold constantNote? Operand.shownName?
  by_cases hpooled : (mode = .data ∨ mode = .global) ∧ 0 ≤ address
  · rw [if_pos hpooled]
    dsimp only
    cases hv : pool.get? address.toNat with
    | none => split <;> rfl
    | some v =>
      rw [Option.map_some, Option.elim_some, breaks_append, hfront, Nat.zero_add]
      by_cases htext : ∃ name, v = .string name
      · obtain ⟨name, rfl⟩ := htext
        obtain ⟨rfl | rfl, haddress⟩ := hpooled
        · exact breaks_quote name
        · rw [if_pos ⟨rfl, haddress⟩]
          rfl
      · have hplain : ∀ name, v ≠ .string name := fun name h => htext ⟨name, h⟩
        have hshown := Value.breaks_text (hp _ v hv) hplain
        grind
  · have hglobal : ¬ (mode = .global ∧ 0 ≤ address) := fun h => hpooled ⟨.inr h.1, h.2⟩
    rw [if_neg hpooled, if_neg hglobal]

theorem targetNotes_breaks (ip : Nat) (i : Instruction) :
    breaks (String.join (targetNotes ip i)) = 0 := by
  unfold targetNotes
  dsimp only
  split <;> simp only [breaks_join_cons, String.join_nil, breaks_append, breaks_padOffset] <;> rfl

/-- Texts that are found for the same members of a list, or for others, are broken as often
together as one by one. -/
theorem breaks_filterMap {α : Type} {f g : α → Option String}
    (h : ∀ x, (f x).elim 0 breaks = (g x).elim 0 breaks) (xs : List α) :
    breaks (String.join (xs.filterMap f)) = breaks (String.join (xs.filterMap g)) := by
  have helim : ∀ (k : α → Option String) (x : α) (xs : List α),
      breaks (String.join ((x :: xs).filterMap k)) =
        (k x).elim 0 breaks + breaks (String.join (xs.filterMap k)) := by
    intro k x xs
    rw [List.filterMap_cons]
    cases k x with
    | none => exact (Nat.zero_add _).symm
    | some s => exact breaks_join_cons s _
  induction xs with
  | nil => rfl
  | cons x xs ih => rw [helim, helim, h, ih]

theorem notes_breaks {pool : Pool} (hp : pool.Shared) (ip : Nat) (i : Instruction) :
    breaks (notes pool ip i) =
      breaks (String.join ([i.a, i.b, i.c].filterMap (Operand.shownName? pool))) := by
  have hall : breaks (String.join ([i.a, i.b, i.c].filterMap (constantNote? pool) ++
      targetNotes ip i)) =
      breaks (String.join ([i.a, i.b, i.c].filterMap (Operand.shownName? pool))) := by
    rw [String.join_append, breaks_append, targetNotes_breaks, Nat.add_zero]
    exact breaks_filterMap (constantNote?_breaks hp) _
  rw [← hall]
  unfold notes
  split
  · next hnone => rw [hnone]; rfl
  · rw [breaks_append, breaks_intercalate rfl]
    exact Nat.zero_add _

/-! ## Entries -/

/-- The offset of a word in decimal, with zeros in front up to four digits. -/
theorem padOffset_digits (n : Nat) :
    ∃ digits : List Char, padOffset n = String.ofList digits ∧ 4 ≤ digits.length ∧
      (∀ c ∈ digits, c.isDigit) ∧ Nat.ofDigitChars 10 digits 0 = n := by
  have hsign : ¬ (n : Int) < 0 := by omega
  refine ⟨List.replicate (4 - (digitChars n).length) '0' ++ digitChars n, ?_, ?_, ?_, ?_⟩
  · unfold padOffset
    simp [hsign]
  · simp
    omega
  · intro c hc
    rcases List.mem_append.1 hc with hzero | hdigit
    · rw [List.eq_of_mem_replicate hzero]
      rfl
    · exact Nat.isDigit_of_mem_toDigits (by decide) (by decide) hdigit
  · rw [Nat.ofDigitChars_append, Nat.ofDigitChars_replicate_zero, Nat.mul_zero]
    exact Nat.ofDigitChars_ten_toDigits

/-- An entry is broken as often as the names that it shows. -/
theorem Program.listingEntry_breaks {p : Program} (hp : p.pool.Shared) {ip : Nat} {w : Word}
    (hw : p.code[ip]? = some w) :
    breaks (listingEntry p.pool ip w) = breaks (String.join (p.shownNames ip)) := by
  have hfront : breaks (padOffset ip ++ " ") = 0 := by
    rw [breaks_append, breaks_padOffset]
    rfl
  unfold listingEntry shownNames instruction?
  rw [hw, breaks_append, hfront, Nat.zero_add]
  dsimp only
  cases Instruction.decode w with
  | ok i =>
    dsimp only
    rw [breaks_append, Instruction.breaks_text, notes_breaks hp, Nat.zero_add]
    rfl
  | error e =>
    have hmessage : breaks e.message = 0 := by
      cases e <;> refine (breaks_append _ _).trans ?_ <;> rw [breaks_intText] <;> decide +kernel
    simp only [breaks_append, breaks_hexPadded, hmessage]
    rfl

/-! ## Ranges -/

/-- Texts that are put one behind the other. -/
theorem foldl_append {step : String → Nat → String} {line : Nat → String} {ips : List Nat}
    (h : ∀ ip ∈ ips, ∀ out, step out ip = out ++ line ip) (out : String) :
    ips.foldl step out = out ++ String.join (ips.map line) := by
  induction ips generalizing out with
  | nil => simp
  | cons ip ips ih =>
    obtain ⟨hip, hips⟩ := List.forall_mem_cons.1 h
    rw [List.foldl_cons, hip, ih hips, List.map_cons, String.join_cons, String.append_assoc]

/-- A listing is made of the lines of its range. -/
theorem listingRange_eq (code : Array Word) (pool : Pool) (start stop : Nat) :
    listingRange code pool start stop =
      String.join ((List.range (min stop code.size - start)).map fun k =>
        listingLine pool (start + k) (code[start + k]?.getD 0)) := by
  refine (@foldl_append _ (fun ip => listingLine pool ip (code[ip]?.getD 0)) _
    (fun ip hip out => ?_) "").trans ?_
  · rw [List.mem_range'_1] at hip
    have hlt : ip < code.size := by omega
    rw [Array.getElem?_eq_getElem hlt, Option.getD_some]
  · rw [String.empty_append, List.range'_eq_map_range, List.map_map]
    rfl

theorem breaks_lines (lines : List String) :
    breaks (String.join (lines.map (· ++ "\n"))) = breaks (String.join lines) + lines.length := by
  induction lines with
  | nil => rfl
  | cons line lines ih =>
    have hfeed : breaks "\n" = 1 := rfl
    rw [List.map_cons, breaks_join_cons, breaks_append, hfeed, ih, breaks_join_cons,
      List.length_cons]
    omega

/-- Texts that never break off their line are those without a line feed. -/
theorem breaks_join_eq_zero {texts : List String} :
    breaks (String.join texts) = 0 ↔ ∀ s ∈ texts, '\n' ∉ s.toList := by
  induction texts with
  | nil => simp [breaks]
  | cons s texts ih =>
    rw [breaks_join_cons, Nat.add_eq_zero_iff, breaks_eq_zero, ih, List.forall_mem_cons]

/-! ## Compiled programs -/

theorem Pool.Shared.add {p : Pool} {v : Value} (hp : p.Shared) (hv : v.key?.isSome) :
    (p.add v).2.Shared := by
  by_cases hthere : ∃ i : Nat, p.constants[i]? = some v
  · obtain ⟨i, hi⟩ := hthere
    rwa [Pool.add_of_get? hv hi]
  · intro i w hw
    rw [(Pool.add_of_absent fun _ i hi => hthere ⟨i, hi⟩).2, Array.getElem?_push] at hw
    split at hw
    · cases hw
      exact hv
    · exact hp i w hw

/-- Only literals and names are among the constants of a compiled program. -/
theorem Program.Built.shared {p : Program} (h : p.Built) : p.pool.Shared := by
  induction h with
  | empty =>
    intro i v hv
    simp [Program.empty, Pool.empty] at hv
  | @compile p journal node _ ih =>
    obtain ⟨code, pool⟩ := p
    have hclosed : Lowering.Closed fun _ x => Lowering.Leaves (·.Shared → ·.Shared) x :=
      Lowering.leaves_closed (fun _ => id) (fun _ _ _ hpq hqr => hqr ∘ hpq)
        fun _ _ hv hp => hp.add hv
    have hleaves := lower_closed hclosed node
      (fun _ _ e _ => Lowering.leaves_throw (fun _ => id) e) code.size .stack ⟨pool, journal⟩
    rw [Program.compile_eq]
    dsimp only at hleaves ⊢
    split
    · next hl =>
      rw [hl] at hleaves
      exact hleaves ih
    · next hl =>
      rw [hl] at hleaves
      exact hleaves ih

/-- A listing has an entry for each word of its range, which begins with the offset of the word,
and a line feed behind each. The entry is broken as often as the names of globals that it shows;
so a listing has one line for each word if no name that it shows has a line feed in it, and only
then. -/
theorem Program.Built.listingRange_lines {p : Program} (hp : p.Built) (start stop : Nat) :
    ∃ lines : List String, lines.length = min stop p.code.size - start ∧
      listingRange p.code p.pool start stop = String.join (lines.map (· ++ "\n")) ∧
      (∀ (k : Nat) (line : String), lines[k]? = some line →
        (∃ (digits : List Char) (rest : String), line = String.ofList digits ++ " " ++ rest ∧
          4 ≤ digits.length ∧ (∀ c ∈ digits, c.isDigit) ∧
          Nat.ofDigitChars 10 digits 0 = start + k) ∧
        breaks line = breaks (String.join (p.shownNames (start + k)))) ∧
      (breaks (listingRange p.code p.pool start stop) = lines.length ↔
        ∀ k < lines.length, ∀ name ∈ p.shownNames (start + k), '\n' ∉ name.toList) := by
  let entry (k : Nat) := listingEntry p.pool (start + k) (p.code[start + k]?.getD 0)
  have hentry : ∀ k < min stop p.code.size - start,
      breaks (entry k) = breaks (String.join (p.shownNames (start + k))) := by
    intro k hk
    have hlt : start + k < p.code.size := by omega
    show breaks (listingEntry p.pool (start + k) (p.code[start + k]?.getD 0)) = _
    rw [Array.getElem?_eq_getElem hlt, Option.getD_some]
    exact listingEntry_breaks hp.shared (Array.getElem?_eq_getElem hlt)
  have hlines : listingRange p.code p.pool start stop =
      String.join (((List.range (min stop p.code.size - start)).map entry).map (· ++ "\n")) := by
    rw [listingRange_eq, List.map_map]
    exact congrArg String.join (List.map_congr_left fun _ _ => listingLine_eq ..)
  refine ⟨(List.range (min stop p.code.size - start)).map entry, by simp, hlines, ?_, ?_⟩
  · intro k line hline
    obtain ⟨hk, rfl⟩ := List.getElem?_eq_some_iff.1 hline
    rw [List.length_map, List.length_range] at hk
    rw [List.getElem_map, List.getElem_range]
    obtain ⟨digits, hoffset, hsize, hdigits, hvalue⟩ := padOffset_digits (start + k)
    obtain ⟨rest, hrest⟩ :=
      listingEntry_eq p.pool (start + k) (p.code[start + k]?.getD 0)
    rw [hoffset] at hrest
    exact ⟨⟨digits, rest, hrest, hsize, hdigits, hvalue⟩, hentry k hk⟩
  · rw [hlines, breaks_lines, Nat.add_eq_right, breaks_join_eq_zero]
    simp only [List.forall_mem_map, List.mem_range, List.length_map, List.length_range,
      ← breaks_eq_zero]
    refine forall₂_congr fun k hk => ?_
    rw [hentry k hk, breaks_join_eq_zero]
    simp only [breaks_eq_zero]

/-- A statement that assigns a text to a global compiles. -/
theorem Program.compile_text {name text : String} (h : name ≠ text) :
    ∃ q journal, Program.empty.compile default (.assign (.global name) (.literal (.string text))) =
      ⟨.ok 0, q, journal⟩ := by
  obtain ⟨hname, hnamed⟩ := @Pool.add_of_absent .empty (.string name) fun _ i hi => by
    simp [Pool.empty] at hi
  generalize hp : Pool.empty.add (.string name) = p at hname hnamed
  obtain ⟨htext, -⟩ := @Pool.add_of_absent p.2 (.string text) fun _ i hi => by
    rw [hnamed] at hi
    grind [Pool.empty]
  generalize hq : p.2.add (.string text) = q at htext
  rw [Pool.size, hnamed] at htext
  -- the name is constant 0, and the text is constant 1
  have hzero : p.1 = 0 := hname
  have hone : q.1 = 1 := htext
  have hglobal : ∀ b, Lowering.check (Operand.global (0 : Nat)) b = .ok ⟨.global, 0⟩ b :=
    fun _ => rfl
  have hdata : ∀ b, Lowering.check (Operand.data (1 : Nat)) b = .ok ⟨.data, 1⟩ b := fun _ => rfl
  rw [Program.empty, Program.compile_eq]
  simp only [lower, Lowering.variableOperand, Lowering.constant, Bind.bind, EStateM.bind,
    Literal.value, Lowering.add_run, hp, hzero, hglobal, hq, hone, hdata]
  exact ⟨_, _, rfl⟩

/-- It shows the name of the global in both of its entries. -/
theorem Program.shownNames_text {name text : String} (h : name ≠ text) :
    ∃ (p : Program) (home value : Operand), p.Built ∧ p.code.size = 2 ∧
      p.instruction? 0 = some ⟨.move, home, value, .unused⟩ ∧ p.pool.Constant value (.string text) ∧
      ∀ ip < 2, p.shownNames ip = [name] := by
  obtain ⟨p, journal, hcompile⟩ := Program.compile_text h
  have hbuilt := Program.Built.empty.compile default
    (.assign (.global name) (.literal (.string text)))
  rw [hcompile] at hbuilt
  obtain ⟨-, code, r, hgained⟩ := Program.compile_ok hcompile
  obtain ⟨-, hlowered, hholds, hsize⟩ := hgained
  rw [Code] at hlowered
  obtain ⟨hhome, vc, value, hvalue, rfl⟩ := hlowered
  rw [Code] at hvalue
  obtain ⟨rfl, hconstant⟩ := hvalue
  obtain ⟨i, rfl, hname⟩ := hhome
  obtain ⟨j, rfl, htext⟩ := hconstant
  have hcode : pushed ([] ++ moved ⟨.data, j⟩ ⟨.global, i⟩) ⟨.global, i⟩ =
      [⟨.move, ⟨.global, i⟩, ⟨.data, j⟩, .unused⟩, ⟨.move, .stack, ⟨.global, i⟩, .unused⟩] := rfl
  rw [hcode] at hholds hsize
  obtain ⟨hfirst, hsecond, -⟩ := hholds
  have hshown : Operand.shownName? p.pool ⟨.global, i⟩ = some name := by
    rw [Operand.shownName?, if_pos ⟨rfl, Int.natCast_nonneg i⟩, Int.toNat_natCast, Pool.get?, hname]
  refine ⟨p, _, _, hbuilt, hsize, hfirst, ⟨j, rfl, htext⟩, fun ip hip => ?_⟩
  obtain rfl | rfl : ip = 0 ∨ ip = 1 := by omega
  · rw [Program.shownNames, show p.instruction? 0 = _ from hfirst]
    simp only [List.filterMap_cons, hshown]
    rfl
  · rw [Program.shownNames, show p.instruction? 1 = _ from hsecond]
    simp only [List.filterMap_cons, hshown]
    rfl

/-- Each entry shows the name of a global, and the first one a text of two lines. They stand on
two lines where the name is one line, and on more where it is not. -/
theorem Program.listingRange_lines_text :
    ∃ (p q : Program) (home value : Operand) (lines : List String), p.Built ∧
      p.shownNames 0 = ["greeting"] ∧
      p.instruction? 0 = some ⟨.move, home, value, .unused⟩ ∧
      p.pool.Constant value (.string "two\nlines") ∧ lines.length = 2 ∧
      listingRange p.code p.pool 0 5 = String.join (lines.map (· ++ "\n")) ∧
      breaks (listingRange p.code p.pool 0 5) = 2 ∧
      q.Built ∧ q.code.size = 2 ∧ q.shownNames 0 = ["two\nlines"] ∧
      breaks (listingRange q.code q.pool 0 5) ≠ 2 := by
  obtain ⟨p, home, value, hbuilt, hsize, hi, htext, hnames⟩ :=
    Program.shownNames_text (by decide : "greeting" ≠ "two\nlines")
  obtain ⟨q, -, -, hbuilt', hsize', -, -, hnames'⟩ :=
    Program.shownNames_text (by decide : "two\nlines" ≠ "greeting")
  obtain ⟨lines, hcount, hlist, -, hbreaks⟩ := hbuilt.listingRange_lines 0 5
  obtain ⟨lines', hcount', -, -, hbreaks'⟩ := hbuilt'.listingRange_lines 0 5
  replace hcount : lines.length = 2 := by
    rw [hcount, hsize]
    rfl
  replace hcount' : lines'.length = 2 := by
    rw [hcount', hsize']
    rfl
  refine ⟨p, q, home, value, lines, hbuilt, hnames 0 Nat.two_pos, hi, htext, hcount, hlist, ?_,
    hbuilt', hsize', hnames' 0 Nat.two_pos, fun htwo => ?_⟩
  · refine (hbreaks.2 fun k hk name hname => ?_).trans hcount
    rw [Nat.zero_add, hnames k (hcount ▸ hk), List.mem_singleton] at hname
    subst hname
    decide
  · have hfirst : "two\nlines" ∈ q.shownNames (0 + 0) := by
      rw [hnames' 0 Nat.two_pos]
      exact List.mem_singleton_self _
    exact hbreaks'.1 (htwo.trans hcount'.symm) 0 (hcount' ▸ Nat.two_pos) _ hfirst (by decide)

end YieldMachine
