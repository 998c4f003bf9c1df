import Mathlib.Logic.Relation
import YieldMachine.Proofs.Row.Layout
import YieldMachine.Proofs.Walk.Arrays

/-!
# The protocol of an array literal

An execution of an array literal goes from element to element. What it keeps on the stack
between them are its own operands: the array of the full chunks, and the values behind
them. The value of an element that fills a chunk has the chunk gathered: an array is made of
it, and joined to the array of the chunks before it.

    element → element → … → gather → join → element → … → deliver → done

`Progress` says how far an execution has come, `own` what it keeps on the stack, and `Takes`
which steps there are.
-/

namespace YieldMachine

/-! ## Definitions -/

namespace Row

/-- What an execution of an array literal does next. -/
inductive Stage where
  /-- The code of the next element runs. -/
  | element
  /-- An element has given a value that fills a chunk, and an array is made of the chunk. -/
  | gather (v : Value)
  /-- The array of the chunk is joined to the array of those before it. -/
  | join (v : Value)
  /-- All elements have given their values, and the array is brought to its destination. -/
  | deliver
  /-- The literal is over. -/
  | done

/-- Is the next instruction one of the literal itself? -/
def Stage.isOwn : Stage → Bool
  | .element | .done => false
  | _ => true

/-- How far an execution has come: the values of the elements that are over, but for one that
is about to be gathered. -/
structure Progress where
  values : List Value
  stage : Stage

/-- The values of all elements that are over. -/
def Progress.all (p : Progress) : List Value :=
  match p.stage with
  | .gather v | .join v => p.values ++ [v]
  | _ => p.values

variable (row : Row)

/-- What an execution keeps on the stack; at the end, what it leaves there. -/
def own (p : Progress) : Array Value :=
  match p.stage with
  | .element => chunked p.values
  | .gather v => chunked p.values ++ #[v]
  | .join v =>
    #[.array (gathered p.values).toArray, .array ((ungathered p.values).toArray ++ #[v])]
  | .deliver => if chunkLength < row.count then #[.array p.values.toArray] else p.values.toArray
  | .done => row.dest.received (.array p.values.toArray)

/-- The place that an execution has come to. In an element this is where it starts. -/
def place (p : Progress) : Nat :=
  match p.stage with
  | .element => row.startAt p.values.length
  | .gather _ => row.endAt p.values.length
  | .join _ => row.endAt p.values.length + 1
  | .deliver => row.lastAt
  | .done => row.exitAt

/-- The context that executes the literal, which was `c` when the literal began. -/
def context (c : Context) (p : Progress) : Context :=
  c.plus (row.place p) (row.own p)

/-- The progress is one that an execution of the literal can have. -/
def Fits (p : Progress) : Prop :=
  match p.stage with
  | .element => p.values.length < row.count
  | .gather _ => p.values.length < row.count ∧ row.Fills p.values.length
  | .join _ =>
    p.values.length < row.count ∧ row.Fills p.values.length ∧ chunkLength ≤ p.values.length
  | .deliver => p.values.length = row.count ∧ ¬ (chunkLength < row.count ∧ row.dest = .stack)
  | .done => p.values.length = row.count

/-- The progress between two elements, or behind the last one. -/
def next (values : List Value) : Progress :=
  ⟨values, if values.length < row.count then .element
    else if chunkLength < row.count ∧ row.dest = .stack then .done else .deliver⟩

/-- The progress when the literal begins. -/
def start : Progress :=
  row.next []

/-- The progress when an element has given a value. -/
def ended (values : List Value) (v : Value) : Progress :=
  if row.Fills values.length then ⟨values, .gather v⟩ else row.next (values ++ [v])

/-- The progress behind an instruction of the literal itself. -/
def after (p : Progress) : Progress :=
  match p.stage with
  | .gather v =>
    if chunkLength ≤ p.values.length then ⟨p.values, .join v⟩ else row.next (p.values ++ [v])
  | .join v => row.next (p.values ++ [v])
  | .deliver => ⟨p.values, .done⟩
  | _ => p

/-- Where an instruction of the literal itself stores. -/
def goal (p : Progress) : Operand :=
  match p.stage with
  | .deliver => row.dest
  | _ => .stack

/-- What an instruction of the literal itself stores. -/
def Progress.result (p : Progress) : Value :=
  match p.stage with
  | .gather v => .array ((ungathered p.values).toArray ++ #[v])
  | .join v => .array (p.values ++ [v]).toArray
  | _ => .array p.values.toArray

/-- What a step does for an execution of a literal that began in the context `c₀`, and whose
context is in a seat. -/
inductive Takes (program : Program) (c₀ : Context) (i : Instruction) (m m' : Machine)
    (seat : Seat) : Progress → Progress → Prop
  /-- An element runs, or something else. -/
  | within {vs : List Value} : Takes program c₀ i m m' seat ⟨vs, .element⟩ ⟨vs, .element⟩
  /-- The code of an element has come to its end, with its value on top. -/
  | finish {vs : List Value} {v : Value} (front : m.reseat i seat = m'.front)
      (active : m'.active = c₀.plus (row.endAt vs.length) (chunked vs ++ #[v])) :
      Takes program c₀ i m m' seat ⟨vs, .element⟩ (row.ended vs v)
  /-- An instruction of the literal itself stores its result. -/
  | act {p : Progress} (own : p.stage.isOwn) (front : m.reseat i seat = m'.front)
      (stored : m.world.put? program c₀ (row.goal p) p.result = some m'.world)
      (reached : m'.At (row.context c₀ (row.after p)) m.consumers m'.world) :
      Takes program c₀ i m m' seat p (row.after p)

/-- The context in a seat is as the progress of the literal says. While an element runs, the
operands of the literal stay below it. -/
structure Shows (c₀ : Context) (p : Progress) (m : Machine) (seat : Seat) : Prop where
  fits : row.Fits p
  state : match p.stage with
    | .element => ∃ c, m.seat? seat = some c ∧ c.RestsOn (row.context c₀ p).floor ∧
        (c.calls.size = c₀.calls.size →
          row.startAt p.values.length ≤ c.ip ∧ c.ip < row.endAt p.values.length)
    | _ => seat = m.front ∧ m.active = row.context c₀ p

/-- A machine, the seat of the context that executes the literal, and how far that has come. -/
structure Point where
  machine : Machine
  seat : Seat
  progress : Progress

/-- One step of a run that executes a literal. -/
inductive Steps (program : Program) (limits : Limits) (c₀ : Context) : Point → Point → Prop
  | step {m m' : Machine} {seat : Seat} {p p' : Progress} {i : Instruction}
      (instruction : program.instruction? m.active.ip = some i)
      (step : m.step program limits = .running m')
      (takes : row.Takes program c₀ i m m' seat p p') (shows : row.Shows c₀ p' m' (m.reseat i seat)) :
      Steps program limits c₀ ⟨m, seat, p⟩ ⟨m', m.reseat i seat, p'⟩

/-- Steps of a run that executes a literal. -/
abbrev Path (program : Program) (limits : Limits) (c₀ : Context) : Point → Point → Prop :=
  Relation.ReflTransGen (row.Steps program limits c₀)

/-- The code of element `k` came to its end with a value on top of the operands of the
elements before it. -/
def Gave (program : Program) (limits : Limits) (c₀ : Context) (x y : Point) (k : Nat)
    (v : Value) : Prop :=
  ∃ z, row.Path program limits c₀ x z ∧ row.Path program limits c₀ z y ∧
    z.seat = z.machine.front ∧ z.machine.active =
      c₀.plus (row.endAt k) (chunked (y.progress.all.take k) ++ #[v])

end Row

/-! ## Operands -/

theorem chunked_of_short {vs : List Value} (h : vs.length < chunkLength) :
    chunked vs = vs.toArray := by
  rw [chunked, if_neg (Nat.not_le_of_lt h), ungathered, Nat.mod_eq_of_lt h, Nat.sub_self,
    List.drop_zero, Array.empty_append]

theorem size_chunked_le (vs : List Value) : (chunked vs).size ≤ chunkLength := by
  have hrest : (ungathered vs).length = vs.length % chunkLength := by
    rw [ungathered, List.length_drop]
    have := Nat.mod_le vs.length chunkLength
    omega
  have hlt := Nat.mod_lt vs.length (show 0 < chunkLength by decide)
  rw [chunked, Array.size_append]
  show _ + (ungathered vs).length ≤ _
  rw [hrest]
  split <;> simp only [List.size_toArray, List.length_cons, List.length_nil] <;> omega

namespace Row

variable {row : Row} {p : Progress} {vs : List Value} {v : Value}

/-- The literal never keeps more on the stack than a full chunk and one array. -/
theorem Fits.size_own (h : row.Fits p) : (row.own p).size ≤ chunkLength + 1 := by
  obtain ⟨vs, stage⟩ := p
  have hchunked := size_chunked_le vs
  cases stage with
  | element => exact Nat.le_succ_of_le hchunked
  | gather v =>
    show (chunked vs ++ #[v]).size ≤ _
    rw [Array.size_append]
    exact Nat.add_le_add_right hchunked 1
  | join v => exact (by decide : 2 ≤ chunkLength + 1)
  | deliver =>
    obtain ⟨hlen, -⟩ := h
    show (if _ then #[_] else vs.toArray).size ≤ _
    split
    · exact (by decide : 1 ≤ chunkLength + 1)
    · next hshort =>
      rw [List.size_toArray]
      exact Nat.le_succ_of_le (hlen ▸ Nat.le_of_not_lt hshort)
  | done =>
    show (row.dest.received _).size ≤ _
    rw [Operand.size_received]
    unfold Operand.cells
    split
    · exact (by decide : 1 ≤ chunkLength + 1)
    · exact Nat.zero_le _

/-! ## Between two elements -/

theorem next_cases (h : vs.length ≤ row.count) :
    vs.length < row.count ∧ row.next vs = ⟨vs, .element⟩ ∨
      vs.length = row.count ∧ (chunkLength < row.count ∧ row.dest = .stack) ∧
        row.next vs = ⟨vs, .done⟩ ∨
      vs.length = row.count ∧ ¬ (chunkLength < row.count ∧ row.dest = .stack) ∧
        row.next vs = ⟨vs, .deliver⟩ := by
  unfold next
  split
  · next hlt => exact .inl ⟨hlt, rfl⟩
  · next hge =>
    have hlen : vs.length = row.count := by omega
    split
    · next hdone => exact .inr (.inl ⟨hlen, hdone, rfl⟩)
    · next hdone => exact .inr (.inr ⟨hlen, hdone, rfl⟩)

theorem fits_next (h : vs.length ≤ row.count) : row.Fits (row.next vs) := by
  rcases next_cases h with ⟨hlt, heq⟩ | ⟨hlen, -, heq⟩ | ⟨hlen, hdeliver, heq⟩ <;> rw [heq]
  · exact hlt
  · exact hlen
  · exact ⟨hlen, hdeliver⟩

theorem all_next (h : vs.length ≤ row.count) : (row.next vs).all = vs := by
  rcases next_cases h with ⟨-, heq⟩ | ⟨-, -, heq⟩ | ⟨-, -, heq⟩ <;> rw [heq] <;> rfl

theorem place_next (h : vs.length ≤ row.count) :
    row.place (row.next vs) = row.startAt vs.length := by
  rcases next_cases h with ⟨-, heq⟩ | ⟨hlen, ⟨hlong, hdest⟩, heq⟩ | ⟨hlen, -, heq⟩ <;> rw [heq]
  · rfl
  · -- there is nothing to do behind the last chunk
    have hlast : row.last = [] := by
      rw [last, if_pos hlong, hdest]
      rfl
    rw [hlen]
    show row.lastAt + row.last.length = row.lastAt
    rw [hlast]
    rfl
  · exact congrArg row.startAt hlen.symm

/-- An execution begins with the first element, or with the end if there is none. -/
theorem start_cases : 0 < row.count ∧ row.start = ⟨[], .element⟩ ∨
    row.count = 0 ∧ row.start = ⟨[], .deliver⟩ := by
  rcases next_cases (show ([] : List Value).length ≤ row.count from Nat.zero_le _) with
    ⟨hlt, heq⟩ | ⟨hlen, ⟨hlong, -⟩, -⟩ | ⟨hlen, -, heq⟩
  · exact .inl ⟨hlt, heq⟩
  · rw [← hlen] at hlong
    cases hlong
  · exact .inr ⟨hlen.symm, heq⟩

/-- An execution begins with nothing on the stack. -/
theorem own_start : row.own row.start = #[] := by
  rcases row.start_cases with ⟨-, heq⟩ | ⟨hcount, heq⟩ <;> rw [heq]
  · exact chunked_of_short (by decide)
  · exact if_neg (hcount ▸ Nat.not_lt_zero _)

/-- An element that fills no chunk leaves its value with the other operands. -/
theorem own_next (hk : vs.length < row.count) (hfills : ¬ row.Fills vs.length) :
    row.own (row.next (vs ++ [v])) = chunked vs ++ #[v] := by
  have hlen : (vs ++ [v]).length = vs.length + 1 := List.length_append
  rcases next_cases (show (vs ++ [v]).length ≤ row.count by omega) with
    ⟨hlt, heq⟩ | ⟨hcount, ⟨hlong, -⟩, -⟩ | ⟨hcount, -, heq⟩
  · rw [heq]
    refine chunked_push fun hfull => ?_
    by_cases hlong : chunkLength < row.count
    · exact hfills ⟨hlong, .inl hfull⟩
    · rw [Nat.mod_eq_of_lt (by omega)] at hfull
      cases hfull
  · exact absurd ⟨hlong, .inr (by omega)⟩ hfills
  · have hshort : ¬ chunkLength < row.count := fun hlong => hfills ⟨hlong, .inr (by omega)⟩
    rw [heq]
    show (if _ then #[_] else (vs ++ [v]).toArray) = _
    rw [if_neg hshort, chunked_of_short (by omega), List.append_toArray]

/-- When a chunk has been gathered, all values are in one array. -/
theorem own_next_of_fills (hk : vs.length < row.count) (hfills : row.Fills vs.length) :
    row.own (row.next (vs ++ [v])) = #[.array (vs ++ [v]).toArray] := by
  have hlen : (vs ++ [v]).length = vs.length + 1 := List.length_append
  obtain ⟨hlong, hfull⟩ := hfills
  rcases next_cases (show (vs ++ [v]).length ≤ row.count by omega) with
    ⟨hlt, heq⟩ | ⟨-, ⟨-, hdest⟩, heq⟩ | ⟨-, -, heq⟩ <;> rw [heq]
  · exact chunked_of_full (by rw [hlen]; exact hfull.resolve_right (by omega)) (by simp)
  · show row.dest.received _ = _
    rw [hdest]
    rfl
  · show (if _ then _ else _) = _
    rw [if_pos hlong]

/-! ## Behind an element and an instruction -/

theorem fits_ended (h : vs.length < row.count) : row.Fits (row.ended vs v) := by
  unfold ended
  split
  · next hfills => exact ⟨h, hfills⟩
  · exact fits_next (by rw [List.length_append]; exact h)

theorem all_ended (h : vs.length < row.count) : (row.ended vs v).all = vs ++ [v] := by
  unfold ended
  split
  · rfl
  · exact all_next (by rw [List.length_append]; exact h)

/-- Where the code of an element has come to its end, its value is on top of the operands. -/
theorem context_ended {c₀ : Context} (h : vs.length < row.count) :
    row.context c₀ (row.ended vs v) = c₀.plus (row.endAt vs.length) (chunked vs ++ #[v]) := by
  unfold ended
  split
  · rfl
  · next hfills =>
    have hlen : (vs ++ [v]).length = vs.length + 1 := List.length_append
    rw [context, own_next h hfills, place_next (by omega), hlen, startAt_succ,
      behind_of_not_fills hfills]
    rfl

theorem Fits.after (h : row.Fits p) : row.Fits (row.after p) := by
  obtain ⟨vs, stage⟩ := p
  cases stage with
  | element | done => exact h
  | gather v =>
    obtain ⟨hlt, hfills⟩ := h
    unfold Row.after
    dsimp only
    split
    · next hle => exact ⟨hlt, hfills, hle⟩
    · exact fits_next (by rw [List.length_append]; exact hlt)
  | join v => exact fits_next (by rw [List.length_append]; exact h.1)
  | deliver => exact h.1

/-- The instructions of the literal itself lose no value. -/
theorem Fits.all_after (h : row.Fits p) : (row.after p).all = p.all := by
  obtain ⟨vs, stage⟩ := p
  cases stage with
  | element | done | deliver => rfl
  | gather v =>
    unfold Row.after
    dsimp only
    split
    · rfl
    · exact all_next (by rw [List.length_append]; exact h.1)
  | join v => exact all_next (by rw [List.length_append]; exact h.1)

end Row

end YieldMachine
