import YieldMachine.Proofs.Walk.Pieces

/-!
# Arrays

The elements of a short array go onto the stack before the array is made. A long array is
built in chunks: behind some of the elements the stack holds an array of the full chunks, and
the elements that are left. The code behind an element gathers a chunk that is full, or the
last one.

    Does.array       short arrays
    Does.longArray   long arrays
-/

namespace YieldMachine

open Walk

section

variable {program : Program} {l : Locals} {c : Context} {cs : Array Context} {w : World}
  {α : Type} {x : Walk α} {y : Walk Value} {xs : Walk (List Value)}
  {post : α → World → Context → Prop} {a b ip base stop : Nat} {dest : Operand} {v : Value}
  {us : Array Value} {ws : List Value}

/-! ## Values in a row -/

theorem DoesAll.nil : DoesAll program l base base (pure []) := by
  rintro c cs w rfl hl
  exact .pure c.plus_self.symm

theorem DoesAll.cons (hy : Does program l base .stack .stack a y)
    (hxs : DoesAll program l a b xs) : DoesAll program l base b (do
      let v ← y
      let vs ← xs
      return v :: vs) := by
  intro c cs w hip hl
  refine (hy.start hip hl).bind fun v w₁ c₁ _ ⟨hc₁, _⟩ => ?_
  rw [hc₁]
  refine (hxs.run hl).bind fun vs w₂ c₂ _ hc₂ => .pure ?_
  rw [hc₂]
  congr 1
  simp [Operand.received, Operand.isStack, Operand.stack]

theorem Context.extract_plus : ((c.plus ip us).stack.extract ((c.plus ip us).stack.size - us.size)
    (c.plus ip us).stack.size) = us := by
  rw [Context.size_plus, Nat.add_sub_cancel]
  show (c.stack ++ us).extract _ _ = _
  simp

theorem Performs.makeArray {n : Nat} (hn : us.size = n)
    (hi : program.instruction? ip = some ⟨.makeArray, dest, ⟨.immediate, n⟩, .unused⟩) :
    Performs program cs (c.plus ip us) c (put program c dest (.array us)) w
      (Delivers program c (ip + 1) dest) := by
  subst hn
  refine store (y := fun limits => Action.makeArray program limits _) rfl hi
    (fun _ => rfl) fun limits m w' hm hw => ?_
  have hput : w.put? program (c.plus (ip + 1) us) dest (.array
      ((c.plus (ip + 1) us).stack.extract ((c.plus (ip + 1) us).stack.size - us.size)
        (c.plus (ip + 1) us).stack.size)) = some w' := by
    rw [Context.extract_plus]
    exact hw
  have hreach : Action.Reaches limits _ _ m _ cs w' :=
    Action.makeArray_at (i := ⟨.makeArray, dest, ⟨.immediate, us.size⟩, .unused⟩) hm rfl
      (by rw [Context.size_plus]; omega) hput
  rwa [Context.extract_plus, Context.swap_plus rfl] at hreach

theorem Does.array {n : Nat} (hxs : DoesAll program l base a xs)
    (hn : ∀ {w vs w'}, xs w = .ok vs w' → vs.length = n)
    (hi : program.instruction? a = some ⟨.makeArray, dest, ⟨.immediate, n⟩, .unused⟩) :
    Does program l base dest dest (a + 1) (do return .array (← xs).toArray) := by
  intro c cs w hip hl
  rw [bind_assoc]
  refine (hxs c cs w hip hl).bind fun vs w₁ c₁ hw hc₁ => ?_
  rw [pure_bind, settle_self, hc₁]
  exact .makeArray (hn hw) hi

/-! ## Chunks -/

/-- The elements in full chunks. -/
def gathered (vs : List Value) : List Value :=
  vs.take (vs.length - vs.length % chunkLength)

/-- The elements behind the full chunks. -/
def ungathered (vs : List Value) : List Value :=
  vs.drop (vs.length - vs.length % chunkLength)

/-- What stands on the stack of an array that is built in chunks, behind some of its elements. -/
def chunked (vs : List Value) : Array Value :=
  (if chunkLength ≤ vs.length then #[.array (gathered vs).toArray] else #[]) ++
    (ungathered vs).toArray

/-- The same; behind the last element everything is gathered. -/
def heldOf (isDone : Bool) (vs : List Value) : Array Value :=
  if isDone then #[.array vs.toArray] else chunked vs

theorem gathered_append_ungathered (vs : List Value) : gathered vs ++ ungathered vs = vs :=
  List.take_append_drop _ vs

theorem chunked_of_full (h : ws.length % chunkLength = 0) (hws : ws ≠ []) :
    chunked ws = #[.array ws.toArray] := by
  have hle : chunkLength ≤ ws.length :=
    Nat.le_of_dvd (List.length_pos_of_ne_nil hws) (Nat.dvd_of_mod_eq_zero h)
  rw [chunked, if_pos hle, gathered, ungathered, h, Nat.sub_zero, List.take_length,
    List.drop_length]
  rfl

theorem chunked_push (h : (ws.length + 1) % chunkLength ≠ 0) :
    chunked (ws ++ [v]) = chunked ws ++ #[v] := by
  have hkeep : ws.length + 1 - (ws.length + 1) % chunkLength =
      ws.length - ws.length % chunkLength := by
    simp only [chunkLength] at *
    omega
  have hlong : chunkLength ≤ ws.length + 1 ↔ chunkLength ≤ ws.length := by
    simp only [chunkLength] at *
    omega
  have hgathered : gathered (ws ++ [v]) = gathered ws := by
    rw [gathered, List.length_append, List.length_singleton, hkeep,
      List.take_append_of_le_length (Nat.sub_le _ _), gathered]
  have hungathered : ungathered (ws ++ [v]) = ungathered ws ++ [v] := by
    rw [ungathered, List.length_append, List.length_singleton, hkeep,
      List.drop_append_of_le_length (Nat.sub_le _ _), ungathered]
  unfold chunked
  rw [hgathered, hungathered, List.length_append, List.length_singleton,
    if_congr hlong rfl rfl, Array.append_assoc]
  simp

theorem length_ungathered_push (vs : List Value) :
    ((ungathered vs).toArray ++ #[v]).size =
      if (vs.length + 1) % chunkLength = 0 then chunkLength else (vs.length + 1) % chunkLength := by
  simp only [ungathered, Array.size_append, List.size_toArray, List.length_drop]
  split <;> simp only [chunkLength, List.length_singleton] at * <;> omega

/-! ## Long arrays -/

/-- Two arrays are joined. -/
theorem Performs.joins {vs ws : Array Value}
    (hi : program.instruction? a = some ⟨.add, .stack, .stack, .stack⟩)
    (h : Performs program cs (c.plus (a + 1) #[.array (vs ++ ws)]) c x w post) :
    Performs program cs (c.plus a #[.array vs, .array ws]) c x w post := by
  have hadd : Performs program cs ((c.plus a #[]).plus a
      (Operand.stack.received (.array vs) ++ Operand.stack.received (.array ws))) (c.plus a #[])
      (put program (c.plus a #[]) .stack (.array (vs ++ ws))) w _ :=
    .binary (f := BinaryOp.add.apply) (.inl rfl) (.inl rfl) hi rfl
  rw [Context.plus_plus] at hadd
  exact pushes hadd h

/-- The code behind an element of a long array gathers a chunk that is full, or the last. -/
theorem Performs.gathers {isDone : Bool} (hg : program.Gathers (ws.length + 1) isDone a b)
    (h : Performs program cs (c.plus b (heldOf isDone (ws ++ [v]))) c x w post) :
    Performs program cs (c.plus a (chunked ws ++ #[v])) c x w post := by
  obtain ⟨hcode, rfl⟩ := hg
  unfold gather at hcode h
  by_cases hfull : (ws.length + 1) % chunkLength = 0 ∨ isDone = true
  · have hheld : heldOf isDone (ws ++ [v]) = #[.array (ws ++ [v]).toArray] := by
      cases isDone with
      | true => rfl
      | false =>
        exact chunked_of_full (by simpa using hfull.resolve_right Bool.false_ne_true) (by simp)
    rw [hheld] at h
    rw [if_pos hfull] at hcode h
    have hmake : program.instruction? a = some ⟨.makeArray, .stack, ⟨.immediate,
        (if (ws.length + 1) % chunkLength = 0 then chunkLength
          else (ws.length + 1) % chunkLength : Nat)⟩, .unused⟩ := by
      dsimp only at hcode
      split at hcode <;> exact hcode.1
    rw [chunked, Array.append_assoc, Context.plus_append]
    refine pushes (makeArray (length_ungathered_push ws) hmake) ?_
    by_cases hlong : chunkLength < ws.length + 1
    · rw [if_pos hlong] at hcode h
      rw [if_pos (Nat.le_of_lt_succ hlong)]
      refine joins hcode.2.1 ?_
      rwa [show (gathered ws).toArray ++ ((ungathered ws).toArray ++ #[v]) =
        (ws ++ [v]).toArray by simp [← List.append_assoc, gathered_append_ungathered]]
    · rw [if_neg hlong] at h
      have hshort : ungathered ws = ws := by
        rw [ungathered, Nat.mod_eq_of_lt (by omega), Nat.sub_self, List.drop_zero]
      rw [if_neg (by omega), Array.empty_append, hshort]
      simpa using h
  · rw [if_neg hfull] at h
    obtain rfl : isDone = false := by
      cases isDone with
      | true => exact absurd (.inr rfl) hfull
      | false => rfl
    rwa [← chunked_push fun hz => hfull (.inl hz)]

/-- The code of the elements of a long array behind `vs`, which gathers them all. -/
def DoesChunks (program : Program) (l : Locals) (base stop : Nat) (vs : List Value)
    (isDone : Bool) (xs : Walk (List Value)) : Prop :=
  ∀ (c : Context) (cs : Array Context) (w : World), l.Fits c.frames →
    Performs program cs (c.plus base (heldOf isDone vs)) c xs w fun ws _ c' =>
      c' = c.plus stop #[.array (vs ++ ws).toArray]

theorem DoesChunks.nil {vs : List Value} : DoesChunks program l base base vs true (pure []) := by
  intro c cs w hl
  refine .pure ?_
  rw [List.append_nil]
  rfl

theorem DoesChunks.cons {vs : List Value} {isDone : Bool}
    (hy : Does program l base .stack .stack a y) (hg : program.Gathers (vs.length + 1) isDone a b)
    (hxs : ∀ v, DoesChunks program l b stop (vs ++ [v]) isDone xs) :
    DoesChunks program l base stop vs false (do
      let v ← y
      let vs ← xs
      return v :: vs) := by
  intro c cs w hl
  refine (hy.run hl).bind fun v w₁ c₁ _ ⟨hc₁, _⟩ => ?_
  rw [hc₁]
  refine .gathers hg ?_
  refine (hxs v c cs w₁ hl).bind fun ws w₂ c₂ _ hc₂ => .pure ?_
  rw [hc₂, List.append_assoc]
  rfl

theorem Does.longArray (hxs : DoesChunks program l base a [] false xs)
    (hc : program.Carries .stack dest a stop) :
    Does program l base dest dest stop (do return .array (← xs).toArray) := by
  rintro c cs w rfl hl
  have hx := hxs c cs w hl
  rw [show c.plus c.ip (heldOf false []) = c from c.plus_self] at hx
  rw [settle_self, bind_assoc]
  refine hx.bind fun vs w₁ c₁ _ hc₁ => ?_
  rw [pure_bind, hc₁]
  exact .carry hc (.inl rfl)

end

end YieldMachine
