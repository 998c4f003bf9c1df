import YieldMachine.Proofs.Flow.Session
import YieldMachine.Proofs.Run.Floor

/-!
# Staying in a piece of code

A piece of code that leads from a shape to another one does so in any program that holds
it, also in one whose other words are no instructions. So an activation that has come
into the piece stays there until it has run to its end, and it does not touch values and
loops that it found when it came.

    program.clip lo hi           the program with nothing but what stands from `lo` to `hi`
    program.within lo hi d h ls  the activation behind `d` calls is in that piece
-/

namespace YieldMachine

/-! ## Definitions -/

/-- A word that is no instruction. -/
def Word.blank : Word := 0xFFFFFFFFFFFFFFFF

/-- The program with blank words before `lo` and from `hi` on. -/
def Program.clip (program : Program) (lo hi : Nat) : Program :=
  { program with
    code := program.code.mapIdx fun ip w => if lo ≤ ip ∧ ip < hi then w else Word.blank }

/-- The shape on top of `h` values and other loops. -/
def Shape.above (s : Shape) (h : Nat) (ls : List (Option Nat)) : Shape :=
  ⟨s.home, h + s.height, s.loops ++ ls⟩

/-- The end of a piece of code that leaves one value. -/
def Arrives (hi ip : Nat) (s : Shape) : Prop :=
  ip = hi ∧ s.height = 1 ∧ s.loops = []

/-- The activation behind `d` calls is in a piece of code, on top of `h` values and the
loops `ls`; the others are at safe places. -/
def Program.within (program : Program) (lo hi d h : Nat) (ls : List (Option Nat)) : Footing :=
  fun depth ip s =>
    if depth = d then ∃ s₀, Safe (program.clip lo hi) (Arrives hi) ip s₀ ∧ s = s₀.above h ls
    else program.footing depth ip s

/-! ## Clipped programs -/

section

variable {program : Program} {lo hi ip base : Nat} {code : List Instruction}

theorem Word.decode_blank : (Instruction.decode Word.blank).toOption = none := by
  decide

theorem Program.instruction?_clip : (program.clip lo hi).instruction? ip =
    if lo ≤ ip ∧ ip < hi then program.instruction? ip else none := by
  unfold Program.instruction? Program.clip
  dsimp only
  rw [Array.getElem?_mapIdx]
  cases program.code[ip]? with
  | none => simp
  | some w =>
    dsimp only [Option.map_some]
    split
    · rfl
    · exact Word.decode_blank

theorem Program.Holds.clip (h : program.Holds base code) (hlo : lo ≤ base)
    (hhi : base + code.length ≤ hi) : (program.clip lo hi).Holds base code := by
  induction code generalizing base with
  | nil => exact trivial
  | cons i code ih =>
    rw [List.length_cons] at hhi
    refine ⟨?_, ih h.2 (by omega) (by omega)⟩
    rw [Program.instruction?_clip, if_pos (by omega)]
    exact h.1

/-- What is safe in a clipped program has come to the end, or is inside the piece. -/
theorem Safe.inside {s : Shape} (h : Safe (program.clip lo hi) (Arrives hi) ip s) :
    Arrives hi ip s ∨ ∃ i, program.instruction? ip = some i ∧ lo ≤ ip ∧ ip < hi ∧ i.Admits s ∧
      ∀ t ∈ i.successors ip s, Safe (program.clip lo hi) (Arrives hi) t.1 t.2 := by
  rcases h.cases with harrives | ⟨i, hi, -, hadm, hsucc⟩
  · exact .inl harrives
  · rw [Program.instruction?_clip] at hi
    split at hi
    · next hin => exact .inr ⟨i, hi, hin.1, hin.2, hadm, hsucc⟩
    · cases hi

end

/-! ## Shapes on top of others -/

section

variable {i : Instruction} {s : Shape} {h ip : Nat} {ls : List (Option Nat)}

theorem Instruction.Admits.above (hadm : i.Admits s) : i.Admits (s.above h ls) := by
  obtain ⟨htakes, heffect⟩ := hadm
  refine ⟨Nat.le_trans htakes (Nat.le_add_left _ _), ?_⟩
  cases he : i.effect <;> rw [he] at heffect <;> try exact trivial
  case spawn =>
    obtain ⟨k, rest, hk⟩ := heffect
    exact ⟨k, rest ++ ls, by rw [Shape.above, hk]; rfl⟩
  case resume =>
    obtain ⟨k, rest, hk, hlt⟩ := heffect
    exact ⟨k, rest ++ ls, by rw [Shape.above, hk]; rfl, hlt⟩
  case endIteration => exact heffect
  case closeGroup =>
    obtain ⟨rest, hk⟩ := heffect
    exact ⟨rest ++ ls, by rw [Shape.above, hk]; rfl⟩

theorem Shape.after_above (htakes : i.takes ≤ s.height) :
    (s.above h ls).after i = (s.after i).above h ls := by
  unfold Shape.after Shape.above
  dsimp only
  congr 1
  omega

/-- What is on top of other values and loops goes on on top of them. -/
theorem Instruction.continues_above {t : Nat × Shape} (hadm : i.Admits s)
    (ht : t ∈ i.continues ip (s.above h ls)) :
    ∃ s', (t.1, s') ∈ i.continues ip s ∧ t.2 = s'.above h ls := by
  have hloop : i.effect = .spawn ∨ i.effect = .resume → ∃ k rest, s.loops = some k :: rest := by
    rintro (he | he)
    · exact Context.admits_spawn he hadm
    · obtain ⟨k, rest, hk, -⟩ := Context.admits_resume he hadm
      exact ⟨k, rest, hk⟩
  obtain ⟨htakes, heffect⟩ := hadm
  have hafter : (s.above h ls).after i = (s.after i).above h ls := Shape.after_above htakes
  unfold Instruction.continues at ht ⊢
  dsimp only at ht ⊢
  cases he : i.effect <;> rw [he] at ht heffect <;> dsimp only at ht heffect ⊢
  case jump =>
    cases List.mem_singleton.1 ht
    exact ⟨s, List.mem_singleton.2 rfl, rfl⟩
  case jumpIfFalse =>
    rcases List.mem_cons.1 ht with rfl | ht
    · exact ⟨_, List.mem_cons_self, hafter⟩
    · cases List.mem_singleton.1 ht
      exact ⟨_, List.mem_cons_of_mem _ List.mem_cons_self, hafter⟩
  case openGroup =>
    cases List.mem_singleton.1 ht
    exact ⟨_, List.mem_singleton.2 rfl, rfl⟩
  case spawn | resume =>
    obtain ⟨k, rest, hk⟩ := hloop (by simp [he])
    have hk' : (s.above h ls).loops = some k :: (rest ++ ls) := by rw [Shape.above, hk]; rfl
    rw [hk'] at ht
    rw [hk]
    dsimp only at ht ⊢
    rcases List.mem_cons.1 ht with rfl | ht
    · exact ⟨_, List.mem_cons_self, rfl⟩
    · cases List.mem_singleton.1 ht
      exact ⟨_, List.mem_cons_of_mem _ List.mem_cons_self, rfl⟩
  case closeGroup =>
    obtain ⟨rest, hk⟩ := heffect
    have hk' : (s.above h ls).loops = none :: (rest ++ ls) := by rw [Shape.above, hk]; rfl
    rw [hk'] at ht
    rw [hk]
    cases List.mem_singleton.1 ht
    exact ⟨_, List.mem_singleton.2 rfl, rfl⟩
  case ret | exit | endIteration => cases ht
  all_goals
    cases List.mem_singleton.1 ht
    exact ⟨_, List.mem_singleton.2 rfl, hafter⟩

end

/-! ## Footings -/

section

variable {program : Program} {lo hi d depth h ip : Nat} {ls : List (Option Nat)} {i : Instruction}

theorem Program.within_self {s : Shape} : program.within lo hi d h ls d ip s ↔
    ∃ s₀, Safe (program.clip lo hi) (Arrives hi) ip s₀ ∧ s = s₀.above h ls := by
  rw [Program.within, if_pos rfl]

theorem Program.within_of_ne {s : Shape} (hne : depth ≠ d) :
    program.within lo hi d h ls depth ip s ↔ program.footing depth ip s := by
  rw [Program.within, if_neg hne]

/-- Until the piece has come to its end, its instructions keep the activation in it. -/
theorem Program.supports_within (hi' : program.instruction? ip = some i)
    (hend : depth = d → ip ≠ hi) : Supports (program.within lo hi d h ls) depth ip i := by
  by_cases hd : depth = d
  · subst hd
    intro s hs
    obtain ⟨s₀, hsafe, rfl⟩ := Program.within_self.1 hs
    rcases hsafe.inside with ⟨hip, -⟩ | ⟨j, hj, -, -, hadm, hsucc⟩
    · exact absurd hip (hend rfl)
    · cases hi'.symm.trans hj
      refine ⟨hadm.above, fun t ht => ?_⟩
      obtain ⟨s', hs', heq⟩ := Instruction.continues_above hadm ht
      exact Program.within_self.2 ⟨s', hsucc _ (List.mem_append_right _ hs'), heq⟩
  · intro s hs
    obtain ⟨hadm, hcont⟩ := program.supports hi' s ((Program.within_of_ne hd).1 hs)
    exact ⟨hadm, fun t ht => (Program.within_of_ne hd).2 (hcont t ht)⟩

/-- A loop that the activation waits in is one that it opened in the piece. -/
theorem Program.within_awaits {k : Nat} {s : Shape} {c : Context} {p : Pending}
    (ha : c.Awaits (program.within lo hi d h ls) p k s) (hd : c.calls.size = d) :
    ls.length < s.loops.length ∧ c.ip ≠ hi ∧ lo ≤ c.ip ∧ c.ip < hi := by
  obtain ⟨rest, hloops, hnext, hdrop⟩ := ha.loops
  subst hd
  obtain ⟨s₀, hsafe, heq⟩ := Program.within_self.1 hnext
  obtain ⟨s₁, -, heq'⟩ := Program.within_self.1 hdrop
  have hnext' : some k :: rest = s₀.loops ++ ls := by
    rw [← hloops]
    exact congrArg Shape.loops heq
  have hdrop' : none :: rest = s₁.loops ++ ls := congrArg Shape.loops heq'
  -- the same loops below: otherwise the loop that is left would be the one that goes on
  have hne : s₀.loops ≠ [] := by
    intro hnil
    rw [hnil, List.nil_append] at hnext'
    have hlen := congrArg List.length hdrop'
    rw [← hnext', List.length_append, List.length_cons, List.length_cons] at hlen
    have hnil' : s₁.loops = [] := List.length_eq_zero_iff.1 (by omega)
    rw [hnil', List.nil_append, ← hnext'] at hdrop'
    cases hdrop'
  have hpos := List.length_pos_iff.2 hne
  refine ⟨?_, ?_⟩
  · rw [hloops, hnext', List.length_append]
    omega
  · rcases hsafe.inside with ⟨-, -, hnil⟩ | ⟨i, -, hlo, hhi, -⟩
    · exact absurd hnil hne
    · exact ⟨Nat.ne_of_lt hhi, hlo, hhi⟩

end

/-! ## Contexts on a footing -/

section

variable {P P' : Footing} {base : Home} {Q : Shape → Prop} {calls : List CallRecord}
  {height frames : Nat} {ls : List (Option Nat)} {c d : Context} {i : Instruction}

/-- Only the footing of the calls behind the innermost matters. -/
theorem Stacked.congr (hp : ∀ k, k < calls.length → ∀ ip s, P k ip s → P' k ip s)
    (h : Stacked P base Q calls height frames ls) : Stacked P' base Q calls height frames ls := by
  induction calls generalizing Q height frames ls with
  | nil => exact h
  | cons r calls ih =>
    obtain ⟨k, own, rest, hheight, hls, hlen, hf, hq, hrest⟩ := h
    refine ⟨k, own, rest, hheight, hls, hlen, hf, hq, ?_⟩
    refine (ih (fun k hk => hp k (Nat.lt_succ_of_lt hk)) hrest).mono fun s hs => ?_
    exact hp _ (Nat.lt_succ_self _) _ s hs

/-- What the innermost activation has on the stack, and its loops. -/
theorem Stacked.heights (h : Stacked P base Q calls height frames ls) :
    ∃ s, Q s ∧ height = calls.head?.elim 0 CallRecord.stackBase + s.height ∧
      ls.length = calls.head?.elim 0 CallRecord.loopDepth + s.loops.length := by
  cases calls with
  | nil => exact ⟨⟨base, height, ls⟩, h, by simp, by simp⟩
  | cons r calls =>
    obtain ⟨k, own, rest, rfl, rfl, hlen, -, hq, -⟩ := h
    exact ⟨_, hq, rfl, by rw [List.length_append, hlen]; exact Nat.add_comm _ _⟩

/-- Whatever a context does, it stands or waits on its footing again. -/
theorem Context.Poised.turn {F : Func → Prop} (h : c.Poised P base)
    (hs : Supports P c.calls.size c.ip i)
    (henter : ∀ f, F f → P (c.calls.size + 1) f.entry .body) (ht : c.Turn F i d) :
    d.Poised P base ∨ d.Awaiting P base := by
  cases ht with
  | stay hl ht hk => exact .inl (h.stay hs hl ht hk)
  | enter he hf => exact .inl (h.enter hs he (henter _ hf) _)
  | leave he hr => exact .inl ((h.leaves hs hr).left h.pending _)
  | openGroup he => exact .inl (h.openGroup hs he)
  | spawn he hg =>
    obtain ⟨group, hg', ha⟩ := h.spawn hs he
    cases hg.symm.trans hg'
    exact .inr ha
  | yield he => exact .inl (h.yields hs he)
  | resume he hp => exact .inr (h.resume hs he).2
  | closeGroup he hg => exact .inl (h.closeGroup hs he).2

/-- A context that wakes stands on its footing again. -/
theorem Context.Awaiting.wake (h : c.Awaiting P base) (hw : c.Wake i d) : d.Poised P base := by
  cases hw with
  | yield he hp => exact h.yielded hp _ _
  | endIteration he hp => exact h.dropped hp
  | leave he hr => exact (h.leaves hr).left rfl _

end

end YieldMachine
