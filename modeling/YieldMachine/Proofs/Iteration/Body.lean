import YieldMachine.Proofs.Iteration.Stages
import YieldMachine.Proofs.Run.Stretch

/-!
# The body of a loop

The body of a loop is a stretch of code that its context comes to behind a complete round.
It rests on what the loop found when it began and on its group, and when it has come to its
end with one value on the stack the next round begins.

    Held.step     a step keeps the body running
    Held.inside   in its own activation it is in its code, or has come to its end
-/

namespace YieldMachine

variable {program : Program} {F : Func → Prop} {i : Instruction} {m m' : Machine} {seat : Seat}
  {l : Loop} {c₀ c c' : Context} {p : Loop.Progress} {refs : List Ref} {iterators : List Node}
  {body : Node}

/-! ## Definitions -/

/-- The footing of a context that runs the body: in its own activation it is in the code of
the body, on top of `h` values and of the loops `ls`. -/
def Loop.footing (l : Loop) (program : Program) (c₀ : Context) (h : Nat)
    (ls : List (Option Nat)) : Footing :=
  program.within l.bodyAt (l.resumeAt 0) c₀.calls.size h ls

/-- What the activation that runs the loop has on the stack and in loops, the loop included. -/
structure Loop.Based (c₀ : Context) (h : Nat) (ls : List (Option Nat)) : Prop where
  stack : c₀.stack.size = (inward c₀.calls).head?.elim 0 CallRecord.stackBase + h
  loops : c₀.loops.size + 1 = (inward c₀.calls).head?.elim 0 CallRecord.loopDepth + ls.length

/-- A context runs the body of a loop. -/
structure Loop.Held (l : Loop) (program : Program) (c₀ : Context) (p : Progress) (c : Context) :
    Prop where
  rests : c.RestsOn (p.floor c₀)
  stands : ∃ (home : Home) (h : Nat) (ls : List (Option Nat)), Loop.Based c₀ h ls ∧
    (c.Poised (l.footing program c₀ h ls) home ∨ c.Awaiting (l.footing program c₀ h ls) home)

/-! ## The stretch of the body -/

/-- The code of the body leaves its value. -/
theorem Loop.In.valued (hl : l.In program refs iterators body) :
    program.Valued l.bodyAt (l.resumeAt 0) := by
  obtain ⟨code, r, hcode, hbody⟩ := hl.body
  obtain ⟨-, -, -, -, hholds, -⟩ := hl.parts
  rw [l.resumeAt_zero, hbody]
  exact hcode.valued (hbody ▸ hholds)

namespace Loop

variable {r k : Nat} {v : Value} {vs : List Value} {ps : List Context}

/-- A context runs the body if it is on its way from where the pass left it. -/
theorem held_iff : l.Held program c₀ ⟨r, k, v, vs, ps, .body⟩ c ↔
    c.Amid program (l.context c₀ ⟨r, k, v, vs, ps, .body⟩) (l.resumeAt 0) := by
  have hloops : (l.context c₀ ⟨r, k, v, vs, ps, .body⟩).loops.size = c₀.loops.size + 1 :=
    Array.size_push _
  constructor
  · rintro ⟨hrests, home, h, ls, hbased, hstands⟩
    exact ⟨hrests, home, h, ls, ⟨hbased.stack, hloops.trans hbased.loops⟩, hstands⟩
  · rintro ⟨hrests, home, h, ls, hbased, hstands⟩
    exact ⟨hrests, home, h, ls, ⟨hbased.stack, hloops.symm.trans hbased.loops⟩, hstands⟩

/-- The context of the loop comes to the body as the pass leaves it. -/
theorem Held.enter (hl : l.In program refs iterators body) (hs : m.Sound program)
    (ha : m.active = l.context c₀ ⟨r, k, v, vs, ps, .body⟩) :
    l.Held program c₀ ⟨r, k, v, vs, ps, .body⟩ m.active := by
  rw [held_iff, ← ha]
  exact Context.Amid.enter hs (by rw [ha]; exact hl.valued)

/-- In its own activation the context is in the code of the body, or the body has come to its
end and the next round begins. -/
theorem Held.inside (h : l.Held program c₀ ⟨r, k, v, vs, ps, .body⟩ c)
    (hd : c.calls.size = c₀.calls.size) :
    (c.ip = l.resumeAt 0 ∧ ∃ w, c = l.context c₀ ⟨r + 1, 0, w, [], ps, .advance⟩) ∨
      (l.bodyAt ≤ c.ip ∧ c.ip < l.resumeAt 0) := by
  rcases (held_iff.1 h).inside rfl hd with ⟨w, rfl⟩ | hin
  · exact .inl ⟨rfl, w, rfl⟩
  · exact .inr hin

/-- A step that leaves the activation of the loop there keeps the body running. -/
theorem Held.step (hs : m.Sound program) (hheld : l.Held program c₀ ⟨r, k, v, vs, ps, .body⟩ c)
    (hc : m.seat? seat = some c) (hi : program.instruction? m.active.ip = some i)
    (hm : Move program program.Trusts i m m') (hc' : m'.seat? (m.reseat i seat) = some c')
    (hend : c.calls.size = c₀.calls.size → c.ip ≠ l.resumeAt 0)
    (hd : c₀.calls.size ≤ c'.calls.size) : l.Held program c₀ ⟨r, k, v, vs, ps, .body⟩ c' :=
  held_iff.2 ((held_iff.1 hheld).step hs hc hi hm hc' hend hd)

theorem length_floor_loops : (p.floor c₀).loops.length = c₀.loops.size + 1 := by
  rw [Progress.floor, Array.length_toList, Array.size_push]

end Loop

end YieldMachine
