import Mathlib.Data.List.Forall2
import YieldMachine.Proofs.Machine.Move

/-!
# Shapes of contexts

The stack, the frames and the groups of a context are cut into the parts of its
activations by the records of its calls. A context is poised when every activation
stands at a place that suits its part: the innermost where the context goes on, the
others where they go on once the call they made returns. A context that awaits a
producer suits both ways it may go on.

What suits is a parameter: `P d ip s` says so of the activation with `d` calls below it.
-/

namespace YieldMachine

/-! ## Innermost first -/

/-- What is pushed last stands innermost. -/
def inward {α : Type} (xs : Array α) : List α :=
  xs.toList.reverse

section

variable {α : Type} {xs : Array α} {x : α} {rest : List α}

@[simp] theorem length_inward (xs : Array α) : (inward xs).length = xs.size := by
  simp [inward]

@[simp] theorem inward_push (xs : Array α) (x : α) : inward (xs.push x) = x :: inward xs := by
  simp [inward]

theorem mem_inward : x ∈ inward xs ↔ x ∈ xs := by
  simp [inward]

theorem inward_eq_cons : inward xs = x :: rest ↔ xs.back? = some x ∧ inward xs.pop = rest := by
  obtain ⟨xs⟩ := xs
  unfold inward
  rcases List.eq_nil_or_concat xs with rfl | ⟨ys, y, rfl⟩
  · simp
  · simp [Array.back?]

theorem inward_shrink (xs : Array α) (n : Nat) :
    inward (xs.shrink n) = (inward xs).drop (xs.size - n) := by
  unfold inward
  rw [Array.toList_shrink, List.drop_reverse, Array.length_toList]
  rcases Nat.le_total n xs.size with h | h
  · rw [show xs.size - (xs.size - n) = n by omega]
  · rw [show xs.size - n = 0 by omega, Nat.sub_zero, List.take_of_length_le (by simpa using h),
      List.take_of_length_le (by simp)]

/-- What was pushed before an element stands behind it. -/
theorem cons_inward_suffix {ys : Array α} {k : Nat} (hk : xs[k]? = some x)
    (hys : ys.toList = xs.toList.take k) : x :: inward ys <:+ inward xs := by
  rw [← Array.getElem?_toList] at hk
  obtain ⟨hlt, hx⟩ := List.getElem?_eq_some_iff.1 hk
  have hsplit : xs.toList = ys.toList ++ x :: xs.toList.drop (k + 1) := by
    rw [hys, ← hx, ← List.drop_eq_getElem_cons hlt]
    exact (List.take_append_drop k xs.toList).symm
  unfold inward
  rw [hsplit, List.reverse_append, List.reverse_cons, List.append_assoc]
  exact ⟨_, rfl⟩

theorem inward_modify (h : inward xs = x :: rest) (f : α → α) :
    inward (xs.modify (xs.size - 1) f) = f x :: rest := by
  obtain ⟨xs⟩ := xs
  have hxs : xs = rest.reverse ++ [x] := by
    have := congrArg List.reverse h
    simpa [inward] using this
  subst hxs
  simp [inward, List.modify_eq_take_drop]

end

/-! ## Activations -/

/-- What suits the activations of a context, by the number of calls below them. -/
abbrev Footing := Nat → Nat → Shape → Prop

/-- A context whose calls are given, the innermost first, has this height, so many frames
and these loops, and suits `Q` innermost and `P` where its calls return to. -/
def Stacked (P : Footing) (base : Home) (Q : Shape → Prop) :
    List CallRecord → Nat → Nat → List (Option Nat) → Prop
  | [], height, _, ls => Q ⟨base, height, ls⟩
  | r :: calls, height, frames, ls =>
    ∃ (h : Nat) (own rest : List (Option Nat)), height = r.stackBase + h ∧ ls = own ++ rest ∧
      rest.length = r.loopDepth ∧ r.frameDepth ≤ frames ∧ Q ⟨.body, h, own⟩ ∧
      Stacked P base (P calls.length r.returnIp) calls (r.stackBase + 1) r.frameDepth rest

section

variable {P P' : Footing} {base : Home} {Q Q' : Shape → Prop} {calls : List CallRecord}
  {height frames : Nat} {ls : List (Option Nat)}

/-- Only the innermost part of a context matters while no call is made or left. -/
theorem Stacked.top (h : Stacked P base Q calls height frames ls) :
    ∃ (s : Shape) (b : Nat) (rest : List (Option Nat)), Q s ∧
      s.home = (if calls.isEmpty then base else .body) ∧ height = b + s.height ∧
      ls = s.loops ++ rest ∧ ∀ (Q' : Shape → Prop) (h' frames' : Nat) (own' : List (Option Nat)),
        frames ≤ frames' → Q' ⟨s.home, h', own'⟩ →
          Stacked P base Q' calls (b + h') frames' (own' ++ rest) := by
  cases calls with
  | nil =>
    refine ⟨⟨base, height, ls⟩, 0, [], h, rfl, by simp, by simp, ?_⟩
    intro Q' h' frames' own' _ hq
    simpa [Stacked] using hq
  | cons r calls =>
    obtain ⟨k, own, rest, rfl, rfl, hlen, hf, hq, hrest⟩ := h
    refine ⟨⟨.body, k, own⟩, r.stackBase, rest, hq, rfl, rfl, rfl, ?_⟩
    intro Q' h' frames' own' hle hq'
    exact ⟨h', own', rest, rfl, rfl, hlen, Nat.le_trans hf hle, hq', hrest⟩

theorem Stacked.mono (hq : ∀ s, Q s → Q' s) (h : Stacked P base Q calls height frames ls) :
    Stacked P base Q' calls height frames ls := by
  obtain ⟨s, b, rest, hs, -, rfl, rfl, hback⟩ := h.top
  exact hback Q' s.height frames s.loops (Nat.le_refl _) (hq s hs)

/-- The innermost activation began with all groups that are not its own. -/
theorem Stacked.loopDepth_le (h : Stacked P base Q calls height frames ls) :
    ∃ s rest, Q s ∧ ls = s.loops ++ rest ∧ ∀ r ∈ calls, r.loopDepth ≤ rest.length := by
  induction calls generalizing Q height frames ls with
  | nil => exact ⟨⟨base, height, ls⟩, [], h, by simp, by simp⟩
  | cons r calls ih =>
    obtain ⟨k, own, rest, -, rfl, hlen, -, hq, hrest⟩ := h
    obtain ⟨s, outer, -, rfl, hdepth⟩ := ih hrest
    refine ⟨⟨.body, k, own⟩, _, hq, rfl, List.forall_mem_cons.2
      ⟨Nat.le_of_eq hlen.symm, fun r' hr' => ?_⟩⟩
    rw [List.length_append]
    exact Nat.le_trans (hdepth r' hr') (Nat.le_add_left _ _)

end

/-! ## Groups -/

/-- A group is as full as a shape says: all producers are parked, or it is being left. -/
def Fills : Option Nat → Group → Prop
  | none, _ => True
  | some k, group => group.size = k ∧ ∀ j, j < k → ∃ p, group[j]? = some (some p)

/-- A group with one slot whose producer is not parked. -/
def FillsBut (slot k : Nat) (group : Group) : Prop :=
  group.size = k ∧ group[slot]? = some none ∧
    ∀ j, j < k → j ≠ slot → ∃ p, group[j]? = some (some p)

/-! ## Contexts -/

/-- The context stands where it may go on. -/
structure Context.Poised (P : Footing) (base : Home) (c : Context) : Prop where
  pending : c.pending = none
  stacked : ∃ ls, Stacked P base (P c.calls.size c.ip) (inward c.calls) c.stack.size
    c.frames.size ls ∧ List.Forall₂ Fills ls (inward c.loops)

/-- The context may go on where its producer's value is taken, and where the loop is left. -/
structure Context.Awaits (P : Footing) (c : Context) (p : Pending) (k : Nat) (s : Shape) :
    Prop where
  loops : ∃ rest, s.loops = some k :: rest ∧ P c.calls.size c.ip (s.up 1) ∧
    P c.calls.size p.onDrop (s.within (none :: rest))

/-- The context waits for the producer of one slot of its innermost group. -/
structure Context.Awaiting (P : Footing) (base : Home) (c : Context) : Prop where
  stacked : ∃ (p : Pending) (k : Nat) (rest : List (Option Nat)) (group : Group)
    (groups : List Group), c.pending = some p ∧
    Stacked P base (c.Awaits P p k) (inward c.calls) c.stack.size c.frames.size
      (some k :: rest) ∧
    (inward c.loops) = group :: groups ∧ FillsBut p.slot k group ∧
    List.Forall₂ Fills rest groups

/-- Wherever an activation suits, it admits the instruction, and suits the places it leads to. -/
def Supports (P : Footing) (d ip : Nat) (i : Instruction) : Prop :=
  ∀ s, P d ip s → i.Admits s ∧ ∀ t ∈ i.continues ip s, P d t.1 t.2

namespace Context

variable {P : Footing} {base : Home} {c : Context} {i : Instruction} {p : Pending}

/-! ## Staying in place -/

theorem Poised.takes_le (h : c.Poised P base) (hs : Supports P c.calls.size c.ip i) :
    i.takes ≤ c.stack.size := by
  obtain ⟨ls, hst, -⟩ := h.stacked
  obtain ⟨s, b, rest, hq, -, hheight, -, -⟩ := hst.top
  have := (hs s hq).1.1
  omega

theorem mem_continues_of_lands {ip t : Nat} {s : Shape} (hl : i.effect.IsLocal)
    (ht : i.Lands ip t) : (t, s.after i) ∈ i.continues ip s := by
  unfold Instruction.Lands at ht
  unfold Instruction.continues
  split at ht
  · next he =>
    have hz : s.after i = s := by
      unfold Shape.after Instruction.takes Instruction.gives
      rw [he]
      rfl
    simp [he, hz, ht]
  · next he =>
    rcases ht with rfl | rfl <;> simp [he]
  · next h₁ h₂ =>
    subst ht
    cases he : i.effect <;> rw [he] at hl <;> first
      | exact absurd he h₁
      | exact absurd he h₂
      | exact hl.elim
      | exact List.mem_singleton.2 rfl

theorem Poised.after {t : Nat} {vs : Array Value} (h : c.Poised P base)
    (hs : Supports P c.calls.size c.ip i)
    (ht : ∀ s : Shape, (t, s.after i) ∈ i.continues c.ip s) (hv : vs.size = i.gives) :
    ((c.moved t).swap i.takes vs).Poised P base := by
  obtain ⟨ls, hst, hf⟩ := h.stacked
  obtain ⟨s, b, rest, hq, -, hheight, rfl, hback⟩ := hst.top
  obtain ⟨hadm, hcont⟩ := hs s hq
  refine ⟨h.pending, s.loops ++ rest, ?_, hf⟩
  have hsize : ((c.moved t).swap i.takes vs).stack.size =
      b + (s.height - i.takes + i.gives) := by
    rw [Context.size_swap, hv]
    show c.stack.size - i.takes + i.gives = _
    have := hadm.1
    omega
  rw [hsize]
  exact hback _ _ _ _ (Nat.le_refl _) (hcont _ (ht s))

theorem Poised.stay {t : Nat} {vs : Array Value} (h : c.Poised P base)
    (hs : Supports P c.calls.size c.ip i) (hl : i.effect.IsLocal) (ht : i.Lands c.ip t)
    (hv : vs.size = i.gives) : ((c.moved t).swap i.takes vs).Poised P base :=
  h.after hs (fun _ => mem_continues_of_lands hl ht) hv

theorem Poised.awake (h : c.Poised P base) : c.awake.Poised P base :=
  ⟨rfl, h.stacked⟩

/-- A producer that hands over a value can go on behind its yield. -/
theorem Poised.yields (h : c.Poised P base) (hs : Supports P c.calls.size c.ip i)
    (he : i.effect = .yield) : (((c.moved (c.ip + 1)).swap i.takes #[]).awake).Poised P base := by
  refine (h.after hs (fun s => ?_) ?_).awake
  · simp [Instruction.continues, he]
  · rw [Instruction.gives, he]
    rfl

/-! ## Loops -/

theorem Poised.openGroup (h : c.Poised P base) (hs : Supports P c.calls.size c.ip i)
    (he : i.effect = .openGroup) :
    Context.Poised P base { c.moved (c.ip + 1) with loops := c.loops.push #[] } := by
  obtain ⟨ls, hst, hf⟩ := h.stacked
  obtain ⟨s, b, rest, hq, -, hheight, rfl, hback⟩ := hst.top
  obtain ⟨-, hcont⟩ := hs s hq
  refine ⟨h.pending, some 0 :: (s.loops ++ rest), ?_, ?_⟩
  · show Stacked P base _ _ c.stack.size _ _
    rw [hheight]
    refine hback _ _ _ (some 0 :: s.loops) (Nat.le_refl _) (hcont (c.ip + 1, _) ?_)
    simp only [Instruction.continues, he]
    exact List.mem_singleton.2 rfl
  · rw [inward_push]
    exact .cons ⟨rfl, fun j hj => absurd hj (Nat.not_lt_zero j)⟩ hf

/-- Inside a loop of the running activation there is an innermost group. -/
theorem Poised.inLoop (h : c.Poised P base) (hs : Supports P c.calls.size c.ip i)
    (hk : ∀ s, i.Admits s → s.loops ≠ []) :
    ∃ (s : Shape) (b : Nat) (ko : Option Nat) (own rest : List (Option Nat)) (group : Group)
      (groups : List Group), P c.calls.size c.ip s ∧ c.stack.size = b + s.height ∧
      s.loops = ko :: own ∧ inward c.loops = group :: groups ∧ Fills ko group ∧
      List.Forall₂ Fills (own ++ rest) groups ∧
      ∀ (Q' : Shape → Prop) (h' frames' : Nat) (own' : List (Option Nat)),
        c.frames.size ≤ frames' → Q' ⟨s.home, h', own'⟩ →
          Stacked P base Q' (inward c.calls) (b + h') frames' (own' ++ rest) := by
  obtain ⟨ls, hst, hf⟩ := h.stacked
  obtain ⟨s, b, rest, hq, -, hheight, rfl, hback⟩ := hst.top
  cases hown : s.loops with
  | nil => exact absurd hown (hk s (hs s hq).1)
  | cons ko own =>
    rw [hown, List.cons_append] at hf
    cases hl : inward c.loops with
    | nil =>
      rw [hl] at hf
      cases hf
    | cons group groups =>
      rw [hl] at hf
      cases hf with
      | cons hfill hrest =>
        exact ⟨s, b, ko, own, rest, group, groups, hq, hheight, hown, rfl, hfill, hrest, hback⟩

theorem admits_closeGroup (he : i.effect = .closeGroup) {s : Shape} (h : i.Admits s) :
    ∃ rest, s.loops = none :: rest := by
  have h := h.2
  rw [he] at h
  exact h

theorem admits_spawn (he : i.effect = .spawn) {s : Shape} (h : i.Admits s) :
    ∃ k rest, s.loops = some k :: rest := by
  have h := h.2
  rw [he] at h
  exact h

theorem admits_resume (he : i.effect = .resume) {s : Shape} (h : i.Admits s) :
    ∃ k rest, s.loops = some k :: rest ∧ i.a.address.toNat < k := by
  have h := h.2
  rw [he] at h
  exact h

theorem Poised.closeGroup (h : c.Poised P base) (hs : Supports P c.calls.size c.ip i)
    (he : i.effect = .closeGroup) :
    (∃ group, c.loops.back? = some group) ∧ ((c.moved (c.ip + 1)).closeGroup).Poised P base := by
  obtain ⟨s, b, ko, own, rest, group, groups, hq, hheight, hown, hl, -, hrest, hback⟩ :=
    h.inLoop hs fun s ha => by
      obtain ⟨rest, hr⟩ := admits_closeGroup he ha
      simp [hr]
  obtain ⟨hadm, hcont⟩ := hs s hq
  refine ⟨⟨group, (inward_eq_cons.1 hl).1⟩, ?_⟩
  obtain ⟨ip, stack, frames, calls, loops, pending⟩ := c
  refine ⟨h.pending, own ++ rest, ?_, ?_⟩
  · show Stacked P base _ _ stack.size _ _
    rw [show stack.size = b + s.height from hheight]
    refine hback _ _ _ own (Nat.le_refl _) (hcont (ip + 1, s.within own) ?_)
    simp [Instruction.continues, he, hown]
  · show List.Forall₂ Fills (own ++ rest) (inward loops.pop)
    rw [(inward_eq_cons.1 hl).2]
    exact hrest

theorem Poised.spawn (h : c.Poised P base) (hs : Supports P c.calls.size c.ip i)
    (he : i.effect = .spawn) :
    ∃ group, c.loops.back? = some group ∧
      ((c.openSlot.moved (Program.jumpTarget c.ip i.a)).waiting
        ⟨group.size, Program.jumpTarget c.ip i.b⟩).Awaiting P base := by
  obtain ⟨s, b, ko, own, rest, group, groups, hq, hheight, hown, hl, hfill, hrest, hback⟩ :=
    h.inLoop hs fun s ha => by
      obtain ⟨k, rest, hr⟩ := admits_spawn he ha
      simp [hr]
  obtain ⟨hadm, hcont⟩ := hs s hq
  obtain ⟨k, own', hk⟩ := admits_spawn he hadm
  rw [hown] at hk
  cases hk
  obtain ⟨rfl, hparked⟩ := hfill
  refine ⟨group, (inward_eq_cons.1 hl).1, ?_⟩
  obtain ⟨ip, stack, frames, calls, loops, pending⟩ := c
  refine ⟨⟨_, group.size + 1, own ++ rest, group.push none, groups, rfl, ?_, inward_modify hl _, ?_, hrest⟩⟩
  · show Stacked P base _ _ stack.size _ _
    rw [show stack.size = b + s.height from hheight]
    refine hback _ _ _ (some (group.size + 1) :: own) (Nat.le_refl _) ⟨own, rfl, ?_, ?_⟩
    · refine hcont (Program.jumpTarget ip i.a, (s.up 1).within (some (group.size + 1) :: own)) ?_
      simp [Instruction.continues, he, hown]
    · refine hcont (Program.jumpTarget ip i.b, s.within (none :: own)) ?_
      simp [Instruction.continues, he, hown]
  · refine ⟨by simp, by simp, fun j hj hne => ?_⟩
    obtain ⟨p, hp⟩ := hparked j (Nat.lt_of_le_of_ne (Nat.le_of_lt_succ hj) hne)
    refine ⟨p, ?_⟩
    rw [Array.getElem?_push, if_neg hne, hp]

theorem Poised.resume (h : c.Poised P base) (hs : Supports P c.calls.size c.ip i)
    (he : i.effect = .resume) :
    (∃ producer, c.slot? i.a.address.toNat = some (some producer)) ∧
      (((c.moved (c.ip + 1)).setSlot i.a.address.toNat none).waiting
        ⟨i.a.address.toNat, Program.jumpTarget c.ip i.b⟩).Awaiting P base := by
  obtain ⟨s, b, ko, own, rest, group, groups, hq, hheight, hown, hl, hfill, hrest, hback⟩ :=
    h.inLoop hs fun s ha => by
      obtain ⟨k, rest, hr, -⟩ := admits_resume he ha
      simp [hr]
  obtain ⟨hadm, hcont⟩ := hs s hq
  obtain ⟨k, own', hk, hlt⟩ := admits_resume he hadm
  rw [hown] at hk
  cases hk
  obtain ⟨rfl, hparked⟩ := hfill
  refine ⟨?_, ?_⟩
  · obtain ⟨p, hp⟩ := hparked _ hlt
    refine ⟨p, ?_⟩
    rw [Context.slot?, (inward_eq_cons.1 hl).1]
    exact hp
  obtain ⟨ip, stack, frames, calls, loops, pending⟩ := c
  refine ⟨⟨_, group.size, own ++ rest, group.setIfInBounds i.a.address.toNat none, groups, rfl, ?_,
    inward_modify hl _, ?_, hrest⟩⟩
  · show Stacked P base _ _ stack.size _ _
    rw [show stack.size = b + s.height from hheight]
    refine hback _ _ _ (some group.size :: own) (Nat.le_refl _) ⟨own, rfl, ?_, ?_⟩
    · refine hcont (ip + 1, (s.up 1).within (some group.size :: own)) ?_
      simp [Instruction.continues, he, hown]
    · refine hcont (Program.jumpTarget ip i.b, s.within (none :: own)) ?_
      simp [Instruction.continues, he, hown]
  · refine ⟨by simp, by simp [hlt], fun j hj hne => ?_⟩
    obtain ⟨p, hp⟩ := hparked j hj
    refine ⟨p, ?_⟩
    rw [Array.getElem?_setIfInBounds, if_neg hne.symm, hp]

/-! ## Going on after a producer -/

theorem Awaiting.pending (h : c.Awaiting P base) :
    ∃ p, c.pending = some p ∧ c.slot? p.slot = some none := by
  obtain ⟨p, k, rest, group, groups, hp, -, hl, ⟨rfl, hempty, -⟩, -⟩ := h.stacked
  refine ⟨p, hp, ?_⟩
  rw [Context.slot?, (inward_eq_cons.1 hl).1]
  exact hempty

theorem Awaiting.yielded (h : c.Awaiting P base) (hp : c.pending = some p) (producer : Context)
    (v : Value) : (((c.setSlot p.slot (some producer)).awake).swap 0 #[v]).Poised P base := by
  obtain ⟨p', k, rest, group, groups, hp', hst, hl, ⟨rfl, hempty, hparked⟩, hrest⟩ := h.stacked
  rw [hp] at hp'
  cases hp'
  obtain ⟨hlt, -⟩ := Array.getElem?_eq_some_iff.1 hempty
  obtain ⟨ip, stack, frames, calls, loops, pending⟩ := c
  obtain ⟨s, b, outer, hq, -, hheight, hls, hback⟩ := hst.top
  obtain ⟨own, hown, hnext, -⟩ := hq.loops
  rw [hown, List.cons_append, List.cons.injEq] at hls
  obtain ⟨-, rfl⟩ := hls
  refine ⟨rfl, some group.size :: (own ++ outer), ?_, ?_⟩
  · have hsize : (Context.swap (Context.awake (Context.setSlot
        ⟨ip, stack, frames, calls, loops, pending⟩ p.slot (some producer))) 0 #[v]).stack.size =
        b + (s.height + 1) := by
      rw [Context.size_swap]
      show stack.size - 0 + 1 = _
      rw [show stack.size = b + s.height from hheight]
      omega
    rw [hsize]
    refine hback _ _ _ (some group.size :: own) (Nat.le_refl _) ?_
    rw [← hown]
    exact hnext
  · show List.Forall₂ Fills _ (inward (loops.modify (loops.size - 1) _))
    rw [inward_modify hl]
    refine .cons ⟨by simp, fun j hj => ?_⟩ hrest
    rw [Array.getElem?_setIfInBounds]
    by_cases hjs : p.slot = j
    · rw [if_pos hjs, if_pos hlt]
      exact ⟨producer, rfl⟩
    · rw [if_neg hjs]
      exact hparked j hj (fun h => hjs h.symm)

theorem Awaiting.dropped (h : c.Awaiting P base) (hp : c.pending = some p) :
    ((c.moved p.onDrop).awake).Poised P base := by
  obtain ⟨p', k, rest, group, groups, hp', hst, hl, -, hrest⟩ := h.stacked
  rw [hp] at hp'
  cases hp'
  obtain ⟨s, b, outer, hq, -, hheight, hls, hback⟩ := hst.top
  obtain ⟨own, hown, -, hdrop⟩ := hq.loops
  rw [hown, List.cons_append, List.cons.injEq] at hls
  obtain ⟨-, rfl⟩ := hls
  refine ⟨rfl, none :: (own ++ outer), ?_, ?_⟩
  · show Stacked P base _ _ c.stack.size _ _
    rw [hheight]
    exact hback _ _ _ (none :: own) (Nat.le_refl _) hdrop
  · show List.Forall₂ Fills _ (inward c.loops)
    rw [hl]
    exact .cons trivial hrest

/-! ## Calls -/

theorem Poised.enter {f : Func} (h : c.Poised P base) (hs : Supports P c.calls.size c.ip i)
    (he : i.effect = .call) (hf : P (c.calls.size + 1) f.entry .body) (id : FrameId) :
    (((c.moved (c.ip + 1)).swap i.b.cells #[]).enter f (c.stack.size - i.takes) id).Poised
      P base := by
  have htakes := h.takes_le hs
  have hcells : i.b.cells ≤ i.takes := by
    rw [Instruction.takes, he]
    exact Nat.le_add_right _ _
  obtain ⟨ls, hst, hf'⟩ := h.stacked
  obtain ⟨s, b, rest, hq, -, hheight, rfl, hback⟩ := hst.top
  obtain ⟨hadm, hcont⟩ := hs s hq
  have hnext : P c.calls.size (c.ip + 1) (s.after i) := by
    refine hcont (c.ip + 1, s.after i) (mem_continues_of_lands (he ▸ trivial) ?_)
    rw [Instruction.Lands, he]
  have hloops : (s.loops ++ rest).length = c.loops.size := by
    rw [hf'.length_eq, length_inward]
  obtain ⟨ip, stack, frames, calls, loops, pending⟩ := c
  dsimp only at hheight hloops htakes hnext hf
  refine ⟨h.pending, s.loops ++ rest, ?_, hf'⟩
  show Stacked P base _ (inward (calls.push ⟨ip + 1, stack.size - i.takes, frames.size,
    loops.size⟩)) ((stack.shrink (stack.size - i.b.cells) ++ #[]).shrink
      (stack.size - i.takes)).size _ _
  rw [inward_push]
  refine ⟨0, [], s.loops ++ rest, ?_, rfl, hloops, ?_, ?_, ?_⟩
  · simp only [Array.append_empty, Array.size_shrink]
    omega
  · dsimp only [Context.enter, Context.moved, Context.swap]
    rw [Array.size_push]
    cases f.captured with
    | none => exact Nat.le_succ _
    | some captured =>
      simp only [Array.size_push]
      omega
  · show P (calls.push _).size f.entry .body
    rw [Array.size_push]
    exact hf
  · rw [length_inward]
    show Stacked P base _ _ (stack.size - i.takes + 1) frames.size _
    have hgives : i.gives = 1 := by rw [Instruction.gives, he]
    have hsize : stack.size - i.takes + 1 = b + (s.height - i.takes + i.gives) := by
      have := hadm.1
      omega
    rw [hsize]
    exact hback _ _ _ _ (Nat.le_refl _) hnext

/-- The innermost call of a context can be left. -/
structure Leaves (P : Footing) (base : Home) (c : Context) (r : CallRecord) : Prop where
  stack : r.stackBase ≤ c.stack.size
  frames : r.frameDepth ≤ c.frames.size
  caller : ∃ rest, rest.length = r.loopDepth ∧
    Stacked P base (P (inward c.calls.pop).length r.returnIp) (inward c.calls.pop)
      (r.stackBase + 1) r.frameDepth rest ∧
    List.Forall₂ Fills rest ((inward c.loops).drop (c.loops.size - r.loopDepth))

theorem Poised.leaves {r : CallRecord} {t : Nat} (h : c.Poised P base)
    (hs : Supports P c.calls.size c.ip i) (hr : c.calls.back? = some r) :
    ((c.moved t).swap i.takes #[]).Leaves P base r := by
  obtain ⟨ls, hst, hf⟩ := h.stacked
  rw [inward_eq_cons.2 ⟨hr, rfl⟩] at hst
  obtain ⟨k, own, rest, hheight, rfl, hlen, hframes, hq, hrest⟩ := hst
  have htakes := (hs _ hq).1.1
  refine ⟨?_, hframes, rest, hlen, hrest, ?_⟩
  · rw [Context.size_swap]
    show r.stackBase ≤ c.stack.size - i.takes + 0
    dsimp only at htakes
    omega
  have hsize := hf.length_eq
  rw [List.length_append, length_inward] at hsize
  have hdrop := List.forall₂_drop own.length hf
  rw [List.drop_left] at hdrop
  show List.Forall₂ Fills rest ((inward c.loops).drop (c.loops.size - r.loopDepth))
  rwa [show c.loops.size - r.loopDepth = own.length by omega]

theorem Awaiting.leaves {r : CallRecord} (h : c.Awaiting P base) (hr : c.calls.back? = some r) :
    c.awake.Leaves P base r := by
  obtain ⟨p, k, inner, group, groups, hp, hst, hl, -, hf⟩ := h.stacked
  rw [inward_eq_cons.2 ⟨hr, rfl⟩] at hst
  obtain ⟨n, own, rest, hheight, hls, hlen, hframes, hq, hrest⟩ := hst
  obtain ⟨own', hown, -, -⟩ := hq.loops
  dsimp only at hown
  subst hown
  rw [List.cons_append, List.cons.injEq] at hls
  obtain ⟨-, rfl⟩ := hls
  refine ⟨?_, hframes, rest, hlen, hrest, ?_⟩
  · show r.stackBase ≤ c.stack.size
    omega
  have hsize := hf.length_eq
  have hgroups := congrArg List.length hl
  rw [length_inward, List.length_cons] at hgroups
  rw [List.length_append] at hsize
  show List.Forall₂ Fills rest ((inward c.loops).drop (c.loops.size - r.loopDepth))
  rw [hl, show c.loops.size - r.loopDepth = own'.length + 1 by omega, List.drop_succ_cons]
  have hdrop := List.forall₂_drop own'.length hf
  rwa [List.drop_left] at hdrop

theorem Leaves.left {r : CallRecord} (h : c.Leaves P base r) (hp : c.pending = none) (v : Value) :
    (((c.leave r).moved r.returnIp).swap 0 #[v]).Poised P base := by
  obtain ⟨rest, hlen, hst, hf⟩ := h.caller
  have hstack := h.stack
  have hframes := h.frames
  obtain ⟨ip, stack, frames, calls, loops, pending⟩ := c
  dsimp only at hstack hframes
  refine ⟨hp, rest, ?_, ?_⟩
  · have hsize : (Context.swap (Context.moved (Context.leave
        ⟨ip, stack, frames, calls, loops, pending⟩ r) r.returnIp) 0 #[v]).stack.size =
        r.stackBase + 1 := by
      rw [Context.size_swap]
      show (stack.shrink r.stackBase).size - 0 + 1 = _
      rw [Array.size_shrink]
      omega
    rw [hsize]
    show Stacked P base (P calls.pop.size r.returnIp) (inward calls.pop) (r.stackBase + 1)
      (frames.shrink r.frameDepth).size rest
    rw [Array.size_shrink, Nat.min_eq_left hframes, ← length_inward calls.pop]
    exact hst
  · show List.Forall₂ Fills rest (inward (loops.shrink r.loopDepth))
    rw [inward_shrink]
    exact hf

end Context

end YieldMachine
