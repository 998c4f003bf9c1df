import Mathlib.Algebra.Order.BigOperators.Group.List
import Mathlib.Algebra.Order.Ring.Nat
import YieldMachine.Machine.Switch
import YieldMachine.Proofs.Flow.Context

/-!
# Trees of contexts

`c.tree` lists a context and all producers parked in its groups, however deep, and
`c.parked` the producers alone. Each change of a group is one equation on what is below:
a slot that is filled adds a tree, a slot that is emptied takes one away, and groups
that are closed take away what was below them.

    c.tree = c :: c.parked
    c.size = c.tree.length
-/

namespace YieldMachine

/-! ## Listing -/

mutual

/-- A context with all producers parked under it. -/
def Context.tree : Context → List Context
  | ⟨ip, stack, frames, calls, ⟨groups⟩, pending⟩ =>
    ⟨ip, stack, frames, calls, ⟨groups⟩, pending⟩ :: Context.treeGroups groups

/-- The contexts in and under some groups. -/
def Context.treeGroups : List (Array (Option Context)) → List Context
  | [] => []
  | ⟨slots⟩ :: groups => Context.treeSlots slots ++ Context.treeGroups groups

/-- The contexts in and under some slots. -/
def Context.treeSlots : List (Option Context) → List Context
  | [] => []
  | none :: slots => Context.treeSlots slots
  | some c :: slots => c.tree ++ Context.treeSlots slots

end

/-- The producers parked in some slots, with all that are parked under them. -/
def Slots.parked (slots : List (Option Context)) : List Context :=
  (Context.occupied slots).flatMap Context.tree

/-- The producers parked in a group, with all that are parked under them. -/
def Group.parked (group : Group) : List Context :=
  Slots.parked group.toList

/-- The producers parked in some groups, with all that are parked under them. -/
def Groups.parked (groups : List Group) : List Context :=
  groups.flatMap Group.parked

/-- All producers parked under a context. -/
def Context.parked (c : Context) : List Context :=
  Groups.parked c.loops.toList

/-! ## Lemmas -/

theorem Context.treeSlots_eq (slots : List (Option Context)) :
    Context.treeSlots slots = Slots.parked slots := by
  induction slots with
  | nil => rfl
  | cons slot slots ih =>
    cases slot with
    | none => exact ih
    | some c =>
      rw [Context.treeSlots, ih]
      rfl

theorem Context.treeGroups_eq (groups : List Group) :
    Context.treeGroups groups = Groups.parked groups := by
  induction groups with
  | nil => rfl
  | cons group groups ih =>
    obtain ⟨slots⟩ := group
    rw [Context.treeGroups, ih, Context.treeSlots_eq]
    rfl

theorem Context.tree_eq (c : Context) : c.tree = c :: c.parked := by
  obtain ⟨ip, stack, frames, calls, ⟨groups⟩, pending⟩ := c
  rw [Context.tree, Context.treeGroups_eq]
  rfl

theorem Context.parked_of_loops {c d : Context} (h : d.loops = c.loops) : d.parked = c.parked := by
  rw [Context.parked, h]
  rfl

@[simp] theorem Context.parked_moved (c : Context) (ip : Nat) : (c.moved ip).parked = c.parked :=
  rfl

@[simp] theorem Context.parked_awake (c : Context) : c.awake.parked = c.parked :=
  rfl

@[simp] theorem Context.parked_waiting (c : Context) (p : Pending) :
    (c.waiting p).parked = c.parked :=
  rfl

@[simp] theorem Context.parked_swap (c : Context) (n : Nat) (vs : Array Value) :
    (c.swap n vs).parked = c.parked :=
  rfl

@[simp] theorem Context.parked_start (ip : Nat) (frames : Chain) :
    (Context.start ip frames).parked = [] :=
  rfl

@[simp] theorem Context.parked_enter (c : Context) (f : Func) (b : Nat) (id : FrameId) :
    (c.enter f b id).parked = c.parked :=
  Context.parked_of_loops (by rw [Context.enter_eq])

theorem Slots.mem_parked {slots : List (Option Context)} {d : Context} :
    d ∈ Slots.parked slots ↔ ∃ p, some p ∈ slots ∧ d ∈ p.tree := by
  simp [Slots.parked, Context.occupied, List.mem_flatMap]

/-! ## Sizes -/

theorem Context.countAll_eq_sum (cs : List Context) :
    Context.countAll cs = (cs.map Context.count).sum := by
  rw [List.sum_eq_foldr, List.foldr_map]
  rfl

/-- A context is larger than the producers parked under it. -/
theorem Context.count_lt {c p : Context} (h : p ∈ c.producers) : p.count < c.count := by
  have hle : p.count ≤ Context.countAll c.producers := by
    rw [Context.countAll_eq_sum]
    exact List.le_sum_of_mem (List.mem_map_of_mem h)
  rw [Context.count_eq c]
  omega

/-- What holds of a context when it holds of the producers parked under it holds of all. -/
theorem Context.under_induction {P : Context → Prop}
    (h : ∀ c : Context, (∀ p ∈ c.producers, P p) → P c) (c : Context) : P c := by
  induction hn : c.count using Nat.strongRecOn generalizing c with
  | ind n ih =>
    subst hn
    exact h c fun p hp => ih p.count (Context.count_lt hp) p rfl

theorem Context.parked_eq (c : Context) : c.parked = c.producers.flatMap Context.tree := by
  rw [Context.producers, List.flatMap_assoc]
  rfl

theorem Group.discarded_eq (group : Group) :
    Group.discarded group = ((Context.occupied group.toList).map Context.size).sum := by
  have hsum : Group.discarded group =
      ((Context.occupied group.toList.reverse).map Context.discard).sum := by
    rw [List.sum_eq_foldr, List.foldr_map]
    rfl
  rw [hsum, Context.occupied, List.filterMap_reverse, List.map_reverse, List.sum_reverse,
    List.map_congr_left fun c _ => c.discard_eq_size]
  rfl

theorem Context.length_tree (c : Context) : c.tree.length = c.size := by
  rw [Context.size_eq_count]
  induction c using Context.under_induction with
  | h c ih =>
    rw [Context.tree_eq, Context.parked_eq, Context.count_eq, Context.countAll_eq_sum,
      List.length_cons, List.length_flatMap, List.map_congr_left ih, Nat.add_comm]

theorem Group.length_parked (group : Group) : group.parked.length = Group.discarded group := by
  rw [Group.discarded_eq, Group.parked, Slots.parked, List.length_flatMap]
  simp only [Context.length_tree]

theorem Context.length_groupsAbove (c : Context) (depth : Nat) :
    (Groups.parked (c.loops.toList.drop depth)).length = c.discardedAbove depth := by
  rw [Groups.parked, List.length_flatMap, Context.discardedAbove, Array.toList_extract,
    List.extract_eq_take_drop, List.take_of_length_le (by simp), List.sum_eq_foldr,
    List.foldr_map]
  simp only [Group.length_parked]

/-! ## Changes of groups -/

theorem Groups.parked_append (groups more : List Group) :
    Groups.parked (groups ++ more) = Groups.parked groups ++ Groups.parked more :=
  List.flatMap_append

theorem Slots.parked_append (slots more : List (Option Context)) :
    Slots.parked (slots ++ more) = Slots.parked slots ++ Slots.parked more := by
  simp [Slots.parked, Context.occupied]

/-- Filling an empty slot adds a tree. -/
theorem Slots.parked_set {slots : List (Option Context)} {k : Nat} (h : slots[k]? = some none)
    (p : Context) : (Slots.parked (slots.set k (some p))).Perm (p.tree ++ Slots.parked slots) := by
  obtain ⟨hk, hget⟩ := List.getElem?_eq_some_iff.1 h
  have hslots : slots = slots.take k ++ none :: slots.drop (k + 1) := by
    rw [← hget, List.getElem_cons_drop, List.take_append_drop]
  rw [List.set_eq_take_append_cons_drop, if_pos hk]
  conv_rhs => rw [hslots]
  rw [Slots.parked_append, Slots.parked_append, show Slots.parked (some p :: slots.drop (k + 1)) =
    p.tree ++ Slots.parked (slots.drop (k + 1)) from rfl, show Slots.parked (none ::
      slots.drop (k + 1)) = Slots.parked (slots.drop (k + 1)) from rfl]
  exact List.perm_append_comm_assoc _ _ _

/-- Emptying a slot takes a tree away. -/
theorem Slots.parked_take {slots : List (Option Context)} {k : Nat} {p : Context}
    (h : slots[k]? = some (some p)) :
    (Slots.parked slots).Perm (p.tree ++ Slots.parked (slots.set k none)) := by
  have hk : k < slots.length := (List.getElem?_eq_some_iff.1 h).1
  have hempty : (slots.set k none)[k]? = some none := List.getElem?_set_self hk
  have hset := Slots.parked_set hempty p
  have hself : slots.set k (some p) = slots := by
    rw [← (List.getElem?_eq_some_iff.1 h).2, List.set_getElem_self]
  rwa [List.set_set, hself] at hset

section

variable {c : Context} {group : Group} {k : Nat}

theorem Groups.parked_concat (groups : List Group) (group : Group) :
    Groups.parked (groups ++ [group]) = Groups.parked groups ++ group.parked := by
  simp [Groups.parked]

theorem toList_modify_back {α : Type} {xs : Array α} {x : α} (h : xs.back? = some x)
    (f : α → α) : (xs.modify (xs.size - 1) f).toList = xs.pop.toList ++ [f x] := by
  have hin := inward_modify (inward_eq_cons.2 ⟨h, rfl⟩) f
  have := congrArg List.reverse hin
  simpa [inward] using this

/-- The last group comes last. -/
theorem Context.parked_back (h : c.loops.back? = some group) :
    c.parked = Groups.parked c.loops.pop.toList ++ group.parked := by
  have hloops : c.loops.toList = c.loops.pop.toList ++ [group] := by
    rw [Array.toList_pop]
    exact (List.dropLast_append_getLast? group (by simpa using h)).symm
  rw [Context.parked, hloops, Groups.parked_concat]

theorem Context.parked_modify (h : c.loops.back? = some group) (f : Group → Group) :
    ({ c with loops := c.loops.modify (c.loops.size - 1) f } : Context).parked =
      Groups.parked c.loops.pop.toList ++ (f group).parked := by
  rw [Context.parked, toList_modify_back h, Groups.parked_concat]

theorem Context.parked_openGroup :
    ({ c with loops := c.loops.push #[] } : Context).parked = c.parked := by
  rw [Context.parked, Array.toList_push, Groups.parked_concat]
  exact List.append_nil _

theorem Context.parked_openSlot (h : c.loops.back? = some group) :
    c.openSlot.parked = c.parked := by
  rw [Context.openSlot_eq, Context.parked_modify h, Context.parked_back h, Group.parked,
    Array.toList_push, Slots.parked_append]
  exact congrArg _ (List.append_nil _)

theorem Context.parked_setSlot (h : c.loops.back? = some group) (content : Option Context) :
    (c.setSlot k content).parked =
      Groups.parked c.loops.pop.toList ++ Slots.parked (group.toList.set k content) := by
  rw [Context.setSlot_eq, Context.parked_modify h, Group.parked, Array.toList_setIfInBounds]

theorem Context.slot?_openSlot (h : c.loops.back? = some group) :
    c.openSlot.slot? group.size = some none := by
  refine Option.bind_eq_some_iff.2 ⟨group.push none, ?_, by simp⟩
  rw [Context.openSlot_eq, ← Array.getLast?_toList, toList_modify_back h]
  exact List.getLast?_concat

theorem Context.slot?_setSlot {slot : Option Context} (h : c.slot? k = some slot)
    (content : Option Context) : (c.setSlot k content).slot? k = some content := by
  obtain ⟨group, hg, hk⟩ := Option.bind_eq_some_iff.1 h
  refine Option.bind_eq_some_iff.2 ⟨group.setIfInBounds k content, ?_, ?_⟩
  · rw [Context.setSlot_eq, ← Array.getLast?_toList, toList_modify_back hg]
    exact List.getLast?_concat
  · have hlt := (Array.getElem?_eq_some_iff.1 hk).1
    rw [Array.getElem?_setIfInBounds_self_of_lt hlt]

/-- A producer that is parked comes with all that is parked under it. -/
theorem Context.parked_park (h : c.slot? k = some none) (p : Context) :
    (c.setSlot k (some p)).parked.Perm (p.tree ++ c.parked) := by
  obtain ⟨group, hg, hk⟩ := Option.bind_eq_some_iff.1 h
  rw [Context.parked_setSlot hg, Context.parked_back hg]
  refine ((Slots.parked_set (by simpa using hk) p).append_left _).trans ?_
  exact List.perm_append_comm_assoc _ _ _

/-- A producer that goes on takes all that is parked under it along. -/
theorem Context.parked_unpark {p : Context} (h : c.slot? k = some (some p)) :
    c.parked.Perm (p.tree ++ (c.setSlot k none).parked) := by
  obtain ⟨group, hg, hk⟩ := Option.bind_eq_some_iff.1 h
  rw [Context.parked_setSlot hg, Context.parked_back hg]
  refine ((Slots.parked_take (by simpa using hk)).append_left _).trans ?_
  exact List.perm_append_comm_assoc _ _ _

theorem Context.parked_closeGroup (h : c.loops.back? = some group) :
    c.parked = c.closeGroup.parked ++ group.parked := by
  rw [Context.parked_back h, Context.closeGroup_eq]
  rfl

/-- Leaving a call discards the groups that were opened in it. -/
theorem Context.parked_leave (r : CallRecord) :
    c.parked = (c.leave r).parked ++ Groups.parked (c.loops.toList.drop r.loopDepth) := by
  rw [Context.leave_eq, Context.parked, Context.parked, ← Groups.parked_append,
    Array.toList_shrink, List.take_append_drop]

end

end YieldMachine
