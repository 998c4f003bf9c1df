import YieldMachine.Memory.Frame

/-!
# Contexts

A context is a piece of running code: the place of its next instruction, its operand
stack, its frames, its calls and the producer groups of the for loops it is in. A
producer that waits is parked in the group of the loop that consumes it, so contexts
form a tree.

`count` is the number of contexts in a tree by recursion on it. `size` walks the tree
with a worklist, and `discard` takes it apart with one, which needs no room on the call
stack however deep the tree is.

    c.size = c.count
    c.discard = c.count
-/

namespace YieldMachine

/-! ## Types -/

/-- One active call: where the caller goes on, and the heights of its operand stack,
its frames and its loops. -/
structure CallRecord where
  returnIp : Nat
  stackBase : Nat
  frameDepth : Nat
  loopDepth : Nat
  deriving DecidableEq, Repr, Inhabited

/-- What a waiting consumer waits for: the slot of its innermost group that the
producer is parked in when it yields, and where the loop is left when it runs dry. -/
structure Pending where
  slot : Nat
  onDrop : Nat
  deriving DecidableEq, Repr, Inhabited

/-- A piece of running code. The slots of a group are numbered like the iterators of
its loop; a slot is empty while its producer runs and before it first yields. -/
structure Context where
  ip : Nat
  stack : Array Value
  frames : Chain
  calls : Array CallRecord
  loops : Array (Array (Option Context))
  pending : Option Pending
  deriving Inhabited

/-- The producers of one for loop. -/
abbrev Group := Array (Option Context)

/-! ## Counting by recursion -/

mutual

/-- The number of contexts in a tree, the root included. -/
def Context.count : Context → Nat
  | ⟨_, _, _, _, ⟨groups⟩, _⟩ => 1 + Context.countGroups groups

/-- The number of contexts in and under some groups. -/
def Context.countGroups : List (Array (Option Context)) → Nat
  | [] => 0
  | ⟨slots⟩ :: groups => Context.countSlots slots + Context.countGroups groups

/-- The number of contexts in and under some slots. -/
def Context.countSlots : List (Option Context) → Nat
  | [] => 0
  | none :: slots => Context.countSlots slots
  | some c :: slots => c.count + Context.countSlots slots

end

/-! ## Lemmas -/

/-- The number of contexts in a list of trees. -/
def Context.countAll (cs : List Context) : Nat :=
  cs.foldr (fun c n => c.count + n) 0

/-- The producers in a list of slots. -/
def Context.occupied (slots : List (Option Context)) : List Context :=
  slots.filterMap id

/-- The producers parked directly under a context. -/
def Context.producers (c : Context) : List Context :=
  c.loops.toList.flatMap fun group => Context.occupied group.toList

theorem Context.countAll_cons (c : Context) (cs : List Context) :
    Context.countAll (c :: cs) = c.count + Context.countAll cs :=
  rfl

theorem Context.countAll_append (cs ds : List Context) :
    Context.countAll (cs ++ ds) = Context.countAll cs + Context.countAll ds := by
  induction cs with
  | nil => exact (Nat.zero_add _).symm
  | cons c cs ih =>
    rw [List.cons_append, Context.countAll_cons, Context.countAll_cons, ih, Nat.add_assoc]

theorem Context.countAll_reverse (cs : List Context) :
    Context.countAll cs.reverse = Context.countAll cs := by
  induction cs with
  | nil => rfl
  | cons c cs ih =>
    rw [List.reverse_cons, Context.countAll_append, ih, Context.countAll_cons, Nat.add_comm]
    rfl

theorem Context.countSlots_eq (slots : List (Option Context)) :
    Context.countSlots slots = Context.countAll (Context.occupied slots) := by
  induction slots with
  | nil => rfl
  | cons slot slots ih =>
    cases slot with
    | none => simpa [Context.countSlots, Context.occupied] using ih
    | some c =>
      rw [Context.countSlots, ih]
      rfl

theorem Context.countGroups_eq (groups : List (Array (Option Context))) :
    Context.countGroups groups =
      Context.countAll (groups.flatMap fun group => Context.occupied group.toList) := by
  induction groups with
  | nil => rfl
  | cons group groups ih =>
    rw [Context.countGroups, ih, Context.countSlots_eq, List.flatMap_cons,
      Context.countAll_append]

theorem Context.count_eq (c : Context) : c.count = 1 + Context.countAll c.producers := by
  obtain ⟨_, _, _, _, groups, _⟩ := c
  rw [Context.count, Context.countGroups_eq]
  rfl

/-- A context of a worklist counts as much as the producers that come in its place, and
one more. -/
theorem Context.countAll_round (c : Context) (rest : List Context) :
    Context.countAll (c :: rest) = Context.countAll (c.producers.reverse ++ rest) + 1 := by
  rw [Context.countAll_append, Context.countAll_reverse, Context.countAll_cons,
    Context.count_eq c]
  omega

/-! ## Counting with a worklist -/

/-- Count contexts from a worklist: each one met is counted and gives way to the
producers parked under it, the last of which is next. -/
def Context.walk (seen : Nat) (pending : List Context) : Nat :=
  match pending with
  | [] => seen
  | c :: rest => Context.walk (seen + 1) (c.producers.reverse ++ rest)
termination_by Context.countAll pending
decreasing_by
  rw [Context.countAll_round c rest]
  exact Nat.lt_succ_self _

/-- The number of contexts in a tree. -/
def Context.size (c : Context) : Nat :=
  Context.walk 0 [c]

theorem Context.walk_eq (seen : Nat) (pending : List Context) :
    Context.walk seen pending = seen + Context.countAll pending := by
  fun_induction Context.walk seen pending with
  | case1 => rfl
  | case2 seen c rest ih =>
    rw [ih, Context.countAll_round c rest]
    omega

theorem Context.size_eq_count (c : Context) : c.size = c.count := by
  rw [Context.size, Context.walk_eq, Context.countAll_cons]
  simp [Context.countAll]

/-! ## Discarding with a worklist -/

/-- Detach the producers parked under a context: they, and the context without them. -/
def Context.takeProducers (c : Context) : List Context × Context :=
  (c.producers, { c with loops := #[] })

@[simp] theorem Context.takeProducers_fst (c : Context) : c.takeProducers.1 = c.producers :=
  rfl

/-- Take the contexts of a worklist apart: each one met is counted, its producers are
detached and put where it was, the last of them next, and what is left of it goes away. -/
def Context.takeApart (discarded : Nat) (pending : List Context) : Nat :=
  match pending with
  | [] => discarded
  | c :: rest => Context.takeApart (discarded + 1) (c.takeProducers.1.reverse ++ rest)
termination_by Context.countAll pending
decreasing_by
  rw [Context.takeProducers_fst, Context.countAll_round c rest]
  exact Nat.lt_succ_self _

/-- Discard a tree; gives how many contexts went away. -/
def Context.discard (c : Context) : Nat :=
  Context.takeApart 0 [c]

theorem Context.takeApart_eq (discarded : Nat) (pending : List Context) :
    Context.takeApart discarded pending = discarded + Context.countAll pending := by
  fun_induction Context.takeApart discarded pending with
  | case1 => rfl
  | case2 discarded c rest ih =>
    rw [ih, Context.takeProducers_fst, Context.countAll_round c rest]
    omega

theorem Context.discard_eq_count (c : Context) : c.discard = c.count := by
  rw [Context.discard, Context.takeApart_eq, Context.countAll_cons]
  simp [Context.countAll]

theorem Context.discard_eq_size (c : Context) : c.discard = c.size := by
  rw [Context.discard_eq_count, Context.size_eq_count]

/-- How many contexts go away with the producers of a group, the newest first. -/
def Group.discarded (group : Group) : Nat :=
  (Context.occupied group.toList.reverse).foldr (fun c n => c.discard + n) 0

end YieldMachine
