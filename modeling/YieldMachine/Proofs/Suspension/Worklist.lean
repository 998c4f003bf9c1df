import YieldMachine.Proofs.Suspension.Conservation

/-!
# Worklists of contexts

A tree of contexts is counted, and taken apart, by a loop over a worklist. A loop of this
kind meets the contexts of its list one after the other, and puts the producers parked
under each of them in its place. `Drains` says that such a loop comes to its end, and
what is left of the contexts it has met by then.

    walk_drains        the loop that counts comes to its end
    takeApart_drains   so does the loop that discards
    Drains.perm        it has met each context in the trees of its list once
    worklists_exact    both loops give the number of contexts by recursion
-/

namespace YieldMachine

/-! ## Definitions -/

/-- A loop over a worklist comes to its end. Meeting a context gives the producers parked
under it, which come in its place with the last of them first, and what stays of the
context; the second list is what stays of all contexts met, in order. -/
inductive Context.Drains (meet : Context → List Context × Context) :
    List Context → List Context → Prop
  | done : Context.Drains meet [] []
  | round {c : Context} {rest met : List Context}
      (h : Context.Drains meet ((meet c).1.reverse ++ rest) met) :
      Context.Drains meet (c :: rest) ((meet c).2 :: met)

/-- Look at the producers parked under a context: they, and the context as it is. -/
def Context.lookUnder (c : Context) : List Context × Context :=
  (c.producers, c)

/-! ## Loops -/

theorem Context.walk_drains (seen : Nat) (pending : List Context) :
    ∃ met, Context.Drains Context.lookUnder pending met ∧
      Context.walk seen pending = seen + met.length := by
  fun_induction Context.walk seen pending with
  | case1 seen => exact ⟨[], .done, rfl⟩
  | case2 seen c rest ih =>
    obtain ⟨met, hdrains, hwalk⟩ := ih
    refine ⟨c :: met, .round hdrains, ?_⟩
    rw [hwalk, List.length_cons]
    omega

theorem Context.takeApart_drains (discarded : Nat) (pending : List Context) :
    ∃ met, Context.Drains Context.takeProducers pending met ∧
      Context.takeApart discarded pending = discarded + met.length := by
  fun_induction Context.takeApart discarded pending with
  | case1 discarded => exact ⟨[], .done, rfl⟩
  | case2 discarded c rest ih =>
    obtain ⟨met, hdrains, htakeApart⟩ := ih
    refine ⟨c.bare :: met, .round hdrains, ?_⟩
    rw [htakeApart, List.length_cons]
    omega

/-- In one round a context is met, and all others in the trees of the list stay there. -/
theorem Context.perm_round (c : Context) (rest : List Context) :
    (c :: (c.producers.reverse ++ rest).flatMap Context.tree).Perm
      ((c :: rest).flatMap Context.tree) := by
  rw [List.flatMap_append, List.flatMap_cons, Context.tree_eq, Context.parked_eq,
    List.cons_append]
  have hreverse := (List.reverse_perm c.producers).flatMap_right Context.tree
  exact (hreverse.append_right _).cons c

/-- A loop that comes to its end has met every context in the trees of its list once. -/
theorem Context.Drains.perm {meet : Context → List Context × Context}
    {pending met : List Context} (hmeet : ∀ c, (meet c).1 = c.producers)
    (h : Context.Drains meet pending met) :
    met.Perm ((pending.flatMap Context.tree).map fun c => (meet c).2) := by
  -- the induction is on the rounds: what was met and what the trees of the list hold are
  -- the same contexts together before and after each
  induction h with
  | done => exact .refl _
  | @round c rest met h ih =>
    rw [hmeet c] at ih
    exact (ih.cons _).trans ((Context.perm_round c rest).map fun c => (meet c).2)

theorem Context.size_drains (c : Context) :
    ∃ met, Context.Drains Context.lookUnder [c] met ∧ met.Perm c.tree ∧
      c.size = met.length := by
  obtain ⟨met, hdrains, hwalk⟩ := Context.walk_drains 0 [c]
  have hperm := hdrains.perm fun _ => rfl
  rw [List.flatMap_singleton] at hperm
  refine ⟨met, hdrains, ?_, ?_⟩
  · exact hperm.trans (.of_eq (List.map_id _))
  · rw [Context.size, hwalk, Nat.zero_add]

theorem Context.discard_drains (c : Context) :
    ∃ met, Context.Drains Context.takeProducers [c] met ∧
      met.Perm (c.tree.map Context.bare) ∧ c.discard = met.length := by
  obtain ⟨met, hdrains, htakeApart⟩ := Context.takeApart_drains 0 [c]
  have hperm := hdrains.perm Context.takeProducers_fst
  rw [List.flatMap_singleton] at hperm
  refine ⟨met, hdrains, hperm, ?_⟩
  rw [Context.discard, htakeApart, Nat.zero_add]

/-! ## Sums -/

/-- The number of contexts in a tree is one, and the sum over the occupied slots of all
groups. -/
theorem Context.count_eq_sum (c : Context) :
    c.count = 1 + (c.loops.toList.map fun group =>
      ((Context.occupied group.toList).map Context.count).sum).sum := by
  rw [Context.count_eq, Context.countAll_eq_sum, Context.producers, List.map_flatMap,
    List.flatMap_def, List.sum_flatten, List.map_map]
  rfl

/-- What goes away with a group depends on neither the order of its producers nor the
slots that are empty. -/
theorem Group.discarded_of_perm {group other : Group}
    (h : (Context.occupied other.toList).Perm (Context.occupied group.toList)) :
    Group.discarded other = Group.discarded group := by
  rw [Group.discarded_eq, Group.discarded_eq]
  exact (h.map Context.size).sum_nat

/-! ## Main theorem -/

/-- However deep and wide a tree of contexts is, the loop that counts it and the loop that
discards it come to their end. Each meets every context of the tree once, and the one that
discards leaves no producer under any. Both give the number of contexts by recursion. What
goes away with a group is the sum over its producers, in whatever order they are and
however many slots are empty. -/
theorem Context.worklists_exact (c : Context) (group : Group) :
    (∃ met, Context.Drains Context.lookUnder [c] met ∧ met.Perm c.tree ∧
      c.size = met.length) ∧
    (∃ met, Context.Drains Context.takeProducers [c] met ∧
      met.Perm (c.tree.map Context.bare) ∧ c.discard = met.length) ∧
    c.size = c.count ∧ c.discard = c.count ∧
    c.count = 1 + (c.loops.toList.map fun group =>
      ((Context.occupied group.toList).map Context.count).sum).sum ∧
    Group.discarded group = ((Context.occupied group.toList).map Context.size).sum ∧
    ∀ other : Group, (Context.occupied other.toList).Perm (Context.occupied group.toList) →
      Group.discarded other = Group.discarded group :=
  ⟨c.size_drains, c.discard_drains, c.size_eq_count, c.discard_eq_count, c.count_eq_sum,
    group.discarded_eq, fun _ => Group.discarded_of_perm⟩

/-- A context with nothing but groups. -/
def Context.holding (ip : Nat) (groups : Array Group) : Context :=
  { Context.start ip #[] with loops := groups }

/-- A context with two groups and four producers in them, one of which is parked under
another. With the producers of its first group in other slots, and one more slot empty, the
same number of contexts goes away with the group. -/
theorem Context.worklists_exact_nested :
    let leaf := Context.holding 1 #[]
    let middle := Context.holding 2 #[#[none, some leaf]]
    let group : Group := #[some middle, none, some leaf]
    let other : Group := #[none, some leaf, none, some middle]
    let root := Context.holding 3 #[group, #[some leaf]]
    root.size = 5 ∧ root.discard = 5 ∧
      (Context.occupied other.toList).Perm (Context.occupied group.toList) ∧
      Group.discarded other = Group.discarded group := by
  intro leaf middle group other root
  obtain ⟨-, -, hsize, hdiscard, -, -, hother⟩ := Context.worklists_exact root group
  have hperm : (Context.occupied other.toList).Perm (Context.occupied group.toList) :=
    .swap middle leaf []
  exact ⟨hsize.trans rfl, hdiscard.trans rfl, hperm, hother other hperm⟩

end YieldMachine
