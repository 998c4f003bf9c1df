import YieldMachine.Proofs.Walk.Compiled

/-!
# Where the bodies stand

The functions of a tree have entries of their own, inside the code of the tree, and their
bodies stand there. So a walk finds the body of each function by its entry, and the bodies of
one tree do not come in the way of those before.

    Stands.places            the bodies of a tree stand in its code
    Walk.Bodies.add_eq       a body is found by its entry
-/

namespace YieldMachine

open Walk

/-! ## Functions in a piece of code -/

/-- Functions whose bodies stand between two places, each at an entry of its own. -/
structure Program.Places (program : Program) (base stop : Nat) (fs : List (Nat × Body)) :
    Prop where
  le : base ≤ stop
  inside : ∀ f ∈ fs, base < f.1 ∧ f.1 < stop
  seats : ∀ f ∈ fs, program.Seats f.1 f.2
  distinct : fs.Pairwise fun f g => f.1 ≠ g.1

section

variable {program : Program} {a b base base' stop stop' : Nat} {fs gs : List (Nat × Body)}
  {r dest : Operand}

theorem Program.Carries.le (h : program.Carries r dest a b) : a ≤ b := by
  unfold Program.Carries at h
  split at h <;> omega

theorem Program.Drops.le (h : program.Drops r a b) : a ≤ b := by
  unfold Program.Drops at h
  split at h <;> omega

theorem Program.Gathers.le {k : Nat} {isLast : Bool} (h : program.Gathers k isLast a b) :
    a ≤ b := by
  rw [h.2]
  exact Nat.le_add_right _ _

namespace Program.Places

theorem nil (h : base ≤ stop) : program.Places base stop [] :=
  ⟨h, by simp, by simp, .nil⟩

theorem widen (h : program.Places a b fs) (hbase : base ≤ a) (hstop : b ≤ stop) :
    program.Places base stop fs := by
  refine ⟨by have := h.le; omega, fun f hf => ?_, h.seats, h.distinct⟩
  have := h.inside f hf
  omega

theorem append (hf : program.Places base a fs) (hg : program.Places b stop gs) (h : a ≤ b) :
    program.Places base stop (fs ++ gs) := by
  have hle := hf.le
  have hle' := hg.le
  refine ⟨by omega, fun f hmem => ?_, fun f hmem => ?_,
    List.pairwise_append.2 ⟨hf.distinct, hg.distinct, fun f hmem g hmem' => ?_⟩⟩
  · rcases List.mem_append.1 hmem with hmem | hmem
    · have := hf.inside f hmem
      omega
    · have := hg.inside f hmem
      omega
  · rcases List.mem_append.1 hmem with hmem | hmem
    · exact hf.seats f hmem
    · exact hg.seats f hmem
  · have := hf.inside f hmem
    have := hg.inside g hmem'
    omega

theorem swap (h : program.Places base stop (fs ++ gs)) : program.Places base stop (gs ++ fs) := by
  have hmem : ∀ f ∈ gs ++ fs, f ∈ fs ++ gs := fun f hf => by
    rw [List.mem_append] at hf ⊢
    exact hf.symm
  refine ⟨h.le, fun f hf => h.inside f (hmem f hf), fun f hf => h.seats f (hmem f hf), ?_⟩
  exact (List.pairwise_append_comm fun hne => hne.symm).1 h.distinct

/-- A function around the functions of its body. -/
theorem function {body : Body} (h : program.Places (base + 1) a fs)
    (hbody : program.Seats (base + 1) body) :
    program.Places base (a + 2) ((base + 1, body) :: fs) := by
  have hle := h.le
  refine ⟨by omega, fun f hf => ?_, fun f hf => ?_,
    List.pairwise_cons.2 ⟨fun f hf => ?_, h.distinct⟩⟩
  · rcases List.mem_cons.1 hf with rfl | hf
    · exact ⟨Nat.lt_succ_self _, by dsimp only; omega⟩
    · have := h.inside f hf
      omega
  · rcases List.mem_cons.1 hf with rfl | hf
    · exact hbody
    · exact h.seats f hf
  · have := h.inside f hf
    omega

theorem lookup (h : program.Places base stop fs) {f : Nat × Body} (hf : f ∈ fs) :
    fs.lookup f.1 = some f.2 := by
  have hdistinct := h.distinct
  clear h
  induction fs with
  | nil => cases hf
  | cons g fs ih =>
    obtain ⟨hg, hfs⟩ := List.pairwise_cons.1 hdistinct
    obtain ⟨entry, body⟩ := g
    rw [List.lookup_cons]
    rcases List.mem_cons.1 hf with rfl | hf
    · simp
    · rw [show (f.1 == entry) = false from beq_false_of_ne (hg f hf).symm]
      exact ih hf hfs

end Program.Places

end

/-! ## Trees -/

section

variable {program : Program}

mutual

/-- The bodies of the functions of a tree stand in its code. -/
theorem Stands.places (node : Node) {dest r : Operand} {base stop : Nat} {e : Entries}
    (h : Stands program dest base node e r stop) :
    program.Places base stop (node.functions e) := by
  match node with
  | .literal value | .ref target =>
    rw [Stands] at h
    exact .nil (Nat.le_of_eq h.2.symm)
  | .assign target value =>
    rw [Stands] at h
    obtain ⟨-, vr, a, hs, hc⟩ := h
    exact (Stands.places value hs).widen (Nat.le_refl _) hc.le
  | .unary op operand =>
    rw [Stands] at h
    obtain ⟨-, vr, a, hs, -, rfl⟩ := h
    exact (Stands.places operand hs).widen (Nat.le_refl _) (Nat.le_succ _)
  | .binary left op right =>
    rw [Stands] at h
    obtain ⟨-, lr, a, b, rr, c, hs, hc, hs', -, rfl⟩ := h
    exact ((Stands.places left hs).append (Stands.places right hs') hc.le).widen (Nat.le_refl _)
      (Nat.le_succ _)
  | .index target place =>
    rw [Stands] at h
    obtain ⟨-, lr, a, b, rr, c, hs, hc, hs', -, rfl⟩ := h
    exact ((Stands.places target hs).append (Stands.places place hs') hc.le).widen (Nat.le_refl _)
      (Nat.le_succ _)
  | .slice target start last =>
    rw [Stands] at h
    obtain ⟨-, tr, a, b, ar, c, d, br, f, hs, hc, hs', hc', hs'', -, rfl⟩ := h
    exact (((Stands.places target hs).append (Stands.places start hs') hc.le).append
      (Stands.places last hs'') hc'.le).widen (Nat.le_refl _) (Nat.le_succ _)
  | .len target =>
    rw [Stands] at h
    obtain ⟨-, vr, a, hs, -, rfl⟩ := h
    exact (Stands.places target hs).widen (Nat.le_refl _) (Nat.le_succ _)
  | .array elements =>
    rw [Stands] at h
    obtain ⟨-, a, h⟩ := h
    split at h
    · obtain ⟨hs, -, rfl⟩ := h
      exact (StandsAll.places elements hs).widen (Nat.le_refl _) (Nat.le_succ _)
    · exact (StandsChunks.places elements h.1).widen (Nat.le_refl _) h.2.le
  | .block nodes =>
    rw [Stands] at h
    exact StandsBlock.places nodes h
  | .cond condition thenBranch elseBranch =>
    rw [Stands] at h
    obtain ⟨-, cr, a, o, tr, b, c, o', er, d, hs, -, -, hs', hc, -, -, hs'', hc'⟩ := h
    exact (((Stands.places condition hs).append (Stands.places thenBranch hs')
      (Nat.le_succ _)).append (StandsOption.places elseBranch hs'')
        (Nat.le_succ_of_le hc.le)).widen (Nat.le_refl _) hc'.le
  | .loop condition body =>
    rw [Stands] at h
    obtain ⟨-, nil, cr, a, o, br, b, c, o', -, -, hs, -, -, -, hs', hc, -, -, rfl⟩ := h
    exact ((Stands.places condition hs).append (Stands.places body hs')
      (Nat.le_add_right _ _)).widen (Nat.le_succ _) (Nat.le_succ_of_le hc.le)
  | .function params frameSize body =>
    rw [Stands] at h
    obtain ⟨-, o, br, a, o', count, size, hentry, -, -, hs, hret, -, -, -, -, rfl⟩ := h
    rw [Node.functions, hentry]
    exact (Stands.places body hs).function ⟨br, a, hs, hret⟩
  | .call callee args =>
    rw [Stands] at h
    obtain ⟨-, a, fr, b, hs, hs', -, rfl⟩ := h
    exact ((StandsAll.places args hs).append (Stands.places callee hs')
      (Nat.le_refl _)).swap.widen (Nat.le_refl _) (Nat.le_succ _)
  | .ret value =>
    rw [Stands] at h
    obtain ⟨-, vr, a, hs, -, rfl⟩ := h
    exact (Stands.places value hs).widen (Nat.le_refl _) (Nat.le_succ _)
  | .primitive op args =>
    rw [Stands] at h
    obtain ⟨harity, vr, a, hs, rfl, -⟩ := h
    have hargs : args.length ≤ 1 := by
      rw [harity]
      cases op <;> decide
    exact (StandsFirst.places args hargs hs).widen (Nat.le_refl _) (Nat.le_succ _)
  | .forEach .. | .yield _ =>
    rw [Stands] at h
    exact h.elim

theorem StandsAll.places (nodes : List Node) {base stop : Nat} {es : Nat → Entries}
    (h : StandsAll program base nodes es stop) :
    program.Places base stop (Node.functionsOf es nodes) := by
  match nodes with
  | [] =>
    rw [StandsAll] at h
    exact .nil (Nat.le_of_eq h.symm)
  | node :: nodes =>
    rw [StandsAll] at h
    obtain ⟨vr, a, b, hs, hc, hrest⟩ := h
    exact (Stands.places node hs).append (StandsAll.places nodes hrest) hc.le

theorem StandsChunks.places (nodes : List Node) {base stop k : Nat} {es : Nat → Entries}
    (h : StandsChunks program base k nodes es stop) :
    program.Places base stop (Node.functionsOf es nodes) := by
  match nodes with
  | [] =>
    rw [StandsChunks] at h
    exact .nil (Nat.le_of_eq h.symm)
  | node :: nodes =>
    rw [StandsChunks] at h
    obtain ⟨vr, a, b, c, hs, hc, hg, hrest⟩ := h
    exact (Stands.places node hs).append (StandsChunks.places nodes hrest)
      (Nat.le_trans hc.le hg.le)

theorem StandsBlock.places (nodes : List Node) {dest r : Operand} {base stop : Nat}
    {es : Nat → Entries} (h : StandsBlock program dest base nodes es r stop) :
    program.Places base stop (Node.functionsOf es nodes) := by
  match nodes with
  | [] =>
    rw [StandsBlock] at h
    exact .nil (Nat.le_of_eq h.2.symm)
  | [last] =>
    rw [StandsBlock] at h
    rw [Node.functionsOf, Node.functionsOf, List.append_nil]
    exact Stands.places last h
  | node :: next :: nodes =>
    rw [StandsBlock] at h
    · obtain ⟨vr, a, b, hs, hd, hrest⟩ := h
      exact (Stands.places node hs).append (StandsBlock.places (next :: nodes) hrest) hd.le
    · intro h
      cases h

theorem StandsOption.places (node : Option Node) {r : Operand} {base stop : Nat} {e : Entries}
    (h : StandsOption program base node e r stop) :
    program.Places base stop (Node.functionsOption e node) := by
  match node with
  | none =>
    rw [StandsOption] at h
    exact .nil (Nat.le_of_eq h.2.symm)
  | some node =>
    rw [StandsOption] at h
    exact Stands.places node h

theorem StandsFirst.places (nodes : List Node) (hlen : nodes.length ≤ 1) {r : Operand}
    {base stop : Nat} {es : Nat → Entries} (h : StandsFirst program base nodes (es 0) r stop) :
    program.Places base stop (Node.functionsOf es nodes) := by
  match nodes with
  | [] =>
    rw [StandsFirst] at h
    exact .nil (Nat.le_of_eq h.2.symm)
  | [node] =>
    rw [StandsFirst] at h
    rw [Node.functionsOf, Node.functionsOf, List.append_nil]
    exact Stands.places node h
  | _ :: _ :: _ => cases Nat.le_of_succ_le_succ hlen

end

end

/-! ## Bodies that are known -/

section

variable {program p : Program} {bodies : Bodies} {base stop entry : Nat} {fs : List (Nat × Body)}
  {body : Body}

/-- The body of a function is found by its entry. -/
theorem Walk.Bodies.add_eq (h : program.Places base stop fs) {f : Nat × Body} (hf : f ∈ fs) :
    bodies.add fs f.1 = some f.2 := by
  rw [Bodies.add, h.lookup hf, Option.some_or]

/-- Bodies from before are still found. -/
theorem Walk.Bodies.add_of_le (h : program.Places base stop fs) (hle : entry ≤ base) :
    bodies.add fs entry = bodies entry := by
  have hnone : fs.lookup entry = none := List.lookup_eq_none_iff.2 fun f hf => by
    have := h.inside f hf
    exact bne_iff_ne.2 (by omega)
  rw [Bodies.add, hnone, Option.none_or]

theorem Walk.Bodies.mem_of_add (h : bodies.add fs entry = some body) :
    (entry, body) ∈ fs ∨ bodies entry = some body := by
  rcases Option.or_eq_some_iff.1 h with hfs | ⟨-, hbodies⟩
  · obtain ⟨before, after, rfl, -⟩ := List.lookup_eq_some_iff.1 hfs
    exact .inl (by simp)
  · exact .inr hbodies

theorem Program.Knows.add (hk : p.Knows bodies) (hp : p.Within program)
    (h : program.Places base stop fs) : program.Knows (bodies.add fs) := by
  intro entry body hentry
  rcases Bodies.mem_of_add hentry with hmem | hbody
  · exact ⟨program, .refl program, h.seats _ hmem⟩
  · obtain ⟨q, hq, hseats⟩ := hk entry body hbody
    exact ⟨q, hq.trans hp, hseats⟩

end

end YieldMachine
