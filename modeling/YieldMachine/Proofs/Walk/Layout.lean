import YieldMachine.Proofs.Compile.Parts
import YieldMachine.Proofs.Scope.Place
import YieldMachine.Proofs.Walk.Evaluator

/-!
# Where the code of a tree stands

`Stands program dest base node e r stop` says that the code of a node stands in the
program from `base` to `stop`, that its value can be read at `r` behind it, and that the
bodies of its functions start at the entries `e`. The entry of a function is the place
behind the jump around its body.

    Code.stands   the code of a node stands where the program holds it
-/

namespace YieldMachine

open Walk

/-! ## Trees that can be walked -/

/-- No producers, and numbers of parameters and slots that are no negative numbers of 64 bits. -/
def Node.IsPlain : Node → Prop
  | .forEach .. | .yield _ => False
  | .function params frameSize _ =>
    params.toNat < 2 ^ 63 ∧ frameSize.toNat < 2 ^ 63
  | _ => True

/-- A tree of plain nodes. -/
def Node.Walkable (node : Node) : Prop :=
  ∀ part : Node, part.Part node → part.IsPlain

theorem Node.Walkable.isPlain {node : Node} (h : node.Walkable) : node.IsPlain :=
  h node (.self node)

theorem Node.Walkable.child {node child : Node} (h : node.Walkable)
    (hc : child ∈ node.children) : child.Walkable :=
  fun part hp => h part (.inside hc hp)

theorem Node.walkable_iff {node : Node} :
    node.Walkable ↔ node.IsPlain ∧ ∀ child ∈ node.children, child.Walkable := by
  refine ⟨fun h => ⟨h.isPlain, fun child hc => h.child hc⟩, fun ⟨hplain, hchildren⟩ part hp => ?_⟩
  cases hp with
  | self => exact hplain
  | inside hc hp => exact hchildren _ hc part hp

theorem Node.Walkable.leaf {node : Node} (h : node.IsPlain) (hnone : node.children = []) :
    node.Walkable :=
  Node.walkable_iff.2 ⟨h, by simp [hnone]⟩

/-! ## Pieces of code -/

/-- A jump by an operand leads to a place of the program. -/
def Program.Leaps (program : Program) (ip : Nat) (o : Operand) (target : Nat) : Prop :=
  program.InRange ip o ∧ Program.jumpTarget ip o = target

/-- The code that makes the value at `r` available at `dest`. -/
def Program.Carries (program : Program) (r dest : Operand) (base stop : Nat) : Prop :=
  if r = dest then stop = base
  else program.instruction? base = some ⟨.move, dest, r, .unused⟩ ∧ stop = base + 1

/-- The code that drops a value that nobody reads. -/
def Program.Drops (program : Program) (r : Operand) (base stop : Nat) : Prop :=
  if r.isStack then program.instruction? base = some (.bare .pop) ∧ stop = base + 1
  else stop = base

/-- The code behind the `k`-th element of an array that is built in chunks. -/
def Program.Gathers (program : Program) (k : Nat) (isLast : Bool) (base stop : Nat) : Prop :=
  program.Holds base (gather k isLast).toList ∧ stop = base + (gather k isLast).size

/-! ## Nodes -/

mutual

/-- The code of a node stands from `base` to `stop`, and its value is at `r`. -/
def Stands (program : Program) (dest : Operand) (base : Nat) :
    Node → Entries → Operand → Nat → Prop
  | .literal value, _, r, stop => program.pool.Constant r value.value ∧ stop = base
  | .ref target, _, r, stop => program.pool.Variable target r ∧ stop = base
  | .assign target value, e, r, stop =>
    program.pool.Variable target r ∧ ∃ vr a, Stands program r base value (e.under 0) vr a ∧
      program.Carries vr r a stop
  | .unary op operand, e, r, stop =>
    r = dest ∧ ∃ vr a, Stands program .stack base operand (e.under 0) vr a ∧
      program.instruction? a = some ⟨op.opcode, dest, vr, .unused⟩ ∧ stop = a + 1
  | .binary left op right, e, r, stop =>
    r = dest ∧ ∃ lr a b rr c, Stands program .stack base left (e.under 0) lr a ∧
      program.Carries lr (pinnedAt [right] lr) a b ∧
      Stands program .stack b right (e.under 1) rr c ∧
      program.instruction? c = some ⟨op.opcode, dest, pinnedAt [right] lr, rr⟩ ∧ stop = c + 1
  | .index target place, e, r, stop =>
    r = dest ∧ ∃ lr a b rr c, Stands program .stack base target (e.under 0) lr a ∧
      program.Carries lr (pinnedAt [place] lr) a b ∧
      Stands program .stack b place (e.under 1) rr c ∧
      program.instruction? c = some ⟨.index, dest, pinnedAt [place] lr, rr⟩ ∧ stop = c + 1
  | .slice target start stop, e, r, last =>
    r = .stack ∧ ∃ tr a b ar c d br f, Stands program .stack base target (e.under 0) tr a ∧
      program.Carries tr (pinnedAt [start, stop] tr) a b ∧
      Stands program .stack b start (e.under 1) ar c ∧
      program.Carries ar (pinnedAt [stop] ar) c d ∧
      Stands program .stack d stop (e.under 2) br f ∧
      program.instruction? f =
        some ⟨.slice, pinnedAt [start, stop] tr, pinnedAt [stop] ar, br⟩ ∧ last = f + 1
  | .len target, e, r, stop =>
    r = dest ∧ ∃ vr a, Stands program .stack base target (e.under 0) vr a ∧
      program.instruction? a = some ⟨.len, dest, vr, .unused⟩ ∧ stop = a + 1
  | .array elements, e, r, stop =>
    r = dest ∧ ∃ a,
      if elements.length ≤ chunkLength then
        StandsAll program base elements e.under a ∧
          program.instruction? a =
            some ⟨.makeArray, dest, ⟨.immediate, elements.length⟩, .unused⟩ ∧ stop = a + 1
      else StandsChunks program base 0 elements e.under a ∧ program.Carries .stack dest a stop
  | .block nodes, e, r, stop => StandsBlock program dest base nodes e.under r stop
  | .cond condition thenBranch elseBranch, e, r, stop =>
    r = .stack ∧ ∃ cr a o tr b c o' er d, Stands program .stack base condition (e.under 0) cr a ∧
      program.instruction? a = some ⟨.jumpIfFalse, o, cr, .unused⟩ ∧
      program.Leaps a o (c + 1) ∧
      Stands program .stack (a + 1) thenBranch (e.under 1) tr b ∧
      program.Carries tr .stack b c ∧
      program.instruction? c = some ⟨.jump, o', .unused, .unused⟩ ∧ program.Leaps c o' stop ∧
      StandsOption program (c + 1) elseBranch (e.under 2) er d ∧ program.Carries er .stack d stop
  | .loop condition body, e, r, stop =>
    r = .stack ∧ ∃ nil cr a o br b c o', program.pool.Constant nil .nil ∧
      program.instruction? base = some ⟨.move, .stack, nil, .unused⟩ ∧
      Stands program .stack (base + 1) condition (e.under 0) cr a ∧
      program.instruction? a = some ⟨.jumpIfFalse, o, cr, .unused⟩ ∧
      program.Leaps a o stop ∧
      program.instruction? (a + 1) = some (.bare .pop) ∧
      Stands program .stack (a + 2) body (e.under 1) br b ∧ program.Carries br .stack b c ∧
      program.instruction? c = some ⟨.jump, o', .unused, .unused⟩ ∧
      program.Leaps c o' (base + 1) ∧ stop = c + 1
  | .function params frameSize body, e, r, stop =>
    r = .stack ∧ ∃ o br a o' count size, e [] = base + 1 ∧
      program.instruction? base = some ⟨.jump, o, .unused, .unused⟩ ∧
      program.Leaps base o (a + 1) ∧
      Stands program .stack (base + 1) body (e.under 0) br a ∧
      program.instruction? a = some ⟨.ret, .unused, br, .unused⟩ ∧
      program.instruction? (a + 1) = some ⟨.makeFunction, o', count, size⟩ ∧
      program.Leaps (a + 1) o' (base + 1) ∧ count.address.toNat = params.toNat ∧
      size.address.toNat = max params.toNat frameSize.toNat ∧ stop = a + 2
  | .call callee args, e, r, stop =>
    r = .stack ∧ ∃ a fr b, StandsAll program base args (fun i => e.under (i + 1)) a ∧
      Stands program .stack a callee (e.under 0) fr b ∧
      program.instruction? b = some ⟨.call, ⟨.immediate, args.length⟩, fr, .unused⟩ ∧
      stop = b + 1
  | .ret value, e, r, stop =>
    program.pool.Constant r .nil ∧ ∃ vr a, Stands program .stack base value (e.under 0) vr a ∧
      program.instruction? a = some ⟨.ret, .unused, vr, .unused⟩ ∧ stop = a + 1
  | .primitive op args, e, r, stop =>
    args.length = op.arity ∧ ∃ vr a, StandsFirst program base args (e.under 0) vr a ∧
      stop = a + 1 ∧
      if op = .exit then
        program.pool.Constant r .nil ∧
          program.instruction? a = some ⟨.exit, .unused, vr, .unused⟩
      else r = dest ∧ program.instruction? a = some ⟨op.opcode, dest, vr, .unused⟩
  | .forEach .., _, _, _ | .yield _, _, _, _ => False

/-- The code of nodes whose values all go onto the stack. -/
def StandsAll (program : Program) (base : Nat) : List Node → (Nat → Entries) → Nat → Prop
  | [], _, stop => stop = base
  | node :: nodes, es, stop =>
    ∃ vr a b, Stands program .stack base node (es 0) vr a ∧ program.Carries vr .stack a b ∧
      StandsAll program b nodes (fun i => es (i + 1)) stop

/-- The code of the elements of a long array behind the first `k` of them. -/
def StandsChunks (program : Program) (base k : Nat) : List Node → (Nat → Entries) → Nat → Prop
  | [], _, stop => stop = base
  | node :: nodes, es, stop =>
    ∃ vr a b c, Stands program .stack base node (es 0) vr a ∧ program.Carries vr .stack a b ∧
      program.Gathers (k + 1) nodes.isEmpty b c ∧
      StandsChunks program c (k + 1) nodes (fun i => es (i + 1)) stop

/-- The code of a block: all values but the last are dropped. -/
def StandsBlock (program : Program) (dest : Operand) (base : Nat) :
    List Node → (Nat → Entries) → Operand → Nat → Prop
  | [], _, r, stop => program.pool.Constant r .nil ∧ stop = base
  | [last], es, r, stop => Stands program dest base last (es 0) r stop
  | node :: nodes, es, r, stop =>
    ∃ vr a b, Stands program .stack base node (es 0) vr a ∧ program.Drops vr a b ∧
      StandsBlock program dest b nodes (fun i => es (i + 1)) r stop

/-- The code of a branch that may be missing. -/
def StandsOption (program : Program) (base : Nat) :
    Option Node → Entries → Operand → Nat → Prop
  | none, _, r, stop => program.pool.Constant r .nil ∧ stop = base
  | some node, e, r, stop => Stands program .stack base node e r stop

/-- The code of the argument of a primitive, if it has one. -/
def StandsFirst (program : Program) (base : Nat) : List Node → Entries → Operand → Nat → Prop
  | [], _, r, stop => r = .unused ∧ stop = base
  | node :: _, e, r, stop => Stands program .stack base node e r stop

end

/-! ## Pieces of code in a program -/

variable {program : Program} {base stop : Nat} {code xs ys : List Instruction} {r dest : Operand}

/-- The program has this code from `base` to `stop`. -/
structure Program.Spans (program : Program) (base : Nat) (code : List Instruction) (stop : Nat) :
    Prop where
  holds : program.Holds base code
  length : stop = base + code.length

theorem Program.Spans.append (h : program.Spans base (xs ++ ys) stop) :
    ∃ mid, program.Spans base xs mid ∧ program.Spans mid ys stop := by
  obtain ⟨hxs, hys⟩ := Program.holds_append.1 h.holds
  refine ⟨base + xs.length, ⟨hxs, rfl⟩, hys, ?_⟩
  rw [h.length, List.length_append, Nat.add_assoc]

theorem Program.Spans.one {i : Instruction} (h : program.Spans base [i] stop) :
    program.instruction? base = some i ∧ stop = base + 1 :=
  ⟨h.holds.1, h.length⟩

theorem Program.Spans.two {i j : Instruction} (h : program.Spans base [i, j] stop) :
    program.instruction? base = some i ∧ program.instruction? (base + 1) = some j ∧
      stop = base + 2 :=
  ⟨h.holds.1, h.holds.2.1, h.length⟩

theorem Program.Spans.le_size (h : program.Spans base code stop) (hne : code ≠ []) :
    stop ≤ program.code.size :=
  h.length ▸ Program.Holds.le_size h.holds hne

theorem Program.carries_refl (r : Operand) : program.Carries r r base base := by
  rw [Program.Carries, if_pos rfl]

theorem Program.Spans.moved (h : program.Spans base (moved r dest) stop) :
    program.Carries r dest base stop := by
  unfold YieldMachine.moved materialize at h
  unfold Program.Carries
  split at h
  · next heq => rw [if_pos heq, h.length]; rfl
  · next hne => rw [if_neg hne]; exact h.one

theorem Program.Spans.pushed (h : program.Spans base (pushed code r) stop) :
    ∃ mid, program.Spans base code mid ∧ program.Carries r .stack mid stop := by
  obtain ⟨mid, hcode, hmoved⟩ := h.append
  exact ⟨mid, hcode, hmoved.moved⟩

theorem Program.Spans.pinned {later : List Node}
    (h : program.Spans base (pinned later code r) stop) :
    ∃ mid, program.Spans base code mid ∧ program.Carries r (pinnedAt later r) mid stop := by
  unfold YieldMachine.pinned at h
  unfold pinnedAt
  split at h
  · next hd =>
    rw [if_pos hd]
    exact h.pushed
  · next hd =>
    rw [if_neg hd]
    exact ⟨stop, h, Program.carries_refl r⟩

theorem Program.Spans.dropped (h : program.Spans base (dropped code r) stop) :
    ∃ mid, program.Spans base code mid ∧ program.Drops r mid stop := by
  obtain ⟨mid, hcode, hdrop⟩ := h.append
  refine ⟨mid, hcode, ?_⟩
  unfold dropCode at hdrop
  unfold Program.Drops
  split at hdrop
  · next hs => rw [if_pos hs]; exact hdrop.one
  · next hs => rw [if_neg hs]; exact hdrop.length

theorem Program.leaps_jump {ip d target : Nat} (ht : target = ip + 1 + d)
    (h : target ≤ program.code.size) : program.Leaps ip (.jump d) target := by
  subst ht
  exact ⟨Program.inRange_jump h, Program.jumpTarget_jump d⟩

theorem Program.leaps_back {ip d target : Nat} (ht : target + d = ip + 1)
    (hs : ip + 1 ≤ program.code.size) : program.Leaps ip (.jump (-(d : Int))) target := by
  obtain rfl : target = ip + 1 - d := by omega
  exact ⟨Program.inRange_back (by omega) hs, Program.jumpTarget_back (by omega)⟩

/-! ## Nodes in a program -/

mutual

/-- The code of a node stands where the program holds it. -/
theorem Code.stands (node : Node) {base stop : Nat} {dest r : Operand} {code : List Instruction}
    (h : Code program.pool dest node code r) (hc : program.Spans base code stop)
    (hn : node.Walkable) : ∃ e, Stands program dest base node e r stop := by
  match node with
  | .literal value | .ref target =>
    rw [Code] at h
    obtain ⟨rfl, hr⟩ := h
    exact ⟨fun _ => 0, by rw [Stands]; exact ⟨hr, hc.length⟩⟩
  | .assign target value =>
    rw [Code] at h
    obtain ⟨hr, vc, vr, hv, rfl⟩ := h
    obtain ⟨a, hvc, hmoved⟩ := hc.append
    obtain ⟨e, he⟩ := Code.stands value hv hvc (hn.child (by simp [Node.children]))
    refine ⟨.join 0 fun _ => e, ?_⟩
    rw [Stands]
    exact ⟨hr, vr, a, he, hmoved.moved⟩
  | .unary op operand =>
    rw [Code] at h
    obtain ⟨hr, vc, vr, hv, rfl⟩ := h
    obtain ⟨a, hvc, hi⟩ := hc.append
    obtain ⟨e, he⟩ := Code.stands operand hv hvc (hn.child (by simp [Node.children]))
    refine ⟨.join 0 fun _ => e, ?_⟩
    rw [Stands]
    exact ⟨hr, vr, a, he, hi.one⟩
  | .binary left op right =>
    rw [Code] at h
    obtain ⟨hr, lc, lr, rc, rr, hl, hrr, rfl⟩ := h
    obtain ⟨c, hcode, hi⟩ := hc.append
    obtain ⟨b, hlc, hrc⟩ := hcode.append
    obtain ⟨a, hlc, hpin⟩ := hlc.pinned
    obtain ⟨e, he⟩ := Code.stands left hl hlc (hn.child (by simp [Node.children]))
    obtain ⟨e', he'⟩ := Code.stands right hrr hrc (hn.child (by simp [Node.children]))
    refine ⟨.join 0 fun i => if i = 0 then e else e', ?_⟩
    rw [Stands]
    exact ⟨hr, lr, a, b, rr, c, he, hpin, he', hi.one⟩
  | .index target place =>
    rw [Code] at h
    obtain ⟨hr, lc, lr, rc, rr, hl, hrr, rfl⟩ := h
    obtain ⟨c, hcode, hi⟩ := hc.append
    obtain ⟨b, hlc, hrc⟩ := hcode.append
    obtain ⟨a, hlc, hpin⟩ := hlc.pinned
    obtain ⟨e, he⟩ := Code.stands target hl hlc (hn.child (by simp [Node.children]))
    obtain ⟨e', he'⟩ := Code.stands place hrr hrc (hn.child (by simp [Node.children]))
    refine ⟨.join 0 fun i => if i = 0 then e else e', ?_⟩
    rw [Stands]
    exact ⟨hr, lr, a, b, rr, c, he, hpin, he', hi.one⟩
  | .slice target start stop =>
    rw [Code] at h
    obtain ⟨hr, tc, tr, ac, ar, bc, br, ht, ha, hb, rfl⟩ := h
    obtain ⟨f, hcode, hi⟩ := hc.append
    obtain ⟨d, hcode, hbc⟩ := hcode.append
    obtain ⟨b, htc, hac⟩ := hcode.append
    obtain ⟨a, htc, hpin⟩ := htc.pinned
    obtain ⟨c, hac, hpin'⟩ := hac.pinned
    obtain ⟨e, he⟩ := Code.stands target ht htc (hn.child (by simp [Node.children]))
    obtain ⟨e', he'⟩ := Code.stands start ha hac (hn.child (by simp [Node.children]))
    obtain ⟨e'', he''⟩ := Code.stands stop hb hbc (hn.child (by simp [Node.children]))
    refine ⟨.join 0 fun i => if i = 0 then e else if i = 1 then e' else e'', ?_⟩
    rw [Stands]
    exact ⟨hr, tr, a, b, ar, c, d, br, f, he, hpin, he', hpin', he'', hi.one⟩
  | .len target =>
    rw [Code] at h
    obtain ⟨hr, vc, vr, hv, rfl⟩ := h
    obtain ⟨a, hvc, hi⟩ := hc.append
    obtain ⟨e, he⟩ := Code.stands target hv hvc (hn.child (by simp [Node.children]))
    refine ⟨.join 0 fun _ => e, ?_⟩
    rw [Stands]
    exact ⟨hr, vr, a, he, hi.one⟩
  | .array elements =>
    rw [Code] at h
    obtain ⟨hr, h⟩ := h
    have hwalk : ∀ node ∈ elements, node.Walkable := fun _ hmem => hn.child hmem
    split at h
    · next hshort =>
      obtain ⟨ec, hec, rfl⟩ := h
      obtain ⟨a, hc, hi⟩ := hc.append
      obtain ⟨es, hes⟩ := CodeAll.stands elements hec hc hwalk
      refine ⟨.join 0 es, ?_⟩
      rw [Stands]
      refine ⟨hr, a, ?_⟩
      rw [if_pos hshort]
      exact ⟨hes, hi.one⟩
    · next hlong =>
      obtain ⟨ec, hec, rfl⟩ := h
      obtain ⟨a, hc, hmoved⟩ := hc.append
      obtain ⟨es, hes⟩ := CodeChunks.stands elements hec hc hwalk
      refine ⟨.join 0 es, ?_⟩
      rw [Stands]
      refine ⟨hr, a, ?_⟩
      rw [if_neg hlong]
      exact ⟨hes, hmoved.moved⟩
  | .block nodes =>
    rw [Code] at h
    obtain ⟨es, hes⟩ := CodeBlock.stands nodes h hc fun _ hmem => hn.child hmem
    exact ⟨.join 0 es, by rw [Stands]; exact hes⟩
  | .cond condition thenBranch elseBranch =>
    rw [Code] at h
    obtain ⟨hr, cc, cr, tc, tr, ec, er, hcond, ht, he, rfl⟩ := h
    have hsize := hc.le_size (by simp)
    obtain ⟨start, hc, hec⟩ := hc.append
    obtain ⟨c, hc, hskip⟩ := hc.append
    obtain ⟨top, hc, htc⟩ := hc.append
    obtain ⟨a, hcc, hi⟩ := hc.append
    obtain ⟨htest, rfl⟩ := hi.one
    obtain ⟨hjump, rfl⟩ := hskip.one
    have hthen := htc.length
    have helse := hec.length
    obtain ⟨b, htc, htm⟩ := htc.pushed
    obtain ⟨d, hec, hem⟩ := hec.pushed
    obtain ⟨e, hse⟩ := Code.stands condition hcond hcc (hn.child (by simp [Node.children]))
    obtain ⟨e', hse'⟩ := Code.stands thenBranch ht htc (hn.child (by simp [Node.children]))
    obtain ⟨e'', hse''⟩ := CodeOption.stands elseBranch he hec fun node hnode =>
      hn.child (by simp [Node.children, Option.mem_def.1 hnode])
    refine ⟨.join 0 fun i => if i = 0 then e else if i = 1 then e' else e'', ?_⟩
    rw [Stands]
    exact ⟨hr, cr, a, _, tr, b, c, _, er, d, hse, htest,
      Program.leaps_jump (by omega) (by omega), hse', htm, hjump,
      Program.leaps_jump helse hsize, hse'', hem⟩
  | .loop condition body =>
    rw [Code] at h
    obtain ⟨hr, nil, cc, cr, bc, br, hnil, hcond, hb, rfl⟩ := h
    have hsize := hc.le_size (by simp)
    obtain ⟨c, hc, hback⟩ := hc.append
    obtain ⟨top, hc, hbc⟩ := hc.append
    obtain ⟨a, hc, hi⟩ := hc.append
    obtain ⟨first, hnilc, hcc⟩ := hc.append
    obtain ⟨hmove, rfl⟩ := hnilc.one
    obtain ⟨htest, hpop, rfl⟩ := hi.two
    obtain ⟨hjump, rfl⟩ := hback.one
    have hcondition := hcc.length
    have hbody := hbc.length
    obtain ⟨b, hbc, hbm⟩ := hbc.pushed
    obtain ⟨e, he⟩ := Code.stands condition hcond hcc (hn.child (by simp [Node.children]))
    obtain ⟨e', he'⟩ := Code.stands body hb hbc (hn.child (by simp [Node.children]))
    refine ⟨.join 0 fun i => if i = 0 then e else e', ?_⟩
    rw [Stands]
    exact ⟨hr, nil, cr, a, _, br, b, c, _, hnil, hmove, he, htest,
      Program.leaps_jump (by omega) hsize, hpop, he', hbm, hjump,
      Program.leaps_back (by omega) hsize, rfl⟩
  | .function params frameSize body =>
    rw [Code] at h
    obtain ⟨hr, bc, br, hb, rfl⟩ := h
    have hsize := hc.le_size (by simp)
    obtain ⟨a, hc, hends⟩ := hc.append
    obtain ⟨first, hskip, hbc⟩ := hc.append
    obtain ⟨hjump, rfl⟩ := hskip.one
    obtain ⟨hret, hmake, rfl⟩ := hends.two
    have hbody := hbc.length
    obtain ⟨e, he⟩ := Code.stands body hb hbc (hn.child (by simp [Node.children]))
    obtain ⟨hp, hf⟩ := hn.isPlain
    have hslots := toNat_slotCount params frameSize
    refine ⟨.join (base + 1) fun _ => e, ?_⟩
    rw [Stands]
    exact ⟨hr, _, br, a, _, _, _, rfl, hjump, Program.leaps_jump (by omega) (by omega), he, hret,
      hmake, Program.leaps_back (by omega) (by omega), UInt64.toNat_toInt_toInt64 hp,
      (UInt64.toNat_toInt_toInt64 (by omega)).trans hslots, rfl⟩
  | .call callee args =>
    rw [Code] at h
    obtain ⟨hr, ac, fc, fr, ha, hf, rfl⟩ := h
    obtain ⟨b, hc, hi⟩ := hc.append
    obtain ⟨a, hac, hfc⟩ := hc.append
    obtain ⟨es, hes⟩ := CodeAll.stands args ha hac fun _ hmem =>
      hn.child (by simp [Node.children, hmem])
    obtain ⟨e, he⟩ := Code.stands callee hf hfc (hn.child (by simp [Node.children]))
    refine ⟨.join 0 fun i => Nat.casesOn i e es, ?_⟩
    rw [Stands]
    exact ⟨hr, a, fr, b, hes, he, hi.one⟩
  | .ret value =>
    rw [Code] at h
    obtain ⟨hr, vc, vr, hv, rfl⟩ := h
    obtain ⟨a, hvc, hi⟩ := hc.append
    obtain ⟨e, he⟩ := Code.stands value hv hvc (hn.child (by simp [Node.children]))
    refine ⟨.join 0 fun _ => e, ?_⟩
    rw [Stands]
    exact ⟨hr, vr, a, he, hi.one⟩
  | .primitive op args =>
    rw [Code] at h
    obtain ⟨harity, vc, vr, hv, h⟩ := h
    split at h
    · next hexit =>
      obtain ⟨hr, rfl⟩ := h
      obtain ⟨a, hvc, hi⟩ := hc.append
      obtain ⟨e, he⟩ := CodeFirst.stands args hv hvc fun _ hmem => hn.child hmem
      refine ⟨.join 0 fun _ => e, ?_⟩
      rw [Stands]
      refine ⟨harity, vr, a, he, hi.one.2, ?_⟩
      rw [if_pos hexit]
      exact ⟨hr, hi.one.1⟩
    · next hexit =>
      obtain ⟨hr, rfl⟩ := h
      obtain ⟨a, hvc, hi⟩ := hc.append
      obtain ⟨e, he⟩ := CodeFirst.stands args hv hvc fun _ hmem => hn.child hmem
      refine ⟨.join 0 fun _ => e, ?_⟩
      rw [Stands]
      refine ⟨harity, vr, a, he, hi.one.2, ?_⟩
      rw [if_neg hexit]
      exact ⟨hr, hi.one.1⟩
  | .forEach refs iterators body => exact hn.isPlain.elim
  | .yield value => exact hn.isPlain.elim

/-- Nodes whose values all go onto the stack. -/
theorem CodeAll.stands (nodes : List Node) {base stop : Nat} {code : List Instruction}
    (h : CodeAll program.pool nodes code) (hc : program.Spans base code stop)
    (hn : ∀ node ∈ nodes, node.Walkable) :
    ∃ es, StandsAll program base nodes es stop := by
  match nodes with
  | [] =>
    rw [CodeAll] at h
    subst h
    exact ⟨fun _ _ => 0, by rw [StandsAll]; exact hc.length⟩
  | node :: nodes =>
    rw [CodeAll] at h
    obtain ⟨vc, vr, rest, hv, hrest, rfl⟩ := h
    obtain ⟨b, hvc, hc⟩ := hc.append
    obtain ⟨a, hvc, hm⟩ := hvc.pushed
    obtain ⟨e, he⟩ := Code.stands node hv hvc (hn node (by simp))
    obtain ⟨es, hes⟩ := CodeAll.stands nodes hrest hc fun n hmem => hn n (by simp [hmem])
    refine ⟨fun i => Nat.casesOn i e es, ?_⟩
    rw [StandsAll]
    exact ⟨vr, a, b, he, hm, hes⟩

/-- The elements of a long array. -/
theorem CodeChunks.stands (nodes : List Node) {base stop k : Nat} {code : List Instruction}
    (h : CodeChunks program.pool k nodes code) (hc : program.Spans base code stop)
    (hn : ∀ node ∈ nodes, node.Walkable) :
    ∃ es, StandsChunks program base k nodes es stop := by
  match nodes with
  | [] =>
    rw [CodeChunks] at h
    subst h
    exact ⟨fun _ _ => 0, by rw [StandsChunks]; exact hc.length⟩
  | node :: nodes =>
    rw [CodeChunks] at h
    obtain ⟨vc, vr, rest, hv, hrest, rfl⟩ := h
    obtain ⟨c, hvc, hc⟩ := hc.append
    obtain ⟨b, hvc, hg⟩ := hvc.append
    obtain ⟨a, hvc, hm⟩ := hvc.pushed
    obtain ⟨e, he⟩ := Code.stands node hv hvc (hn node (by simp))
    obtain ⟨es, hes⟩ := CodeChunks.stands nodes hrest hc fun n hmem => hn n (by simp [hmem])
    refine ⟨fun i => Nat.casesOn i e es, ?_⟩
    rw [StandsChunks]
    exact ⟨vr, a, b, c, he, hm, ⟨hg.holds, hg.length⟩, hes⟩

/-- The nodes of a block. -/
theorem CodeBlock.stands (nodes : List Node) {base stop : Nat} {dest r : Operand}
    {code : List Instruction} (h : CodeBlock program.pool dest nodes code r)
    (hc : program.Spans base code stop) (hn : ∀ node ∈ nodes, node.Walkable) :
    ∃ es, StandsBlock program dest base nodes es r stop := by
  match nodes with
  | [] =>
    rw [CodeBlock] at h
    obtain ⟨rfl, hr⟩ := h
    exact ⟨fun _ _ => 0, by rw [StandsBlock]; exact ⟨hr, hc.length⟩⟩
  | [last] =>
    rw [CodeBlock] at h
    obtain ⟨e, he⟩ := Code.stands last h hc (hn last (by simp))
    exact ⟨fun _ => e, by rw [StandsBlock]; exact he⟩
  | node :: next :: nodes =>
    rw [CodeBlock] at h
    · obtain ⟨vc, vr, rest, hv, hrest, rfl⟩ := h
      obtain ⟨b, hvc, hc⟩ := hc.append
      obtain ⟨a, hvc, hd⟩ := hvc.dropped
      obtain ⟨e, he⟩ := Code.stands node hv hvc (hn node (by simp))
      obtain ⟨es, hes⟩ := CodeBlock.stands (next :: nodes) hrest hc fun n hmem =>
        hn n (List.mem_cons_of_mem _ hmem)
      refine ⟨fun i => Nat.casesOn i e es, ?_⟩
      rw [StandsBlock]
      · exact ⟨vr, a, b, he, hd, hes⟩
      · intro h
        cases h
    · intro h
      cases h

/-- A branch that may be missing. -/
theorem CodeOption.stands (node : Option Node) {base stop : Nat} {r : Operand}
    {code : List Instruction} (h : CodeOption program.pool node code r)
    (hc : program.Spans base code stop) (hn : ∀ branch ∈ node, branch.Walkable) :
    ∃ e, StandsOption program base node e r stop := by
  match node with
  | none =>
    rw [CodeOption] at h
    obtain ⟨rfl, hr⟩ := h
    exact ⟨fun _ => 0, by rw [StandsOption]; exact ⟨hr, hc.length⟩⟩
  | some node =>
    rw [CodeOption] at h
    obtain ⟨e, he⟩ := Code.stands node h hc (hn node rfl)
    exact ⟨e, by rw [StandsOption]; exact he⟩

/-- The argument of a primitive. -/
theorem CodeFirst.stands (nodes : List Node) {base stop : Nat} {r : Operand}
    {code : List Instruction} (h : CodeFirst program.pool nodes code r)
    (hc : program.Spans base code stop) (hn : ∀ node ∈ nodes, node.Walkable) :
    ∃ e, StandsFirst program base nodes e r stop := by
  match nodes with
  | [] =>
    rw [CodeFirst] at h
    obtain ⟨rfl, hr⟩ := h
    exact ⟨fun _ => 0, by rw [StandsFirst]; exact ⟨hr, hc.length⟩⟩
  | node :: nodes =>
    rw [CodeFirst] at h
    obtain ⟨e, he⟩ := Code.stands node h hc (hn node (by simp))
    exact ⟨e, by rw [StandsFirst]; exact he⟩

end

end YieldMachine
