import YieldMachine.Proofs.Flow.Loop
import YieldMachine.Proofs.Walk.Layout

/-!
# Regions of code

The body of a function literal is run in an activation of its own, and an iterator of a
for loop in a context of its own. Their code stands in the middle of other code, and is a
region of it: a literal jumps around its body, and a spawn lets its consumer go on behind
the iterator.

`program.Layout around lo hi sites` says that the code from `lo` to `hi` keeps to its
regions, and `sites` where these are. A piece of a statement may have jumps that lead out
of it, and instructions that belong to a loop around it; `around` says what is left open.

    Layout.append    pieces one after the other
    Layout.enclose   a piece becomes a region
    Layout.close     nothing is left open any more
-/

namespace YieldMachine

/-! ## Regions -/

/-- A stretch of code: where it starts, and the place behind it. -/
structure Region where
  start : Nat
  stop : Nat
  deriving DecidableEq, Repr

/-- The place is in the region. -/
def Region.Has (r : Region) (ip : Nat) : Prop :=
  r.start ≤ ip ∧ ip < r.stop

/-- Two regions do not meet, or one is strictly inside the other. -/
def Region.Apart (r s : Region) : Prop :=
  r.stop ≤ s.start ∨ s.stop ≤ r.start ∨
    (r.start < s.start ∧ s.stop < r.stop) ∨ (s.start < r.start ∧ r.stop < s.stop)

/-- A part of a tree whose code is a region. -/
inductive Enclosure where
  /-- The body of a function literal. -/
  | literal (params frameSize : UInt64) (body : Node)
  /-- An iterator of a for loop, by its number. -/
  | iterator (refs : List Ref) (iterators : List Node) (body : Node) (k : Nat)

mutual

/-- The enclosures of a tree, in the order in which their code ends. -/
def Node.enclosures : Node → List Enclosure
  | .literal _ | .ref _ => []
  | .assign _ node | .unary _ node | .len node | .yield node | .ret node => node.enclosures
  | .binary left _ right => left.enclosures ++ right.enclosures
  | .index target place => target.enclosures ++ place.enclosures
  | .slice target start stop => target.enclosures ++ start.enclosures ++ stop.enclosures
  | .array nodes | .block nodes | .primitive _ nodes => Node.enclosuresAll nodes
  | .cond condition thenBranch elseBranch =>
    condition.enclosures ++ thenBranch.enclosures ++ Node.enclosuresOption elseBranch
  | .loop condition body => condition.enclosures ++ body.enclosures
  | .forEach refs iterators body =>
    Node.enclosuresEach (.iterator refs iterators body) 0 iterators ++ body.enclosures
  | .function params frameSize body => body.enclosures ++ [.literal params frameSize body]
  | .call callee args => Node.enclosuresAll args ++ callee.enclosures

/-- The enclosures of some nodes. -/
def Node.enclosuresAll : List Node → List Enclosure
  | [] => []
  | node :: nodes => node.enclosures ++ Node.enclosuresAll nodes

/-- The enclosures of a branch that may be missing. -/
def Node.enclosuresOption : Option Node → List Enclosure
  | none => []
  | some node => node.enclosures

/-- The enclosures of the iterators of a loop from number `k` on, themselves included. -/
def Node.enclosuresEach (own : Nat → Enclosure) (k : Nat) : List Node → List Enclosure
  | [] => []
  | node :: nodes => node.enclosures ++ [own k] ++ Node.enclosuresEach own (k + 1) nodes

end

/-! ## Sites -/

/-- Where an enclosure stands in a program. -/
inductive Site where
  | literal (region : Region) (params frameSize : UInt64) (body : Node)
  | iterator (l : Loop) (refs : List Ref) (iterators : List Node) (body : Node) (k : Nat)

/-- What stands there. -/
def Site.enclosure : Site → Enclosure
  | .literal _ params frameSize body => .literal params frameSize body
  | .iterator _ refs iterators body k => .iterator refs iterators body k

/-- The region of a site; that of an iterator lies between its spawn and the store of its
first value. -/
def Site.region : Site → Region
  | .literal region _ _ _ => region
  | .iterator l _ _ _ k => ⟨l.spawnAt k + 1, l.takeAt k⟩

/-- An instruction at `ip` is the one of its kind that refers to the region of the site. -/
def Site.Owns : Site → Nat → Opcode → Prop
  | .literal region _ _ _, ip, opcode => opcode = .makeFunction ∧ ip = region.stop
  | .iterator l _ _ _ k, ip, opcode =>
    opcode = .spawn ∧ ip = l.spawnAt k ∨ opcode = .resume ∧ ip = l.resumeAt k

/-- The region is the body of a literal with a return behind it. There is a jump over it, and
behind it the instruction that makes the function, with the region's start for its entry. -/
structure Program.LiteralAt (program : Program) (region : Region) (params frameSize : UInt64)
    (body : Node) : Prop where
  body : ∃ code r, Code program.pool .stack body code r ∧
    program.Holds region.start (code ++ [⟨.ret, .unused, r, .unused⟩]) ∧
    region.stop = region.start + code.length + 1
  skip : 0 < region.start ∧ ∃ o,
    program.instruction? (region.start - 1) = some ⟨.jump, o, .unused, .unused⟩ ∧
    program.Leaps (region.start - 1) o region.stop
  made : ∃ entry, program.instruction? region.stop = some ⟨.makeFunction, entry,
      ⟨.immediate, params.toInt64.toInt⟩,
      ⟨.immediate, (slotCount params frameSize).toInt64.toInt⟩⟩ ∧
    program.Leaps region.stop entry region.start

/-- Behind the spawn of producer `k` stands its iterator with its end. The spawn lets the
consumer go on right behind that end, and both the spawn and the resumption leave the loop
for the instruction that closes it. -/
structure Program.IteratorAt (program : Program) (l : Loop) (k : Nat) : Prop where
  code : program.Holds (l.spawnAt k + 1) (l.iterators.getD k [] ++ [.bare .endIter])
  spawn : ∃ i, program.instruction? (l.spawnAt k) = some i ∧ i.opcode = .spawn ∧
    program.Leaps (l.spawnAt k) i.a (l.takeAt k) ∧ program.Leaps (l.spawnAt k) i.b l.exitAt
  resume : ∃ i, program.instruction? (l.resumeAt k) = some i ∧ i.opcode = .resume ∧
    program.Leaps (l.resumeAt k) i.b l.exitAt
  close : program.instruction? l.exitAt = some (.bare .iterEnd)

/-- The program has what the site says, where it says. -/
def Site.Stands (program : Program) : Site → Prop
  | .literal region params frameSize body => program.LiteralAt region params frameSize body
  | .iterator l refs iterators body k =>
    l.In program refs iterators body ∧ k < l.count ∧ program.IteratorAt l k

/-- The place is in no region. -/
def Free (sites : List Site) (ip : Nat) : Prop :=
  ∀ s ∈ sites, ¬ s.region.Has ip

/-- The two places are in the same regions, so in the same innermost one. -/
def Together (sites : List Site) (ip t : Nat) : Prop :=
  ∀ s ∈ sites, (s.region.Has ip ↔ s.region.Has t)

/-! ## Instructions -/

/-- The operands that say where an instruction may let its context go on. -/
def Instruction.jumps (i : Instruction) : List Operand :=
  match i.opcode with
  | .jump | .jumpIfFalse => [i.a]
  | .spawn => [i.a, i.b]
  | .resume => [i.b]
  | _ => []

/-- May the context go on behind the instruction? -/
def Instruction.fallsThrough (i : Instruction) : Bool :=
  match i.opcode with
  | .jump | .ret | .spawn | .endIter => false
  | _ => true

/-- Does the instruction refer to a region? -/
def Instruction.isOwned (i : Instruction) : Bool :=
  match i.opcode with
  | .makeFunction | .spawn | .resume => true
  | _ => false

/-- The instruction only goes on behind itself, or ends what it is part of. -/
def Instruction.IsSimple (i : Instruction) : Prop :=
  i.jumps = [] ∧ i.isOwned = false

/-- What a piece of code leaves open: where its jumps may lead behind its ends, and the sites
around it that its instructions may belong to. -/
structure Around where
  exits : Nat → Prop
  sites : Site → Prop

/-- Nothing is left open. -/
def Around.none : Around :=
  ⟨fun _ => False, fun _ => False⟩

/-- The code from `lo` to `hi` keeps to its regions, which are those of the sites. Wherever an
instruction may lead is in the same regions as the instruction, and only at the end of a
region may nothing stand behind it. -/
structure Program.Layout (program : Program) (around : Around) (lo hi : Nat)
    (sites : List Site) : Prop where
  le : lo ≤ hi
  decodes : ∀ ip, lo ≤ ip → ip < hi → ∃ i, program.instruction? ip = some i
  stands : ∀ s ∈ sites, s.Stands program
  inside : ∀ s ∈ sites, lo < s.region.start ∧ s.region.stop < hi
  apart : sites.Pairwise fun s s' => s.region.Apart s'.region
  leads : ∀ ip i, lo ≤ ip → ip < hi → program.instruction? ip = some i → ∀ o ∈ i.jumps,
    ∃ t, program.Leaps ip o t ∧
      (lo ≤ t ∧ t ≤ hi ∧ Together sites ip t ∨ around.exits t ∧ Free sites ip)
  falls : ∀ ip i, lo ≤ ip → ip < hi → program.instruction? ip = some i → i.fallsThrough →
    Together sites ip (ip + 1)
  owned : ∀ ip i, lo ≤ ip → ip < hi → program.instruction? ip = some i → i.isOwned →
    ∃ s, (s ∈ sites ∨ around.sites s) ∧ s.Owns ip i.opcode

/-! ## Lemmas -/

section

variable {sites more : List Site} {ip t u : Nat}

theorem free_append : Free (sites ++ more) ip ↔ Free sites ip ∧ Free more ip := by
  simp only [Free, List.mem_append, or_imp, forall_and]

theorem together_append :
    Together (sites ++ more) ip t ↔ Together sites ip t ∧ Together more ip t := by
  simp only [Together, List.mem_append, or_imp, forall_and]

theorem Free.together (h : Free sites ip) (h' : Free sites t) : Together sites ip t :=
  fun s hs => iff_of_false (h s hs) (h' s hs)

theorem free_nil : Free [] ip :=
  fun _ h => absurd h List.not_mem_nil

theorem together_nil : Together [] ip t :=
  fun _ h => absurd h List.not_mem_nil

theorem Together.refl (sites : List Site) (ip : Nat) : Together sites ip ip :=
  fun _ _ => Iff.rfl

theorem Together.trans (h : Together sites ip t) (h' : Together sites t u) :
    Together sites ip u :=
  fun s hs => (h s hs).trans (h' s hs)

end

namespace Program

variable {program : Program} {around wider : Around} {lo mid hi ip t : Nat}
  {sites more : List Site} {i : Instruction}

theorem leaps_of_target {o : Operand} (h : jumpTarget ip o = t) (hpos : 0 < t)
    (hsize : t ≤ program.code.size) : program.Leaps ip o t := by
  refine ⟨?_, h⟩
  unfold jumpTarget at h
  unfold InRange
  omega

namespace Layout

/-- The ends of a piece are in none of its regions, and neither is anything beyond. -/
theorem free (h : program.Layout around lo hi sites) (ht : t ≤ lo ∨ hi ≤ t) :
    Free sites t := by
  intro s hs hhas
  obtain ⟨hstart, hstop⟩ := h.inside s hs
  obtain ⟨hlo, hhi⟩ := hhas
  omega

theorem nil (around : Around) (base : Nat) : program.Layout around base base [] := by
  constructor
  case le => exact Nat.le_refl _
  case apart => exact .nil
  case stands | inside => exact fun _ h => absurd h List.not_mem_nil
  all_goals
    intro ip
    intros
    omega

/-- More may be left open than is needed. -/
theorem mono (h : program.Layout around lo hi sites) (hexits : ∀ t, around.exits t → wider.exits t)
    (hsites : ∀ s, around.sites s → wider.sites s) : program.Layout wider lo hi sites := by
  refine ⟨h.le, h.decodes, h.stands, h.inside, h.apart, ?_, h.falls, ?_⟩
  · intro ip i hlo hhi hi o ho
    obtain ⟨t, hleaps, hin | ⟨hexit, hout⟩⟩ := h.leads ip i hlo hhi hi o ho
    · exact ⟨t, hleaps, .inl hin⟩
    · exact ⟨t, hleaps, .inr ⟨hexits t hexit, hout⟩⟩
  · intro ip i hlo hhi hi howned
    obtain ⟨s, hs, howns⟩ := h.owned ip i hlo hhi hi howned
    exact ⟨s, hs.imp_right (hsites s), howns⟩

theorem relax (h : program.Layout .none lo hi sites) (around : Around) :
    program.Layout around lo hi sites :=
  h.mono (fun _ h => h.elim) fun _ h => h.elim

/-- What was left open is found in the piece itself. -/
theorem close (h : program.Layout around lo hi sites)
    (hexits : ∀ t, around.exits t → wider.exits t ∨ lo ≤ t ∧ t ≤ hi ∧ Free sites t)
    (hsites : ∀ s, around.sites s → s ∈ sites ∨ wider.sites s) :
    program.Layout wider lo hi sites := by
  refine ⟨h.le, h.decodes, h.stands, h.inside, h.apart, ?_, h.falls, ?_⟩
  · intro ip i hlo hhi hi o ho
    obtain ⟨t, hleaps, hin | ⟨hexit, hout⟩⟩ := h.leads ip i hlo hhi hi o ho
    · exact ⟨t, hleaps, .inl hin⟩
    · refine ⟨t, hleaps, ?_⟩
      rcases hexits t hexit with hexit | ⟨hle, hge, ht⟩
      · exact .inr ⟨hexit, hout⟩
      · exact .inl ⟨hle, hge, hout.together ht⟩
  · intro ip i hlo hhi hi howned
    obtain ⟨s, hs | hs, howns⟩ := h.owned ip i hlo hhi hi howned
    · exact ⟨s, .inl hs, howns⟩
    · exact ⟨s, hsites s hs, howns⟩

/-- An instruction that leaves all it refers to open. -/
theorem single (hi : program.instruction? ip = some i)
    (hjumps : ∀ o ∈ i.jumps, ∃ t, program.Leaps ip o t ∧ around.exits t)
    (howned : i.isOwned → ∃ s, around.sites s ∧ s.Owns ip i.opcode) :
    program.Layout around ip (ip + 1) [] := by
  have hat : ∀ {ip' i'}, ip ≤ ip' → ip' < ip + 1 → program.instruction? ip' = some i' →
      ip' = ip ∧ i' = i := by
    intro ip' i' hlo hhi hi'
    obtain rfl : ip' = ip := by omega
    exact ⟨rfl, Option.some.inj (hi'.symm.trans hi)⟩
  constructor
  case le => exact Nat.le_succ ip
  case apart => exact .nil
  case stands | inside => exact fun _ h => absurd h List.not_mem_nil
  case decodes =>
    intro ip' hlo hhi
    obtain rfl : ip' = ip := by omega
    exact ⟨i, hi⟩
  case falls => exact fun _ _ _ _ _ _ => together_nil
  case leads =>
    intro ip' i' hlo hhi hi' o ho
    obtain ⟨rfl, rfl⟩ := hat hlo hhi hi'
    obtain ⟨t, hleaps, hexit⟩ := hjumps o ho
    exact ⟨t, hleaps, .inr ⟨hexit, free_nil⟩⟩
  case owned =>
    intro ip' i' hlo hhi hi' ho
    obtain ⟨rfl, rfl⟩ := hat hlo hhi hi'
    obtain ⟨s, hs, howns⟩ := howned ho
    exact ⟨s, .inr hs, howns⟩

theorem simple (hi : program.instruction? ip = some i) (h : i.IsSimple) :
    program.Layout around ip (ip + 1) [] := by
  apply single hi
  · intro o ho
    rw [h.1] at ho
    cases ho
  · intro ho
    rw [h.2] at ho
    cases ho

/-- Each piece lies outside the regions of the other one. -/
theorem append (h : program.Layout around lo mid sites) (h' : program.Layout around mid hi more) :
    program.Layout around lo hi (sites ++ more) := by
  have hle := h.le
  have hle' := h'.le
  constructor
  case le => omega
  case decodes =>
    intro ip hlo hhi
    by_cases hip : ip < mid
    · exact h.decodes ip hlo hip
    · exact h'.decodes ip (by omega) hhi
  case stands =>
    intro s hs
    rcases List.mem_append.1 hs with hs | hs
    · exact h.stands s hs
    · exact h'.stands s hs
  case inside =>
    intro s hs
    rcases List.mem_append.1 hs with hs | hs
    · have := h.inside s hs
      omega
    · have := h'.inside s hs
      omega
  case apart =>
    refine List.pairwise_append.2 ⟨h.apart, h'.apart, ?_⟩
    intro s hs s' hs'
    have := h.inside s hs
    have := h'.inside s' hs'
    exact .inl (by omega)
  case leads =>
    intro ip i hlo hhi hi o ho
    by_cases hip : ip < mid
    · obtain ⟨t, hleaps, ⟨htlo, hthi, ht⟩ | ⟨hexit, hout⟩⟩ := h.leads ip i hlo hip hi o ho
      · refine ⟨t, hleaps, .inl ⟨htlo, by omega, together_append.2 ⟨ht, ?_⟩⟩⟩
        exact (h'.free (.inl (by omega))).together (h'.free (.inl hthi))
      · refine ⟨t, hleaps, .inr ⟨hexit, free_append.2 ⟨hout, ?_⟩⟩⟩
        exact h'.free (.inl (by omega))
    · obtain ⟨t, hleaps, ⟨htlo, hthi, ht⟩ | ⟨hexit, hout⟩⟩ :=
        h'.leads ip i (by omega) hhi hi o ho
      · refine ⟨t, hleaps, .inl ⟨by omega, hthi, together_append.2 ⟨?_, ht⟩⟩⟩
        exact (h.free (.inr (by omega))).together (h.free (.inr htlo))
      · refine ⟨t, hleaps, .inr ⟨hexit, free_append.2 ⟨?_, hout⟩⟩⟩
        exact h.free (.inr (by omega))
  case falls =>
    intro ip i hlo hhi hi hfalls
    rw [together_append]
    by_cases hip : ip < mid
    · refine ⟨h.falls ip i hlo hip hi hfalls, ?_⟩
      exact (h'.free (.inl (by omega))).together (h'.free (.inl (by omega)))
    · refine ⟨?_, h'.falls ip i (by omega) hhi hi hfalls⟩
      exact (h.free (.inr (by omega))).together (h.free (.inr (by omega)))
  case owned =>
    intro ip i hlo hhi hi howned
    by_cases hip : ip < mid
    · obtain ⟨s, hs, howns⟩ := h.owned ip i hlo hip hi howned
      exact ⟨s, hs.imp_left (List.mem_append_left _), howns⟩
    · obtain ⟨s, hs, howns⟩ := h'.owned ip i (by omega) hhi hi howned
      exact ⟨s, hs.imp_left (List.mem_append_right _), howns⟩

/-- With a region around a piece, the places outside of both are in no region. -/
theorem free_region {s : Site} (h : program.Layout around (lo + 1) hi sites)
    (hregion : s.region = ⟨lo + 1, hi + 1⟩) (ht : t ≤ lo ∨ hi < t) : Free (sites ++ [s]) t := by
  rw [free_append]
  constructor
  · exact h.free (by omega)
  · intro s' hs' hin
    cases List.mem_singleton.1 hs'
    rw [hregion] at hin
    have hlo : lo + 1 ≤ t := hin.1
    have hhi : t < hi + 1 := hin.2
    omega

/-- Two places of a piece are in the region around it both. -/
theorem together_region {s : Site} (hregion : s.region = ⟨lo + 1, hi + 1⟩)
    (h : Together sites ip t) (hip : lo < ip ∧ ip ≤ hi) (ht : lo < t ∧ t ≤ hi) :
    Together (sites ++ [s]) ip t := by
  rw [together_append]
  refine ⟨h, fun s' hs' => ?_⟩
  cases List.mem_singleton.1 hs'
  rw [hregion]
  exact iff_of_true ⟨hip.1, Nat.lt_succ_of_le hip.2⟩ ⟨ht.1, Nat.lt_succ_of_le ht.2⟩

/-- A piece that leaves nothing open becomes a region with the instruction that ends it. The
instruction before it leads around it, and the one behind it is outside again. -/
theorem enclose {s : Site} {e j z : Instruction}
    (h : program.Layout .none (lo + 1) hi sites) (hs : s.Stands program)
    (hregion : s.region = ⟨lo + 1, hi + 1⟩)
    (hend : program.instruction? hi = some e) (hsimple : e.IsSimple)
    (hlast : e.fallsThrough = false)
    (hj : program.instruction? lo = some j) (haround : j.fallsThrough = false)
    (hjumps : ∀ o ∈ j.jumps, ∃ t, program.Leaps lo o t ∧ (t = hi + 1 ∨ around.exits t))
    (hjowns : j.isOwned → s.Owns lo j.opcode)
    (hz : program.instruction? (hi + 1) = some z) (hzjumps : z.jumps = [])
    (hzowns : z.isOwned → s.Owns (hi + 1) z.opcode) :
    program.Layout around lo (hi + 2) (sites ++ [s]) := by
  have hle := h.le
  have hout {t : Nat} (ht : t ≤ lo ∨ hi < t) := h.free_region hregion ht
  -- a place is before the region, in the piece, its end, or behind the region
  have hcases : ∀ {ip i}, lo ≤ ip → ip < hi + 2 → program.instruction? ip = some i →
      ip = lo ∧ i = j ∨ (lo + 1 ≤ ip ∧ ip < hi) ∨ (ip = hi ∧ i = e) ∨ (ip = hi + 1 ∧ i = z) := by
    intro ip i hlo hhi hi'
    by_cases hip : ip < hi
    · by_cases hip' : ip = lo
      · subst hip'
        exact .inl ⟨rfl, Option.some.inj (hi'.symm.trans hj)⟩
      · exact .inr (.inl ⟨by omega, hip⟩)
    · by_cases hip' : ip = hi
      · subst hip'
        exact .inr (.inr (.inl ⟨rfl, Option.some.inj (hi'.symm.trans hend)⟩))
      · obtain rfl : ip = hi + 1 := by omega
        exact .inr (.inr (.inr ⟨rfl, Option.some.inj (hi'.symm.trans hz)⟩))
  constructor
  case le => omega
  case decodes =>
    intro ip hlo hhi
    by_cases hip : lo + 1 ≤ ip ∧ ip < hi
    · exact h.decodes ip hip.1 hip.2
    · obtain rfl | rfl | rfl : ip = lo ∨ ip = hi ∨ ip = hi + 1 := by omega
      · exact ⟨j, hj⟩
      · exact ⟨e, hend⟩
      · exact ⟨z, hz⟩
  case stands =>
    intro s' hs'
    rcases List.mem_append.1 hs' with hs' | hs'
    · exact h.stands s' hs'
    · cases List.mem_singleton.1 hs'
      exact hs
  case inside =>
    intro s' hs'
    rcases List.mem_append.1 hs' with hs' | hs'
    · have := h.inside s' hs'
      omega
    · cases List.mem_singleton.1 hs'
      rw [hregion]
      exact ⟨Nat.lt_succ_self _, Nat.lt_succ_self _⟩
  case apart =>
    refine List.pairwise_append.2 ⟨h.apart, List.pairwise_singleton _ _, ?_⟩
    intro s' hs' s'' hs''
    cases List.mem_singleton.1 hs''
    have := h.inside s' hs'
    rw [hregion]
    exact .inr (.inr (.inr ⟨this.1, by show s'.region.stop < hi + 1; omega⟩))
  case leads =>
    intro ip i hlo hhi hi' o ho
    rcases hcases hlo hhi hi' with ⟨rfl, rfl⟩ | ⟨hip, hip'⟩ | ⟨rfl, rfl⟩ | ⟨rfl, rfl⟩
    · obtain ⟨t, hleaps, rfl | hexit⟩ := hjumps o ho
      · refine ⟨hi + 1, hleaps, .inl ⟨by omega, by omega, ?_⟩⟩
        exact (hout (.inl (Nat.le_refl _))).together (hout (.inr (Nat.lt_succ_self _)))
      · exact ⟨t, hleaps, .inr ⟨hexit, hout (.inl (Nat.le_refl _))⟩⟩
    · obtain ⟨t, hleaps, ⟨htlo, hthi, ht⟩ | ⟨hexit, -⟩⟩ := h.leads ip i hip hip' hi' o ho
      · exact ⟨t, hleaps, .inl ⟨by omega, by omega,
          together_region hregion ht ⟨by omega, by omega⟩ ⟨by omega, hthi⟩⟩⟩
      · exact hexit.elim
    · rw [hsimple.1] at ho
      cases ho
    · rw [hzjumps] at ho
      cases ho
  case falls =>
    intro ip i hlo hhi hi' hfalls
    rcases hcases hlo hhi hi' with ⟨rfl, rfl⟩ | ⟨hip, hip'⟩ | ⟨rfl, rfl⟩ | ⟨rfl, rfl⟩
    · rw [haround] at hfalls
      cases hfalls
    · exact together_region hregion (h.falls ip i hip hip' hi' hfalls) ⟨by omega, by omega⟩
        ⟨by omega, by omega⟩
    · rw [hlast] at hfalls
      cases hfalls
    · exact (hout (.inr (by omega))).together (hout (.inr (by omega)))
  case owned =>
    have hmem : s ∈ sites ++ [s] := List.mem_append_right _ (List.mem_singleton.2 rfl)
    intro ip i hlo hhi hi' howned
    rcases hcases hlo hhi hi' with ⟨rfl, rfl⟩ | ⟨hip, hip'⟩ | ⟨rfl, rfl⟩ | ⟨rfl, rfl⟩
    · exact ⟨s, .inl hmem, hjowns howned⟩
    · obtain ⟨s', hs' | hs', howns⟩ := h.owned ip i hip hip' hi' howned
      · exact ⟨s', .inl (List.mem_append_left _ hs'), howns⟩
      · exact hs'.elim
    · rw [hsimple.2] at howned
      cases howned
    · exact ⟨s, .inl hmem, hzowns howned⟩

end Layout

end Program

end YieldMachine
