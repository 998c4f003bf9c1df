import YieldMachine.Proofs.Layout.Region

/-!
# Compiled code keeps to its regions

The code of a node has one region for each of its enclosures, and leaves nothing open:
jumps of a condition or a loop are closed by the piece that they belong to, a literal
encloses its body, and a for loop its iterators.

    Laid program code es   the code, wherever it stands, has regions for the enclosures `es`
-/

namespace YieldMachine

variable {program : Program} {base ip : Nat} {code xs ys : List Instruction}
  {es es' : List Enclosure}

/-- The code, wherever it stands, keeps to regions that are those of the enclosures. -/
def Laid (program : Program) (code : List Instruction) (es : List Enclosure) : Prop :=
  ∀ base, program.Holds base code → ∃ sites : List Site, sites.map Site.enclosure = es ∧
    program.Layout .none base (base + code.length) sites

/-! ## Straight code -/

theorem UnaryOp.isSimple (op : UnaryOp) (a b c : Operand) :
    Instruction.IsSimple ⟨op.opcode, a, b, c⟩ := by
  cases op <;> exact ⟨rfl, rfl⟩

theorem BinaryOp.isSimple (op : BinaryOp) (a b c : Operand) :
    Instruction.IsSimple ⟨op.opcode, a, b, c⟩ := by
  cases op <;> exact ⟨rfl, rfl⟩

theorem Primitive.isSimple (op : Primitive) (a b c : Operand) :
    Instruction.IsSimple ⟨op.opcode, a, b, c⟩ := by
  cases op <;> exact ⟨rfl, rfl⟩

theorem Program.Layout.straight {around : Around} :
    ∀ {code : List Instruction} {base : Nat}, program.Holds base code →
      (∀ i ∈ code, i.IsSimple) → program.Layout around base (base + code.length) [] := by
  intro code
  induction code with
  | nil => exact fun _ _ => .nil around _
  | cons i code ih =>
    intro base hh hs
    rw [List.forall_mem_cons] at hs
    have hrest := ih hh.2 hs.2
    rw [List.length_cons, Nat.add_comm code.length, ← Nat.add_assoc]
    exact (Program.Layout.simple hh.1 hs.1).append hrest

theorem isSimple_moved (r dest : Operand) : ∀ i ∈ moved r dest, i.IsSimple := by
  unfold moved materialize
  split
  · simp
  · intro i hi
    cases List.mem_singleton.1 hi
    exact ⟨rfl, rfl⟩

theorem isSimple_drop (r : Operand) : ∀ i ∈ (dropCode r).toList, i.IsSimple := by
  unfold dropCode
  split
  · intro i hi
    cases List.mem_singleton.1 hi
    exact ⟨rfl, rfl⟩
  · simp

theorem isSimple_gather (k : Nat) (isLast : Bool) :
    ∀ i ∈ (gather k isLast).toList, i.IsSimple := by
  unfold gather
  dsimp only
  split
  · split
    · intro i hi
      rcases List.mem_cons.1 hi with rfl | hi
      · exact ⟨rfl, rfl⟩
      · cases List.mem_singleton.1 hi
        exact ⟨rfl, rfl⟩
    · intro i hi
      cases List.mem_singleton.1 hi
      exact ⟨rfl, rfl⟩
  · simp

/-! ## Pieces -/

theorem Laid.nil : Laid program [] [] :=
  fun base _ => ⟨[], rfl, .nil .none base⟩

theorem Laid.append (hx : Laid program xs es) (hy : Laid program ys es') :
    Laid program (xs ++ ys) (es ++ es') := by
  intro base hh
  obtain ⟨hxs, hys⟩ := Program.holds_append.1 hh
  obtain ⟨sites, hmap, hl⟩ := hx base hxs
  obtain ⟨more, hmap', hl'⟩ := hy _ hys
  refine ⟨sites ++ more, ?_, ?_⟩
  · rw [List.map_append, hmap, hmap']
  · rw [List.length_append, ← Nat.add_assoc]
    exact hl.append hl'

/-- Straight code behind a piece has no enclosures of its own. -/
theorem Laid.extend (hx : Laid program xs es) (hy : ∀ i ∈ ys, i.IsSimple) :
    Laid program (xs ++ ys) es := by
  have hys : Laid program ys [] := fun base hh => ⟨[], rfl, .straight hh hy⟩
  have h := hx.append hys
  rwa [List.append_nil] at h

theorem Laid.one {i : Instruction} (hx : Laid program xs es) (hi : i.IsSimple) :
    Laid program (xs ++ [i]) es :=
  hx.extend (List.forall_mem_singleton.2 hi)

theorem Laid.pushed {r : Operand} (hx : Laid program code es) :
    Laid program (pushed code r) es :=
  hx.extend (isSimple_moved r .stack)

theorem Laid.dropped {r : Operand} (hx : Laid program code es) :
    Laid program (dropped code r) es :=
  hx.extend (isSimple_drop r)

theorem Laid.pinned {r : Operand} {later : List Node} (hx : Laid program code es) :
    Laid program (pinned later code r) es := by
  unfold YieldMachine.pinned
  split
  · exact hx.pushed
  · exact hx

/-! ## Jumps -/

/-- A jump whose target is left open. -/
theorem Program.Layout.jump {around : Around} {i : Instruction} {o : Operand} {t : Nat}
    (hi : program.instruction? ip = some i) (hjumps : i.jumps = [o]) (howned : i.isOwned = false)
    (ho : program.Leaps ip o t) (ht : around.exits t) :
    program.Layout around ip (ip + 1) [] := by
  apply Program.Layout.single hi
  · rw [hjumps]
    intro o' ho'
    cases List.mem_singleton.1 ho'
    exact ⟨t, ho, ht⟩
  · rw [howned]
    intro h
    cases h

theorem Laid.cond {cc tc ec : List Instruction} {r : Operand} {ces tes ees : List Enclosure}
    (hc : Laid program cc ces) (ht : Laid program tc tes) (he : Laid program ec ees) :
    Laid program
      (cc ++ [⟨.jumpIfFalse, .jump (tc.length + 1 : Nat), r, .unused⟩] ++ tc ++
        [⟨.jump, .jump ec.length, .unused, .unused⟩] ++ ec) (ces ++ tes ++ ees) := by
  intro base hh
  have hsize := hh.le_size (by simp)
  simp only [Program.holds_append, List.length_append, List.length_cons, List.length_nil,
    ← Nat.add_assoc, Nat.add_zero] at hh hsize ⊢
  obtain ⟨⟨⟨⟨hcc, htest, -⟩, htc⟩, hjump, -⟩, hec⟩ := hh
  obtain ⟨cs, hcs, hcl⟩ := hc _ hcc
  obtain ⟨ts, hts, htl⟩ := ht _ htc
  obtain ⟨ls, hls, hel⟩ := he _ hec
  let around : Around :=
    ⟨fun t => t = base + cc.length + 1 + tc.length + 1 ∨
      t = base + cc.length + 1 + tc.length + 1 + ec.length, fun _ => False⟩
  have htest : program.Layout around (base + cc.length) (base + cc.length + 1) [] := by
    exact .jump htest rfl rfl (Program.leaps_jump (by omega) (by omega)) (.inl rfl)
  have hjump : program.Layout around (base + cc.length + 1 + tc.length)
      (base + cc.length + 1 + tc.length + 1) [] := by
    exact .jump hjump rfl rfl (Program.leaps_jump rfl (by omega)) (.inr rfl)
  have hwhole := (((((hcl.relax around).append htest).append (htl.relax around)).append
    hjump).append (hel.relax around))
  rw [List.append_nil, List.append_nil] at hwhole
  refine ⟨cs ++ ts ++ ls, ?_, hwhole.close ?_ ?_⟩
  · rw [List.map_append, List.map_append, hcs, hts, hls]
  · intro t hexit
    refine .inr ?_
    rw [free_append, free_append]
    rcases hexit with rfl | rfl
    · exact ⟨by omega, by omega,
        ⟨hcl.free (.inr (by omega)), htl.free (.inr (by omega))⟩, hel.free (.inl (by omega))⟩
    · exact ⟨by omega, by omega,
        ⟨hcl.free (.inr (by omega)), htl.free (.inr (by omega))⟩, hel.free (.inr (by omega))⟩
  · exact fun _ h => h.elim

theorem Laid.loop {cc bc : List Instruction} {r nil : Operand} {ces bes : List Enclosure}
    (hc : Laid program cc ces) (hb : Laid program bc bes) :
    Laid program
      ([⟨.move, .stack, nil, .unused⟩] ++ cc ++
        [⟨.jumpIfFalse, .jump (bc.length + 2 : Nat), r, .unused⟩, .bare .pop] ++ bc ++
        [⟨.jump, .jump (-(cc.length + bc.length + 3 : Nat)), .unused, .unused⟩])
      (ces ++ bes) := by
  intro base hh
  have hsize := hh.le_size (by simp)
  simp only [Program.holds_append, List.length_append, List.length_cons, List.length_nil,
    ← Nat.add_assoc, Nat.add_zero] at hh hsize ⊢
  obtain ⟨⟨⟨⟨⟨hnil, -⟩, hcc⟩, htest, hpop, -⟩, hbc⟩, hjump, -⟩ := hh
  obtain ⟨cs, hcs, hcl⟩ := hc _ hcc
  obtain ⟨bs, hbs, hbl⟩ := hb _ hbc
  let around : Around :=
    ⟨fun t => t = base + 1 ∨ t = base + 1 + cc.length + 1 + 1 + bc.length + 1, fun _ => False⟩
  have hnil : program.Layout around base (base + 1) [] := .simple hnil ⟨rfl, rfl⟩
  have htest : program.Layout around (base + 1 + cc.length) (base + 1 + cc.length + 1) [] := by
    exact .jump htest rfl rfl (Program.leaps_jump (by omega) (by omega)) (.inr rfl)
  have hpop : program.Layout around (base + 1 + cc.length + 1) (base + 1 + cc.length + 1 + 1) [] :=
    .simple hpop ⟨rfl, rfl⟩
  have hjump : program.Layout around (base + 1 + cc.length + 1 + 1 + bc.length)
      (base + 1 + cc.length + 1 + 1 + bc.length + 1) [] := by
    exact .jump hjump rfl rfl (Program.leaps_back (by omega) (by omega)) (.inl rfl)
  have hwhole := ((((hnil.append (hcl.relax around)).append htest).append hpop).append
    (hbl.relax around)).append hjump
  rw [List.nil_append, List.append_nil, List.append_nil, List.append_nil] at hwhole
  refine ⟨cs ++ bs, ?_, hwhole.close ?_ ?_⟩
  · rw [List.map_append, hcs, hbs]
  · intro t hexit
    refine .inr ?_
    rw [free_append]
    rcases hexit with rfl | rfl
    · exact ⟨by omega, by omega, hcl.free (.inl (by omega)), hbl.free (.inl (by omega))⟩
    · exact ⟨by omega, by omega, hcl.free (.inr (by omega)), hbl.free (.inr (by omega))⟩
  · exact fun _ h => h.elim

/-! ## Functions -/

theorem Laid.function {bc : List Instruction} {br : Operand} {params frameSize : UInt64}
    {body : Node} (hcode : Code program.pool .stack body bc br) (hb : Laid program bc es) :
    Laid program
      ([⟨.jump, .jump (bc.length + 1 : Nat), .unused, .unused⟩] ++ bc ++
        [⟨.ret, .unused, br, .unused⟩,
          ⟨.makeFunction, ⟨.immediate, -(bc.length + 2 : Nat)⟩,
            ⟨.immediate, params.toInt64.toInt⟩,
            ⟨.immediate, (slotCount params frameSize).toInt64.toInt⟩⟩])
      (es ++ [.literal params frameSize body]) := by
  intro base hh
  have hsize := hh.le_size (by simp)
  simp only [Program.holds_append, List.length_append, List.length_cons, List.length_nil,
    ← Nat.add_assoc, Nat.add_zero] at hh hsize ⊢
  obtain ⟨⟨⟨hjump, -⟩, hbc⟩, hret, hmake, -⟩ := hh
  obtain ⟨sites, hsites, hl⟩ := hb _ hbc
  have hskip : program.Leaps base (.jump (bc.length + 1 : Nat)) (base + 1 + bc.length + 1) :=
    Program.leaps_jump (by omega) (by omega)
  have hentry : program.Leaps (base + 1 + bc.length + 1)
      (.jump (-((bc.length + 2 : Nat) : Int))) (base + 1) :=
    Program.leaps_back (by omega) (by omega)
  have hstands : Site.Stands program
      (.literal ⟨base + 1, base + 1 + bc.length + 1⟩ params frameSize body) := by
    constructor
    · exact ⟨bc, br, hcode, Program.holds_append.2 ⟨hbc, hret, trivial⟩, rfl⟩
    · exact ⟨Nat.succ_pos base, _, hjump, hskip⟩
    · exact ⟨_, hmake, hentry⟩
  refine ⟨sites ++ [.literal ⟨base + 1, base + 1 + bc.length + 1⟩ params frameSize body], ?_, ?_⟩
  · rw [List.map_append, hsites]
    rfl
  · apply hl.enclose hstands rfl hret ⟨rfl, rfl⟩ rfl hjump rfl ?_ ?_ hmake rfl ?_
    · intro o ho
      cases List.mem_singleton.1 ho
      exact ⟨_, hskip, .inl rfl⟩
    · intro h
      cases h
    · exact fun _ => ⟨rfl, rfl⟩

/-! ## For loops -/

namespace Loop

variable {l : Loop} {refs : List Ref} {iterators : List Node} {body : Node} {k : Nat}

theorem In.iteratorAt (h : l.In program refs iterators body) (hk : k < l.count) :
    program.IteratorAt l k := by
  obtain ⟨-, -, -, -, -, -, -, hend⟩ := h.parts
  have hexit := Program.instruction?_lt hend
  have htake := h.takeAt_lt_passAt hk
  have hpass : l.passAt < l.exitAt := by
    unfold exitAt resumeAt bodyAt
    omega
  have hpos : 0 < l.takeAt k := by
    unfold takeAt
    omega
  obtain ⟨i, hi, hop, ha, hb⟩ := h.spawn hk
  obtain ⟨j, hj, hop', -, hb'⟩ := h.resume hk
  constructor
  · exact h.iterator hk
  · exact ⟨i, hi, hop, Program.leaps_of_target ha hpos (by omega),
      Program.leaps_of_target hb (by omega) (by omega)⟩
  · exact ⟨j, hj, hop', Program.leaps_of_target hb' (by omega) (by omega)⟩
  · exact hend

/-- The producers of a loop from number `k` on. -/
theorem In.layout_producers (h : l.In program refs iterators body) (around : Around)
    (hexit : around.exits l.exitAt)
    (hlaid : List.Forall₂ (fun node it => Laid program it node.enclosures) iterators l.iterators) :
    ∀ {nodes : List Node} {k : Nat}, iterators.drop k = nodes → k ≤ l.count →
      ∃ sites, sites.map Site.enclosure =
          Node.enclosuresEach (.iterator refs iterators body) k nodes ∧
        (∀ j, k ≤ j → j < l.count → Site.iterator l refs iterators body j ∈ sites) ∧
        program.Layout around (l.spawnAt k) l.passAt sites := by
  have hcount : l.count = iterators.length := by
    rw [count, h.length_eq, ← hlaid.length_eq]
  intro nodes
  induction nodes with
  | nil =>
    intro k hdrop hk
    obtain rfl : k = l.count := by
      have := List.drop_eq_nil_iff.1 hdrop
      omega
    refine ⟨[], by rw [Node.enclosuresEach]; rfl, ?_, .nil around _⟩
    intro j hj hj'
    omega
  | cons node nodes ih =>
    intro k hdrop hk
    have hlt : k < l.count := by
      have := congrArg List.length hdrop
      rw [List.length_drop, List.length_cons] at this
      omega
    have hnode : iterators[k]? = some node := by
      rw [← List.head?_drop, hdrop]
      rfl
    obtain ⟨more, hmap, hmem, hrest⟩ := ih (k := k + 1)
      (by rw [← List.tail_drop, hdrop]; rfl) hlt
    -- the iterator itself, and its region
    have hit : Laid program (l.iterators.getD k []) node.enclosures := by
      obtain ⟨hk₁, rfl⟩ := List.getElem?_eq_some_iff.1 hnode
      have hk₂ : k < l.iterators.length := by
        rw [← hlaid.length_eq]
        exact hk₁
      rw [List.getD_eq_getElem?_getD, List.getElem?_eq_getElem hk₂]
      exact hlaid.get hk₁ hk₂
    have hat := h.iteratorAt hlt
    obtain ⟨hcode, hend, -⟩ := Program.holds_append.1 hat.code
    obtain ⟨own, hown, hl⟩ := hit _ hcode
    obtain ⟨i, hi, hop, ha, hb⟩ := hat.spawn
    obtain ⟨target, -, htake⟩ := h.take hlt
    have htakeAt : l.takeAt k = l.spawnAt k + 1 + (l.iterators.getD k []).length + 1 := by
      unfold takeAt
      omega
    have hnext := h.takeAt_succ hlt
    have hjumps : i.jumps = [i.a, i.b] := by
      rw [Instruction.jumps, hop]
    have hregion : program.Layout around (l.spawnAt k) (l.spawnAt (k + 1))
        (own ++ [.iterator l refs iterators body k]) := by
      rw [← hnext, htakeAt]
      refine hl.enclose ⟨h, hlt, hat⟩ ?_ hend ⟨rfl, rfl⟩ rfl hi ?_ ?_ ?_ (htakeAt ▸ htake) rfl ?_
      · rw [Site.region, htakeAt]
      · rw [Instruction.fallsThrough, hop]
      · rw [hjumps]
        refine List.forall_mem_cons.2 ⟨⟨_, ha, .inl htakeAt⟩, ?_⟩
        exact List.forall_mem_singleton.2 ⟨_, hb, .inr hexit⟩
      · exact fun _ => .inl ⟨hop, rfl⟩
      · intro hmove
        cases hmove
    refine ⟨own ++ [.iterator l refs iterators body k] ++ more, ?_, ?_, hregion.append hrest⟩
    · rw [List.map_append, List.map_append, hown, hmap, Node.enclosuresEach]
      rfl
    · intro j hj hj'
      rcases Nat.lt_or_eq_of_le hj with hlt' | rfl
      · exact List.mem_append_right _ (hmem j hlt' hj')
      · exact List.mem_append_left _ (List.mem_append_right _ (List.mem_singleton.2 rfl))

/-- The resumptions of the producers before number `k`. -/
theorem In.layout_resumes (h : l.In program refs iterators body) (around : Around)
    (hexit : around.exits l.exitAt)
    (hsites : ∀ j, j < l.count → around.sites (.iterator l refs iterators body j)) :
    ∀ {k : Nat}, k ≤ l.count → program.Layout around (l.resumeAt 0) (l.resumeAt k) [] := by
  intro k
  induction k with
  | zero => exact fun _ => .nil around _
  | succ k ih =>
    intro hk
    obtain ⟨i, hi, hop, hb⟩ := (h.iteratorAt hk).resume
    obtain ⟨target, -, hretake⟩ := h.retake hk
    have hjumps : i.jumps = [i.b] := by
      rw [Instruction.jumps, hop]
    have hresume : program.Layout around (l.resumeAt k) (l.retakeAt k) [] := by
      apply Program.Layout.single hi
      · rw [hjumps]
        exact List.forall_mem_singleton.2 ⟨_, hb, hexit⟩
      · exact fun _ => ⟨_, hsites k hk, .inr ⟨hop, rfl⟩⟩
    have hstore : program.Layout around (l.retakeAt k) (l.resumeAt (k + 1)) [] := by
      rw [← retakeAt_succ]
      exact .simple hretake ⟨rfl, rfl⟩
    exact ((ih (by omega)).append hresume).append hstore

theorem length_code (h : l.In program refs iterators body) :
    l.base + (forCode l.nil l.targets l.iterators l.body).length = l.exitAt + 1 := by
  have hpass := h.passAt_eq
  rw [length_forCode 0]
  unfold exitAt resumeAt bodyAt count
  omega

theorem In.laid (h : l.In program refs iterators body)
    (hits : List.Forall₂ (fun node it => Laid program it node.enclosures) iterators l.iterators)
    (hb : Laid program l.body es) :
    ∃ sites : List Site, sites.map Site.enclosure =
        Node.enclosuresEach (.iterator refs iterators body) 0 iterators ++ es ∧
      program.Layout .none l.base (l.exitAt + 1) sites := by
  obtain ⟨hnil, hbegin, -, hpop, hbody, -, ⟨j, hj, hop, hback⟩, hend⟩ := h.parts
  let around : Around := ⟨fun t => t = l.exitAt ∨ t = l.passAt,
    fun s => ∃ k, k < l.count ∧ s = .iterator l refs iterators body k⟩
  have hpass : l.passAt < l.resumeAt l.count := by
    unfold resumeAt bodyAt
    omega
  have hsize := Program.instruction?_lt hj
  obtain ⟨sites, hmap, hmem, hproducers⟩ := h.layout_producers around (.inl rfl) hits
    (List.drop_zero) (Nat.zero_le _)
  obtain ⟨bs, hbs, hbl⟩ := hb _ hbody
  rw [← resumeAt_zero] at hbl
  have hresumes := h.layout_resumes around (.inl rfl)
    (fun k hk => ⟨k, hk, rfl⟩) (Nat.le_refl _)
  have hstart : program.Layout around l.base (l.spawnAt 0) [] := by
    rw [spawnAt_zero]
    exact (Program.Layout.simple hnil ⟨rfl, rfl⟩).append (.simple hbegin ⟨rfl, rfl⟩)
  have hdrop : program.Layout around l.passAt l.bodyAt [] := .simple hpop ⟨rfl, rfl⟩
  have hjump : program.Layout around (l.resumeAt l.count) l.exitAt [] := by
    refine .jump hj ?_ ?_ (Program.leaps_of_target hback ?_ (by omega)) (.inr rfl)
    · rw [Instruction.jumps, hop]
    · rw [Instruction.isOwned, hop]
    · unfold passAt spawnAt
      omega
  have hclose : program.Layout around l.exitAt (l.exitAt + 1) [] := .simple hend ⟨rfl, rfl⟩
  have hwhole := (((((hstart.append hproducers).append hdrop).append (hbl.relax around)).append
    hresumes).append hjump).append hclose
  rw [List.nil_append, List.append_nil, List.append_nil, List.append_nil, List.append_nil]
    at hwhole
  have hbase := hstart.le
  have hspawns := hproducers.le
  have hexit : l.exitAt = l.resumeAt l.count + 1 := rfl
  have hresume : l.resumeAt 0 ≤ l.resumeAt l.count := hresumes.le
  have hbodyAt : l.bodyAt = l.passAt + 1 := rfl
  refine ⟨sites ++ bs, ?_, hwhole.close ?_ ?_⟩
  · rw [List.map_append, hmap, hbs]
  · intro t ht
    refine .inr ?_
    rw [free_append]
    rcases ht with rfl | rfl
    · exact ⟨by omega, by omega, hproducers.free (.inr (by omega)), hbl.free (.inr (by omega))⟩
    · exact ⟨by omega, by omega, hproducers.free (.inr (by omega)), hbl.free (.inl (by omega))⟩
  · rintro s ⟨k, hk, rfl⟩
    exact .inl (List.mem_append_left _ (hmem k (Nat.zero_le k) hk))

end Loop

/-! ## Nodes -/

mutual

/-- The code of a node has regions for all enclosures of the node. -/
theorem Code.laid (node : Node) {dest r : Operand} {code : List Instruction}
    (h : Code program.pool dest node code r) : Laid program code node.enclosures := by
  match node with
  | .literal value | .ref target =>
    rw [Code] at h
    obtain ⟨rfl, -⟩ := h
    rw [Node.enclosures]
    exact .nil
  | .assign target value =>
    rw [Code] at h
    obtain ⟨-, vc, vr, hv, rfl⟩ := h
    rw [Node.enclosures]
    exact (Code.laid value hv).extend (isSimple_moved vr r)
  | .unary op operand =>
    rw [Code] at h
    obtain ⟨-, vc, vr, hv, rfl⟩ := h
    rw [Node.enclosures]
    exact (Code.laid operand hv).one (op.isSimple _ _ _)
  | .binary left op right =>
    rw [Code] at h
    obtain ⟨-, lc, lr, rc, rr, hl, hr, rfl⟩ := h
    rw [Node.enclosures]
    exact ((Code.laid left hl).pinned.append (Code.laid right hr)).one (op.isSimple _ _ _)
  | .index target place =>
    rw [Code] at h
    obtain ⟨-, lc, lr, rc, rr, hl, hr, rfl⟩ := h
    rw [Node.enclosures]
    exact ((Code.laid target hl).pinned.append (Code.laid place hr)).one ⟨rfl, rfl⟩
  | .slice target start stop =>
    rw [Code] at h
    obtain ⟨-, tc, tr, ac, ar, bc, br, ht, ha, hb, rfl⟩ := h
    rw [Node.enclosures]
    exact (((Code.laid target ht).pinned.append (Code.laid start ha).pinned).append
      (Code.laid stop hb)).one ⟨rfl, rfl⟩
  | .len target =>
    rw [Code] at h
    obtain ⟨-, vc, vr, hv, rfl⟩ := h
    rw [Node.enclosures]
    exact (Code.laid target hv).one ⟨rfl, rfl⟩
  | .array elements =>
    rw [Code] at h
    rw [Node.enclosures]
    obtain ⟨-, h⟩ := h
    split at h
    · obtain ⟨ec, he, rfl⟩ := h
      exact (CodeAll.laid elements he).one ⟨rfl, rfl⟩
    · obtain ⟨ec, he, rfl⟩ := h
      exact (CodeChunks.laid elements he).extend (isSimple_moved _ _)
  | .block nodes =>
    rw [Code] at h
    rw [Node.enclosures]
    exact CodeBlock.laid nodes h
  | .cond condition thenBranch elseBranch =>
    rw [Code] at h
    obtain ⟨-, cc, cr, tc, tr, ec, er, hc, ht, he, rfl⟩ := h
    rw [Node.enclosures]
    exact .cond (Code.laid condition hc) (Code.laid thenBranch ht).pushed
      (CodeOption.laid elseBranch he).pushed
  | .loop condition body =>
    rw [Code] at h
    obtain ⟨-, nil, cc, cr, bc, br, -, hc, hb, rfl⟩ := h
    rw [Node.enclosures]
    exact .loop (Code.laid condition hc) (Code.laid body hb).pushed
  | .forEach refs iterators body =>
    rw [Code] at h
    obtain ⟨-, nil, targets, its, bc, br, hnil, hlen, hrefs, hits, hb, rfl⟩ := h
    rw [Node.enclosures]
    intro base hh
    have hin : Loop.In program ⟨base, nil, targets, its, YieldMachine.pushed bc br⟩ refs iterators
        body := ⟨hnil, hlen, hrefs, hits, ⟨bc, br, hb, rfl⟩, hh⟩
    have hlaid := hin.laid (CodeIterators.laid iterators hits) (Code.laid body hb).pushed
    rwa [← Loop.length_code hin] at hlaid
  | .yield value =>
    rw [Code] at h
    obtain ⟨-, vc, vr, hv, rfl⟩ := h
    rw [Node.enclosures]
    exact (Code.laid value hv).one ⟨rfl, rfl⟩
  | .function params frameSize body =>
    rw [Code] at h
    obtain ⟨-, bc, br, hb, rfl⟩ := h
    rw [Node.enclosures]
    exact .function hb (Code.laid body hb)
  | .call callee args =>
    rw [Code] at h
    obtain ⟨-, ac, fc, fr, ha, hf, rfl⟩ := h
    rw [Node.enclosures]
    exact ((CodeAll.laid args ha).append (Code.laid callee hf)).one ⟨rfl, rfl⟩
  | .ret value =>
    rw [Code] at h
    obtain ⟨-, vc, vr, hv, rfl⟩ := h
    rw [Node.enclosures]
    exact (Code.laid value hv).one ⟨rfl, rfl⟩
  | .primitive op args =>
    rw [Code] at h
    obtain ⟨harity, vc, vr, hv, h⟩ := h
    rw [Node.enclosures]
    have hargs := CodeFirst.laid args (by rw [harity]; cases op <;> decide) hv
    split at h
    · rw [h.2]
      exact hargs.one ⟨rfl, rfl⟩
    · rw [h.2]
      exact hargs.one (op.isSimple _ _ _)

theorem CodeAll.laid (nodes : List Node) {code : List Instruction}
    (h : CodeAll program.pool nodes code) : Laid program code (Node.enclosuresAll nodes) := by
  match nodes with
  | [] =>
    rw [CodeAll] at h
    rw [Node.enclosuresAll, h]
    exact .nil
  | node :: nodes =>
    rw [CodeAll] at h
    obtain ⟨vc, vr, rest, hv, hrest, rfl⟩ := h
    rw [Node.enclosuresAll]
    exact (Code.laid node hv).pushed.append (CodeAll.laid nodes hrest)

theorem CodeChunks.laid (nodes : List Node) {k : Nat} {code : List Instruction}
    (h : CodeChunks program.pool k nodes code) :
    Laid program code (Node.enclosuresAll nodes) := by
  match nodes with
  | [] =>
    rw [CodeChunks] at h
    rw [Node.enclosuresAll, h]
    exact .nil
  | node :: nodes =>
    rw [CodeChunks] at h
    obtain ⟨vc, vr, rest, hv, hrest, rfl⟩ := h
    rw [Node.enclosuresAll]
    exact ((Code.laid node hv).pushed.extend (isSimple_gather _ _)).append
      (CodeChunks.laid nodes hrest)

theorem CodeBlock.laid (nodes : List Node) {dest r : Operand} {code : List Instruction}
    (h : CodeBlock program.pool dest nodes code r) :
    Laid program code (Node.enclosuresAll nodes) := by
  match nodes with
  | [] =>
    rw [CodeBlock] at h
    rw [Node.enclosuresAll, h.1]
    exact .nil
  | [last] =>
    rw [CodeBlock] at h
    rw [Node.enclosuresAll, Node.enclosuresAll, List.append_nil]
    exact Code.laid last h
  | node :: next :: nodes =>
    rw [CodeBlock] at h
    · obtain ⟨vc, vr, rest, hv, hrest, rfl⟩ := h
      rw [Node.enclosuresAll]
      exact (Code.laid node hv).dropped.append (CodeBlock.laid (next :: nodes) hrest)
    · intro h
      cases h

theorem CodeOption.laid (node : Option Node) {r : Operand} {code : List Instruction}
    (h : CodeOption program.pool node code r) :
    Laid program code (Node.enclosuresOption node) := by
  match node with
  | none =>
    rw [CodeOption] at h
    rw [Node.enclosuresOption, h.1]
    exact .nil
  | some node =>
    rw [CodeOption] at h
    rw [Node.enclosuresOption]
    exact Code.laid node h

theorem CodeFirst.laid (nodes : List Node) {r : Operand} {code : List Instruction}
    (hlen : nodes.length ≤ 1) (h : CodeFirst program.pool nodes code r) :
    Laid program code (Node.enclosuresAll nodes) := by
  match nodes with
  | [] =>
    rw [CodeFirst] at h
    rw [Node.enclosuresAll, h.1]
    exact .nil
  | [node] =>
    rw [CodeFirst] at h
    rw [Node.enclosuresAll, Node.enclosuresAll, List.append_nil]
    exact Code.laid node h
  | _ :: _ :: _ =>
    simp at hlen

theorem CodeIterators.laid (nodes : List Node) {its : List (List Instruction)}
    (h : CodeIterators program.pool nodes its) :
    List.Forall₂ (fun node it => Laid program it node.enclosures) nodes its := by
  match nodes with
  | [] =>
    rw [CodeIterators] at h
    rw [h]
    exact .nil
  | node :: nodes =>
    rw [CodeIterators] at h
    obtain ⟨vc, vr, rest, hv, hrest, rfl⟩ := h
    exact .cons (Code.laid node hv).dropped (CodeIterators.laid nodes hrest)

end

/-! ## Statements -/

theorem Compiled.eq_of_entry {c : Compiled} {entry : Nat} (h : c.entry.toOption = some entry) :
    c = ⟨.ok entry, c.program, c.journal⟩ := by
  obtain ⟨e | e, program, journal⟩ := c
  · cases h
  · cases h
    rfl

/-- The code of a compiled statement keeps to the regions of its enclosures. -/
theorem Program.Gained.laid {p q : Program} {node : Node} {code : List Instruction} {r : Operand}
    (h : p.Gained q node code r) :
    ∃ sites : List Site, sites.map Site.enclosure = node.enclosures ∧
      q.Layout .none p.code.size q.code.size sites := by
  rw [h.size]
  exact (Code.laid node h.lowered).pushed _ h.holds

theorem Program.compile_laid {program program' : Program} {journal journal' : Journal}
    {node : Node} {entry : Nat}
    (h : program.compile journal node = ⟨.ok entry, program', journal'⟩) :
    ∃ sites : List Site, sites.map Site.enclosure = node.enclosures ∧
      program'.Layout .none entry program'.code.size sites := by
  obtain ⟨rfl, code, r, hgained⟩ := compile_ok h
  exact hgained.laid

end YieldMachine
