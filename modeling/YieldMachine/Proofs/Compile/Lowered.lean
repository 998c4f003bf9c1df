import YieldMachine.Proofs.Compile.Effect

/-!
# What lowering gives

A node that is lowered has the code that `Code` describes, its addresses fit their
fields, and the pool only grows. What compiled programs do when they run is proved from
`Code`.

`Lowered` is what is known of one piece of code. Pieces are put together by its rules
(`append`, `snoc`, `push`, `pin` and so on), each node by the rules for its pieces.

    lower offset dest node b = .ok p b' → Code q dest node p.code.toList p.result
-/

namespace YieldMachine

/-! ## Producers -/

theorem concat_toList (pieces : List (Array Instruction)) :
    (concat pieces).toList = pieces.flatMap Array.toList := by
  have h : ∀ acc : Array Instruction,
      (pieces.foldl (· ++ ·) acc).toList = acc.toList ++ pieces.flatMap Array.toList := by
    induction pieces with
    | nil => simp
    | cons piece pieces ih =>
      intro acc
      rw [List.foldl_cons, ih]
      simp
  exact (h #[]).trans (by simp)

/-- The producers of iterators whose codes are given, the first of them at `offset`. -/
def producersOf (offset : Nat) : List (Operand × List Instruction) → List Producer
  | [] => []
  | (target, iterator) :: more =>
    ⟨offset, (iterator.length + 1 : Nat), (iterator ++ [Instruction.bare .endIter]).toArray, target⟩ ::
      producersOf (offset + iterator.length + 3) more

theorem producersOf_code {rest exit : Nat} (its : List (Operand × List Instruction)) :
    ∀ {offset : Nat}, exit = offset + (spawnAll rest its).length + rest →
      (concat (List.zipWith Producer.code (producersOf offset its)
        ((producersOf offset its).map fun p => distance p.offset exit))).toList =
          spawnAll rest its := by
  induction its with
  | nil => intro offset _; rfl
  | cons it its ih =>
    obtain ⟨target, iterator⟩ := it
    intro offset h
    simp only [spawnAll, List.length_cons, List.length_append, List.length_nil] at h
    have ih := @ih (offset + iterator.length + 3) (by omega)
    rw [concat_toList] at ih ⊢
    simp only [producersOf, List.map_cons, List.zipWith_cons_cons, List.flatMap_cons, ih]
    have hd : distance offset exit =
        ((iterator.length + 2 + (spawnAll rest its).length + rest : Nat) : Int) := by
      unfold distance
      omega
    simp [Producer.code, spawnAll, hd]

theorem resumeCode_eq {resumes exit : Nat} (targets : List Operand) :
    ∀ {k : Nat}, exit = resumes + 2 * (k + targets.length) + 1 →
      (concat (List.zipWith (fun (slot, target) e => resumeCode slot target e)
        (((List.range' k targets.length).map fun i => (⟨.immediate, (i : Nat)⟩ : Operand)).zip
          targets)
        ((List.range' k targets.length).map fun i => distance (resumes + 2 * i) exit))).toList =
          resumeAll k targets := by
  induction targets with
  | nil => intro k _; rfl
  | cons target targets ih =>
    intro k h
    rw [List.length_cons] at h
    have ih := ih (k := k + 1) (by omega)
    rw [concat_toList] at ih ⊢
    simp only [List.length_cons, List.range'_succ, List.map_cons, List.zip_cons_cons,
      List.zipWith_cons_cons, List.flatMap_cons, ih]
    have hd : distance (resumes + 2 * k) exit = ((2 * targets.length + 2 : Nat) : Int) := by
      unfold distance
      omega
    simp [resumeCode, resumeAll, hd]

/-! ## Pieces -/

/-- Do the addresses of all instructions fit? -/
def AllFit (code : List Instruction) : Prop :=
  ∀ i ∈ code, i.Fits

theorem fits_zero : Operand.fits 0 := rfl

theorem allFit_append {xs ys : List Instruction} : AllFit (xs ++ ys) ↔ AllFit xs ∧ AllFit ys :=
  List.forall_mem_append

theorem allFit_cons {i : Instruction} {is : List Instruction} :
    AllFit (i :: is) ↔ i.Fits ∧ AllFit is :=
  List.forall_mem_cons

theorem allFit_nil : AllFit [] := by
  intro i hi
  cases hi

theorem fits_bare (opcode : Opcode) : (Instruction.bare opcode).Fits :=
  ⟨rfl, rfl, rfl⟩

theorem allFit_bare (opcode : Opcode) : AllFit [Instruction.bare opcode] :=
  allFit_cons.2 ⟨fits_bare opcode, allFit_nil⟩

theorem allFit_moved {r dest : Operand} (hr : Operand.fits r.address)
    (hd : Operand.fits dest.address) : AllFit (moved r dest) := by
  unfold moved materialize
  split
  · exact allFit_nil
  · exact allFit_cons.2 ⟨⟨hd, hr, fits_zero⟩, allFit_nil⟩

theorem allFit_pushed {code : List Instruction} {r : Operand} (hc : AllFit code)
    (hr : Operand.fits r.address) : AllFit (pushed code r) :=
  allFit_append.2 ⟨hc, allFit_moved hr rfl⟩

theorem allFit_dropped {code : List Instruction} {r : Operand} (hc : AllFit code) :
    AllFit (dropped code r) := by
  refine allFit_append.2 ⟨hc, ?_⟩
  unfold dropCode
  split
  · exact allFit_bare _
  · exact allFit_nil

theorem allFit_pinned {later : List Node} {code : List Instruction} {r : Operand}
    (hc : AllFit code) (hr : Operand.fits r.address) : AllFit (pinned later code r) := by
  unfold pinned
  split
  · exact allFit_pushed hc hr
  · exact hc

theorem fits_pinnedAt {later : List Node} {r : Operand} (hr : Operand.fits r.address) :
    Operand.fits (pinnedAt later r).address := by
  unfold pinnedAt
  split
  · rfl
  · exact hr

theorem fits_count {n : Nat} (h : n ≤ chunkLength) : Operand.fits n := by
  simp only [chunkLength] at h
  simp only [Operand.fits, Bool.and_eq_true, decide_eq_true_eq]
  omega

theorem allFit_gather (k : Nat) (isLast : Bool) : AllFit (gather k isLast).toList := by
  have hlt := Nat.mod_lt k (show 0 < chunkLength by decide)
  have hc : Operand.fits (if k % chunkLength = 0 then chunkLength else k % chunkLength : Nat) := by
    apply fits_count
    split <;> omega
  unfold gather
  split
  · dsimp only
    split
    · refine allFit_cons.2 ⟨?_, allFit_cons.2 ⟨?_, allFit_nil⟩⟩
      · exact ⟨rfl, hc, rfl⟩
      · exact ⟨rfl, rfl, rfl⟩
    · refine allFit_cons.2 ⟨?_, allFit_nil⟩
      exact ⟨rfl, hc, rfl⟩
  · exact allFit_nil

theorem allFit_spawnAll {rest exit : Nat} (its : List (Operand × List Instruction)) :
    ∀ {offset : Nat}, exit = offset + (spawnAll rest its).length + rest →
      (∀ p ∈ producersOf offset its, Operand.fits p.cont ∧ Operand.fits p.target.address ∧
        AllFit p.body.toList) →
      (∀ p ∈ producersOf offset its, Operand.fits (distance p.offset exit)) →
      AllFit (spawnAll rest its) := by
  induction its with
  | nil => intro offset _ _ _; exact allFit_nil
  | cons it its ih =>
    obtain ⟨target, iterator⟩ := it
    intro offset h hp he
    simp only [producersOf, List.forall_mem_cons] at hp he
    simp only [spawnAll, List.length_cons, List.length_append, List.length_nil] at h
    have hd : distance offset exit =
        ((iterator.length + 2 + (spawnAll rest its).length + rest : Nat) : Int) := by
      unfold distance
      omega
    obtain ⟨⟨hcont, htarget, hbody⟩, hp⟩ := hp
    obtain ⟨hexit, he⟩ := he
    rw [hd] at hexit
    have htail := @ih (offset + iterator.length + 3) (by omega) hp he
    rw [allFit_append] at hbody
    refine allFit_cons.2 ⟨⟨hcont, hexit, rfl⟩, ?_⟩
    refine allFit_append.2 ⟨allFit_append.2 ⟨hbody.1, ?_⟩, htail⟩
    exact allFit_cons.2 ⟨fits_bare _, allFit_cons.2 ⟨⟨htarget, rfl, rfl⟩, allFit_nil⟩⟩

theorem allFit_resumeAll {resumes exit : Nat} (targets : List Operand) :
    ∀ {k : Nat}, exit = resumes + 2 * (k + targets.length) + 1 →
      (∀ o ∈ targets, Operand.fits o.address) →
      (∀ i ∈ List.range' k targets.length, Operand.fits i ∧
        Operand.fits (distance (resumes + 2 * i) exit)) →
      AllFit (resumeAll k targets) := by
  induction targets with
  | nil => intro k _ _ _; exact allFit_nil
  | cons target targets ih =>
    intro k h ht hi
    rw [List.length_cons] at h hi
    rw [List.range'_succ, List.forall_mem_cons] at hi
    rw [List.forall_mem_cons] at ht
    have hd : distance (resumes + 2 * k) exit = ((2 * targets.length + 2 : Nat) : Int) := by
      unfold distance
      omega
    rw [hd] at hi
    have htail := ih (k := k + 1) (by omega) ht.2 hi.2
    exact allFit_cons.2 ⟨⟨hi.1.1, hi.1.2, rfl⟩, allFit_cons.2 ⟨⟨ht.1, rfl, rfl⟩, htail⟩⟩

theorem Piece.toList_onStack (p : Piece) : p.onStack.toList = pushed p.code.toList p.result := by
  simp [Piece.onStack, pushed, moved]

theorem Piece.size_onStack (p : Piece) :
    p.onStack.size = (pushed p.code.toList p.result).length := by
  rw [← p.toList_onStack, Array.length_toList]

theorem pin_code (p : Piece) (later : List Node) :
    (pin p later).code.toList = pinned later p.code.toList p.result := by
  unfold pin pinned Node.disturbs
  split <;> simp [pushed, moved]

theorem pin_result (p : Piece) (later : List Node) :
    (pin p later).result = pinnedAt later p.result := by
  unfold pin pinnedAt Node.disturbs
  split <;> rfl

/-! ## Nodes -/

/-- What is known of code that was lowered: the pool has grown, the addresses fit, and `P`
holds of every pool that the new one is within. -/
structure Lowered (b b' : Workbench) (code : List Instruction) (r : Operand) (P : Pool → Prop) :
    Prop where
  grows : b.pool.Within b'.pool
  fits : AllFit code
  result : Operand.fits r.address
  holds : ∀ q, b'.pool.Within q → P q

namespace Lowered

variable {b b₁ b' : Workbench} {code rest : List Instruction} {r s dest : Operand}
  {P Q : Pool → Prop}

theorem imp (h : Lowered b b' code r P) (hPQ : ∀ q, P q → Q q) : Lowered b b' code r Q :=
  ⟨h.grows, h.fits, h.result, fun q hq => hPQ q (h.holds q hq)⟩

theorem nothing (hr : Operand.fits r.address) : Lowered b b [] r fun _ => True :=
  ⟨Pool.Within.refl _, allFit_nil, hr, fun _ _ => trivial⟩

theorem constant {v : Value} {o : Operand} (h : Lowering.constant v b = .ok o b') :
    Lowered b b' [] o fun q => q.Constant o v := by
  obtain ⟨hw, hf, hc⟩ := Lowering.constant_eq_ok h
  exact ⟨hw, allFit_nil, hf, hc⟩

theorem reference {ref : Ref} {o : Operand} (h : Lowering.variableOperand ref b = .ok o b') :
    Lowered b b' [] o fun q => q.Variable ref o := by
  obtain ⟨hw, hf, hv⟩ := Lowering.variableOperand_eq_ok h
  exact ⟨hw, allFit_nil, hf, hv⟩

/-- Two pieces of code, one behind the other. -/
theorem append (h : Lowered b b₁ code r P) (h' : Lowered b₁ b' rest s Q) :
    Lowered b b' (code ++ rest) s fun q => P q ∧ Q q :=
  ⟨h.grows.trans h'.grows, allFit_append.2 ⟨h.fits, h'.fits⟩, h'.result,
    fun q hq => ⟨h.holds q (h'.grows.trans hq), h'.holds q hq⟩⟩

/-- Behind the code there is a value that has no code of its own. -/
theorem valued (h : Lowered b b₁ code r P) (h' : Lowered b₁ b' [] s Q) :
    Lowered b b' code s fun q => P q ∧ Q q := by
  have ha := h.append h'
  rwa [List.append_nil] at ha

theorem behind (hc : AllFit code) (h : Lowered b b' rest r P) : Lowered b b' (code ++ rest) r P :=
  ⟨h.grows, allFit_append.2 ⟨hc, h.fits⟩, h.result, h.holds⟩

theorem before (h : Lowered b b' code r P) (hr : AllFit rest) (hs : Operand.fits s.address) :
    Lowered b b' (code ++ rest) s P :=
  ⟨h.grows, allFit_append.2 ⟨h.fits, hr⟩, hs, h.holds⟩

theorem snoc {i : Instruction} (h : Lowered b b' code r P) (hi : i.Fits)
    (hs : Operand.fits s.address) : Lowered b b' (code ++ [i]) s P :=
  h.before (allFit_cons.2 ⟨hi, allFit_nil⟩) hs

theorem move (h : Lowered b b' code r P) (hd : Operand.fits dest.address) :
    Lowered b b' (code ++ moved r dest) dest P :=
  h.before (allFit_moved h.result hd) hd

theorem push (h : Lowered b b' code r P) : Lowered b b' (pushed code r) .stack P :=
  h.move rfl

theorem drop (h : Lowered b b' code r P) : Lowered b b' (dropped code r) .stack P :=
  ⟨h.grows, allFit_dropped h.fits, rfl, h.holds⟩

theorem pin (h : Lowered b b' code r P) (later : List Node) :
    Lowered b b' (pinned later code r) (pinnedAt later r) P :=
  ⟨h.grows, allFit_pinned h.fits h.result, fits_pinnedAt h.result, h.holds⟩

/-- An effect that leaves the pool alone, such as a label, changes nothing. -/
theorem label (h : Lowered b b₁ code r P) (hp : b'.pool = b₁.pool) : Lowered b b' code r P :=
  ⟨hp ▸ h.grows, h.fits, h.result, hp ▸ h.holds⟩

end Lowered

/-! ## For loops -/

theorem allFit_forCode {nil : Operand} {targets : List Operand} {its : List (List Instruction)}
    {body : List Instruction} (hn : Operand.fits nil.address)
    (hs : AllFit (spawnAll (passCode targets body).length (targets.zip its))) (hb : AllFit body)
    (hr : AllFit (resumeAll 0 targets))
    (hj : Operand.fits (-(body.length + 2 * targets.length + 2 : Nat))) :
    AllFit (forCode nil targets its body) := by
  have hbegin : AllFit [⟨.move, .stack, nil, .unused⟩, .bare .iterBegin] :=
    allFit_cons.2 ⟨⟨rfl, hn, rfl⟩, allFit_bare _⟩
  have hpass : AllFit (passCode targets body) :=
    allFit_append.2 ⟨allFit_append.2 ⟨allFit_append.2 ⟨allFit_bare _, hb⟩, hr⟩,
      allFit_cons.2 ⟨⟨hj, rfl, rfl⟩, allFit_nil⟩⟩
  exact allFit_append.2 ⟨allFit_append.2 ⟨allFit_append.2 ⟨hbegin, hs⟩, hpass⟩, allFit_bare _⟩

/-- The labels of a loop make its pieces the code of the loop. -/
theorem forCode_labelled {offset top exit : Nat} {nil toTop : Operand}
    {targets slots : List Operand} {its : List (List Instruction)} {body : Array Instruction}
    {spawnExits resumeExits : List Int} {b b₁ b₂ b₃ b' : Workbench}
    (htop : top = offset + (spawnAll 0 (targets.zip its)).length)
    (hexit : exit = top + 1 + body.size + 2 * targets.length + 1)
    (hslots : (List.range targets.length).mapM
      (fun (i : Nat) => Lowering.number i .producerSlot) b = .ok slots b₁)
    (hback : Lowering.number (distance (top + 1 + body.size + 2 * targets.length) top)
      .jumpOffset b₁ = .ok toTop b₂)
    (hspawn : (producersOf offset (targets.zip its)).mapM
      (fun p => Lowering.forward p.offset exit) b₂ = .ok spawnExits b₃)
    (hresume : (List.range targets.length).mapM
      (fun i => Lowering.forward (top + 1 + body.size + 2 * i) exit) b₃ = .ok resumeExits b')
    (hn : Operand.fits nil.address) (ht : ∀ o ∈ targets, Operand.fits o.address)
    (hi : ∀ p ∈ producersOf offset (targets.zip its), Operand.fits p.cont ∧
      Operand.fits p.target.address ∧ AllFit p.body.toList)
    (hb : AllFit body.toList) :
    (#[Instruction.mk .move .stack nil .unused, .bare .iterBegin] ++
      concat (List.zipWith Producer.code (producersOf offset (targets.zip its)) spawnExits) ++
      #[Instruction.bare .pop] ++ body ++
      concat (List.zipWith (fun (slot, target) e => resumeCode slot target e)
        (slots.zip targets) resumeExits) ++
      #[Instruction.mk .jump toTop .unused .unused, .bare .iterEnd]).toList =
        forCode nil targets its body.toList ∧
      AllFit (forCode nil targets its body.toList) ∧ b'.pool = b.pool := by
  obtain ⟨rfl, hfslot, rfl⟩ := Lowering.numbers_eq_ok _ hslots
  rw [← Array.length_toList] at hexit hback hresume
  obtain ⟨rfl, hj, rfl⟩ := Lowering.back_eq_nat hback
    (n := body.toList.length + 2 * targets.length + 2) (by omega)
  obtain ⟨rfl, hfspawn, hp₁⟩ := Lowering.forwards_eq_ok _ hspawn
  obtain ⟨rfl, hfresume, hp₂⟩ := Lowering.forwards_eq_ok _ hresume
  have hpass := length_passCode targets body.toList
  have hlen := spawnAll_length_eq 0 (passCode targets body.toList).length (targets.zip its)
  have hsexit : exit = offset +
      (spawnAll (passCode targets body.toList).length (targets.zip its)).length +
        (passCode targets body.toList).length := by omega
  have hrexit : exit = top + 1 + body.toList.length + 2 * (0 + targets.length) + 1 := by omega
  rw [List.range_eq_range'] at hfslot hfresume ⊢
  refine ⟨?_, ?_, hp₂.trans hp₁⟩
  · simp only [Array.toList_append, producersOf_code _ hsexit, resumeCode_eq _ hrexit]
    simp [forCode, passCode]
  · exact allFit_forCode hn (allFit_spawnAll _ hsexit hi hfspawn) hb
      (allFit_resumeAll targets hrexit ht fun i hi => ⟨hfslot i hi, hfresume i hi⟩) hj

/-! ## All nodes -/

mutual

theorem lower_lowered (node : Node) {offset : Nat} {dest : Operand} {b b' : Workbench} {p : Piece}
    (hd : Operand.fits dest.address) (h : lower offset dest node b = .ok p b') :
    Lowered b b' p.code.toList p.result
      fun q => Code q dest node p.code.toList p.result := by
  cases node with
  | literal value =>
    simp only [lower, estate_bind_eq_ok, estate_pure_eq_ok] at h
    obtain ⟨o, b₁, ho, rfl, rfl⟩ := h
    exact (Lowered.constant ho).imp fun q hv => by rw [Code]; exact ⟨rfl, hv⟩
  | ref target =>
    simp only [lower, estate_bind_eq_ok, estate_pure_eq_ok] at h
    obtain ⟨o, b₁, ho, rfl, rfl⟩ := h
    exact (Lowered.reference ho).imp fun q hv => by rw [Code]; exact ⟨rfl, hv⟩
  | assign target value =>
    simp only [lower, estate_bind_eq_ok, estate_pure_eq_ok] at h
    obtain ⟨home, b₁, hh, v, b₂, hv, rfl, rfl⟩ := h
    have hh := Lowered.reference hh
    have hv := lower_lowered value hh.result hv
    rw [Array.toList_append]
    exact (hh.append (hv.move hh.result)).imp fun q ⟨hvar, hc⟩ => by
      rw [Code]; exact ⟨hvar, _, _, hc, rfl⟩
  | unary op operand =>
    simp only [lower, estate_bind_eq_ok, estate_pure_eq_ok] at h
    obtain ⟨v, b₁, hv, rfl, rfl⟩ := h
    have hv := lower_lowered operand rfl hv
    rw [Array.toList_push]
    exact (hv.snoc ⟨hd, hv.result, rfl⟩ hd).imp fun q hc => by
      rw [Code]; exact ⟨rfl, _, _, hc, rfl⟩
  | binary left op right =>
    simp only [lower, estate_bind_eq_ok, estate_pure_eq_ok] at h
    obtain ⟨l, b₁, hl, r, b₂, hr, rfl, rfl⟩ := h
    have hl := (lower_lowered left rfl hl).pin [right]
    have hr := lower_lowered right rfl hr
    rw [Array.toList_push, Array.toList_append, pin_code, pin_result]
    exact ((hl.append hr).snoc ⟨hd, hl.result, hr.result⟩ hd).imp fun q ⟨hcl, hcr⟩ => by
      rw [Code]; exact ⟨rfl, _, _, _, _, hcl, hcr, rfl⟩
  | index target place =>
    simp only [lower, estate_bind_eq_ok, estate_pure_eq_ok] at h
    obtain ⟨t, b₁, ht, i, b₂, hi, rfl, rfl⟩ := h
    have ht := (lower_lowered target rfl ht).pin [place]
    have hi := lower_lowered place rfl hi
    rw [Array.toList_push, Array.toList_append, pin_code, pin_result]
    exact ((ht.append hi).snoc ⟨hd, ht.result, hi.result⟩ hd).imp fun q ⟨hct, hci⟩ => by
      rw [Code]; exact ⟨rfl, _, _, _, _, hct, hci, rfl⟩
  | slice target start stop =>
    simp only [lower, estate_bind_eq_ok, estate_pure_eq_ok] at h
    obtain ⟨t, b₁, ht, i, b₂, hi, j, b₃, hj, rfl, rfl⟩ := h
    have ht := (lower_lowered target rfl ht).pin [start, stop]
    have hi := (lower_lowered start rfl hi).pin [stop]
    have hj := lower_lowered stop rfl hj
    simp only [Array.toList_push, Array.toList_append, pin_code, pin_result]
    exact (((ht.append hi).append hj).snoc ⟨ht.result, hi.result, hj.result⟩ rfl).imp
      fun q ⟨⟨hct, hci⟩, hcj⟩ => by rw [Code]; exact ⟨rfl, _, _, _, _, _, _, hct, hci, hcj, rfl⟩
  | len target =>
    simp only [lower, estate_bind_eq_ok, estate_pure_eq_ok] at h
    obtain ⟨v, b₁, hv, rfl, rfl⟩ := h
    have hv := lower_lowered target rfl hv
    rw [Array.toList_push]
    exact (hv.snoc ⟨hd, hv.result, rfl⟩ hd).imp fun q hc => by
      rw [Code]; exact ⟨rfl, _, _, hc, rfl⟩
  | array elements =>
    simp only [lower] at h
    split at h
    · next hlen =>
      simp only [estate_bind_eq_ok, estate_pure_eq_ok] at h
      obtain ⟨code, b₁, hcode, count, b₂, hcount, rfl, rfl⟩ := h
      obtain ⟨ec, hec, he⟩ := lowerAll_lowered elements hcode
      obtain ⟨rfl, hf, rfl⟩ := Lowering.number_eq_ok hcount
      rw [Array.toList_push, hec, List.nil_append]
      exact (he.snoc ⟨hd, hf, rfl⟩ hd).imp fun q hc => by
        rw [Code, if_pos hlen]; exact ⟨rfl, _, hc, rfl⟩
    · next hlen =>
      simp only [estate_bind_eq_ok, estate_pure_eq_ok] at h
      obtain ⟨code, b₁, hcode, rfl, rfl⟩ := h
      obtain ⟨ec, hec, he⟩ := lowerChunks_lowered elements hcode
      rw [Array.toList_append, hec, List.nil_append]
      exact (he.move hd).imp fun q hc => by
        rw [Code, if_neg hlen]; exact ⟨rfl, _, hc, rfl⟩
  | block nodes =>
    rw [lower] at h
    obtain ⟨new, hnew, hl⟩ := lowerBlock_lowered nodes hd h
    rw [List.nil_append] at hnew
    rw [hnew]
    exact hl.imp fun q hc => by rw [Code]; exact hc
  | cond condition thenBranch elseBranch =>
    simp only [lower, estate_bind_eq_ok, estate_pure_eq_ok] at h
    obtain ⟨c, b₁, hc, t, b₂, ht, toElse, b₃, hte, e, b₄, he, toEnd, b₅, hee, rfl, rfl⟩ := h
    have hc := lower_lowered condition rfl hc
    have ht := (lower_lowered thenBranch rfl ht).push
    have he := (lowerOption_lowered elseBranch he).push
    simp only [Piece.size_onStack] at hte hee
    obtain ⟨rfl, hf₁, hp₁⟩ := Lowering.forward_eq_nat hte
      (n := (pushed t.code.toList t.result).length + 1) (by omega)
    obtain ⟨rfl, hf₂, hp₂⟩ := Lowering.forward_eq_nat hee rfl
    have htest : Instruction.Fits ⟨.jumpIfFalse,
        .jump ((pushed t.code.toList t.result).length + 1 : Nat), c.result, .unused⟩ :=
      ⟨hf₁, hc.result, rfl⟩
    have hskip : Instruction.Fits ⟨.jump,
        .jump (pushed e.code.toList e.result).length, .unused, .unused⟩ := ⟨hf₂, rfl, rfl⟩
    have hthen := ((hc.snoc htest (s := .stack) rfl).append ht).snoc hskip (s := .stack) rfl
    simp only [Array.toList_append, Array.toList_push, Piece.toList_onStack]
    exact (((hthen.label hp₁).append he).label hp₂).imp fun q ⟨⟨hcc, hct⟩, hce⟩ => by
      rw [Code]; exact ⟨rfl, _, _, _, _, _, _, hcc, hct, hce, rfl⟩
  | loop condition body =>
    simp only [lower, estate_bind_eq_ok, estate_pure_eq_ok] at h
    obtain ⟨nil, b₁, hnil, c, b₂, hc, v, b₃, hv, toTop, b₄, htop, toExit, b₅, hexit, rfl, rfl⟩ := h
    have hn := Lowered.constant hnil
    have hc := lower_lowered condition rfl hc
    have hv := (lower_lowered body rfl hv).push
    rw [Piece.size_onStack, ← Array.length_toList] at htop hexit
    obtain ⟨rfl, hf₁, rfl⟩ := Lowering.back_eq_nat htop
      (n := c.code.toList.length + (pushed v.code.toList v.result).length + 3) (by omega)
    obtain ⟨rfl, hf₂, hp⟩ := Lowering.forward_eq_nat hexit
      (n := (pushed v.code.toList v.result).length + 2) (by omega)
    have hinit : Instruction.Fits ⟨.move, .stack, nil, .unused⟩ := ⟨rfl, hn.result, rfl⟩
    have htest : AllFit [⟨.jumpIfFalse,
        .jump ((pushed v.code.toList v.result).length + 2 : Nat), c.result, .unused⟩, .bare .pop] :=
      allFit_cons.2 ⟨⟨hf₂, hc.result, rfl⟩, allFit_bare .pop⟩
    have hback : Instruction.Fits ⟨.jump,
        .jump (-(c.code.toList.length + (pushed v.code.toList v.result).length + 3 : Nat)),
        .unused, .unused⟩ := ⟨hf₁, rfl, rfl⟩
    have hhead := ((hn.snoc hinit (s := .stack) rfl).append hc).before htest (s := .stack) rfl
    simp only [Array.toList_append, Piece.toList_onStack]
    exact (((hhead.append hv).snoc hback rfl).label hp).imp fun q ⟨⟨hcn, hcc⟩, hcv⟩ => by
      rw [Code]; exact ⟨rfl, _, _, _, _, _, hcn, hcc, hcv, rfl⟩
  | forEach refs iterators body =>
    simp only [lower] at h
    split at h
    · cases h
    · next hlen =>
      simp only [estate_bind_eq_ok, estate_pure_eq_ok] at h
      obtain ⟨targets, b₁, htargets, nil, b₂, hnil, ⟨ps, top⟩, b₃, hps, v, b₄, hv, slots, b₅, hslots,
        toTop, b₆, htop, spawnExits, b₇, hspawn, resumeExits, b₈, hresume, rfl, rfl⟩ := h
      have hlen : refs.length = iterators.length := by omega
      obtain ⟨hwt, hft, hct⟩ := Lowering.variables_eq_ok refs htargets
      have htl : targets.length = iterators.length := by
        rw [← (hct _ (Pool.Within.refl _)).length_eq, hlen]
      have hn := Lowered.constant hnil
      obtain ⟨its, hil, rfl, rfl, hwi, hfi, hci⟩ := lowerIterators_lowered iterators htl hft hps
      have hv := (lower_lowered body rfl hv).push
      obtain ⟨hcode, hf, hp⟩ := forCode_labelled rfl rfl hslots htop hspawn hresume hn.result hft hfi
        (by rw [Piece.toList_onStack]; exact hv.fits)
      rw [List.reverse_nil, List.nil_append, hcode]
      rw [Piece.toList_onStack] at hf ⊢
      refine Lowered.label ⟨hwt.trans (hn.grows.trans (hwi.trans hv.grows)), hf, rfl,
        fun q hq => ?_⟩ hp
      have hqi := hv.grows.trans hq
      have hqn := hwi.trans hqi
      rw [Code]
      exact ⟨rfl, nil, targets, its, _, _, hn.holds q hqn, hlen, hct q (hn.grows.trans hqn),
        hci q hqi, hv.holds q hq, rfl⟩
  | yield value =>
    simp only [lower, estate_bind_eq_ok, estate_pure_eq_ok] at h
    obtain ⟨v, b₁, hv, nil, b₂, hnil, rfl, rfl⟩ := h
    have hv := lower_lowered value rfl hv
    rw [Array.toList_push]
    have hy : Instruction.Fits ⟨.yield, .unused, v.result, .unused⟩ := ⟨rfl, hv.result, rfl⟩
    exact ((hv.snoc hy (s := .unused) rfl).valued (Lowered.constant hnil)).imp
      fun q ⟨hc, hcn⟩ => by rw [Code]; exact ⟨hcn, _, _, hc, rfl⟩
  | function params frameSize body =>
    simp only [lower, estate_bind_eq_ok, estate_pure_eq_ok] at h
    obtain ⟨v, b₁, hv, skip, b₂, hskip, entry, b₃, hentry, count, b₄, hcount, size, b₅, hsize,
      rfl, rfl⟩ := h
    have hv := lower_lowered body rfl hv
    rw [Array.size_push, ← Array.length_toList] at hskip hentry
    obtain ⟨rfl, hf₁, hp⟩ := Lowering.forward_eq_nat hskip (n := v.code.toList.length + 1) (by omega)
    obtain ⟨rfl, hf₂, rfl⟩ := Lowering.back_eq_nat hentry (n := v.code.toList.length + 2) (by omega)
    obtain ⟨rfl, hf₃, rfl⟩ := Lowering.number_eq_ok hcount
    obtain ⟨rfl, hf₄, rfl⟩ := Lowering.number_eq_ok hsize
    have hjump : AllFit [⟨.jump, .jump (v.code.toList.length + 1 : Nat), .unused, .unused⟩] :=
      allFit_cons.2 ⟨⟨hf₁, rfl, rfl⟩, allFit_nil⟩
    have hend : AllFit [⟨.ret, .unused, v.result, .unused⟩,
        ⟨.makeFunction, ⟨.immediate, -(v.code.toList.length + 2 : Nat)⟩,
          ⟨.immediate, params.toInt64.toInt⟩,
          ⟨.immediate, (slotCount params frameSize).toInt64.toInt⟩⟩] :=
      allFit_cons.2 ⟨⟨rfl, hv.result, rfl⟩, allFit_cons.2 ⟨⟨hf₂, hf₃, hf₄⟩, allFit_nil⟩⟩
    have hcode := ((hv.behind hjump).before hend (s := .stack) rfl).label hp
    simp only [Array.toList_append, Array.toList_push, List.append_assoc, List.cons_append,
      List.nil_append] at hcode ⊢
    exact hcode.imp fun q hc => by
      rw [Code]; exact ⟨rfl, _, _, hc, by simp [slotCount, Operand.jump]⟩
  | call callee args =>
    simp only [lower, estate_bind_eq_ok, estate_pure_eq_ok] at h
    obtain ⟨code, b₁, hcode, f, b₂, hf, count, b₃, hcount, rfl, rfl⟩ := h
    obtain ⟨ac, hac, ha⟩ := lowerAll_lowered args hcode
    have hc := lower_lowered callee rfl hf
    obtain ⟨rfl, hfit, rfl⟩ := Lowering.number_eq_ok hcount
    rw [Array.toList_push, Array.toList_append, hac, List.nil_append]
    exact ((ha.append hc).snoc ⟨hfit, hc.result, rfl⟩ rfl).imp fun q ⟨hca, hcc⟩ => by
      rw [Code]; exact ⟨rfl, _, _, _, hca, hcc, rfl⟩
  | ret value =>
    simp only [lower, estate_bind_eq_ok, estate_pure_eq_ok] at h
    obtain ⟨v, b₁, hv, nil, b₂, hnil, rfl, rfl⟩ := h
    have hv := lower_lowered value rfl hv
    rw [Array.toList_push]
    have hr : Instruction.Fits ⟨.ret, .unused, v.result, .unused⟩ := ⟨rfl, hv.result, rfl⟩
    exact ((hv.snoc hr (s := .unused) rfl).valued (Lowered.constant hnil)).imp
      fun q ⟨hc, hcn⟩ => by rw [Code]; exact ⟨hcn, _, _, hc, rfl⟩
  | primitive op args =>
    simp only [lower] at h
    split at h
    · cases h
    · next hlen =>
      have hlen : args.length = op.arity := by omega
      rw [estate_bind_eq_ok] at h
      obtain ⟨arg, b₁, harg, h⟩ := h
      have ha := lowerFirst_lowered args harg
      split at h
      · next hop =>
        simp only [estate_bind_eq_ok, estate_pure_eq_ok] at h
        obtain ⟨nil, b₂, hnil, rfl, rfl⟩ := h
        rw [Array.toList_push]
        have he : Instruction.Fits ⟨.exit, .unused, arg.result, .unused⟩ := ⟨rfl, ha.result, rfl⟩
        have hv := (ha.snoc he (s := .unused) rfl).valued (Lowered.constant hnil)
        exact hv.imp fun q ⟨hc, hcn⟩ => by
          rw [Code]
          refine ⟨hlen, _, _, hc, ?_⟩
          rw [if_pos hop]
          exact ⟨hcn, rfl⟩
      · next hop =>
        rw [estate_pure_eq_ok] at h
        obtain ⟨rfl, rfl⟩ := h
        rw [Array.toList_push]
        exact (ha.snoc ⟨hd, ha.result, rfl⟩ hd).imp fun q hc => by
          rw [Code]
          refine ⟨hlen, _, _, hc, ?_⟩
          rw [if_neg hop]
          exact ⟨rfl, rfl⟩

theorem lowerAll_lowered (nodes : List Node) {offset : Nat} {acc code : Array Instruction}
    {b b' : Workbench} (h : lowerAll offset acc nodes b = .ok code b') :
    ∃ new, code.toList = acc.toList ++ new ∧
      Lowered b b' new .stack fun q => CodeAll q nodes new := by
  cases nodes with
  | nil =>
    rw [lowerAll, estate_pure_eq_ok] at h
    obtain ⟨rfl, rfl⟩ := h
    exact ⟨[], by simp, (Lowered.nothing rfl).imp fun q _ => by rw [CodeAll]⟩
  | cons node nodes =>
    simp only [lowerAll, estate_bind_eq_ok] at h
    obtain ⟨v, b₁, hv, hrest⟩ := h
    have hv := (lower_lowered node rfl hv).push
    obtain ⟨new, hnew, hl⟩ := lowerAll_lowered nodes hrest
    refine ⟨pushed v.code.toList v.result ++ new, ?_, (hv.append hl).imp fun q ⟨hc, hcs⟩ => ?_⟩
    · rw [hnew, Array.toList_append, v.toList_onStack, List.append_assoc]
    · rw [CodeAll]
      exact ⟨_, _, _, hc, hcs, rfl⟩

theorem lowerChunks_lowered (nodes : List Node) {offset k : Nat} {acc code : Array Instruction}
    {b b' : Workbench} (h : lowerChunks offset acc k nodes b = .ok code b') :
    ∃ new, code.toList = acc.toList ++ new ∧
      Lowered b b' new .stack fun q => CodeChunks q k nodes new := by
  cases nodes with
  | nil =>
    rw [lowerChunks, estate_pure_eq_ok] at h
    obtain ⟨rfl, rfl⟩ := h
    exact ⟨[], by simp, (Lowered.nothing rfl).imp fun q _ => by rw [CodeChunks]⟩
  | cons node nodes =>
    simp only [lowerChunks, estate_bind_eq_ok] at h
    obtain ⟨v, b₁, hv, hrest⟩ := h
    have hv := (lower_lowered node rfl hv).push.before (allFit_gather (k + 1) nodes.isEmpty)
      (s := .stack) rfl
    obtain ⟨new, hnew, hl⟩ := lowerChunks_lowered nodes hrest
    refine ⟨_, ?_, (hv.append hl).imp fun q ⟨hc, hcs⟩ => ?_⟩
    · rw [hnew, Array.toList_append, Array.toList_append, v.toList_onStack]
      simp only [List.append_assoc]
    · rw [CodeChunks]
      exact ⟨_, _, _, hc, hcs, rfl⟩

theorem lowerBlock_lowered (nodes : List Node) {offset : Nat} {dest : Operand}
    {acc : Array Instruction} {b b' : Workbench} {p : Piece} (hd : Operand.fits dest.address)
    (h : lowerBlock offset dest acc nodes b = .ok p b') :
    ∃ new, p.code.toList = acc.toList ++ new ∧
      Lowered b b' new p.result fun q => CodeBlock q dest nodes new p.result := by
  match nodes with
  | [] =>
    simp only [lowerBlock, estate_bind_eq_ok, estate_pure_eq_ok] at h
    obtain ⟨nil, b₁, hnil, rfl, rfl⟩ := h
    exact ⟨[], by simp, (Lowered.constant hnil).imp fun q hc => by rw [CodeBlock]; exact ⟨rfl, hc⟩⟩
  | [last] =>
    simp only [lowerBlock, estate_bind_eq_ok, estate_pure_eq_ok] at h
    obtain ⟨v, b₁, hv, rfl, rfl⟩ := h
    have hv := lower_lowered last hd hv
    exact ⟨v.code.toList, by simp, hv.imp fun q hc => by rw [CodeBlock]; exact hc⟩
  | node :: next :: nodes =>
    simp only [lowerBlock, estate_bind_eq_ok] at h
    obtain ⟨v, b₁, hv, hrest⟩ := h
    have hv := (lower_lowered node rfl hv).drop
    obtain ⟨new, hnew, hl⟩ := lowerBlock_lowered (next :: nodes) hd hrest
    refine ⟨dropped v.code.toList v.result ++ new, ?_, (hv.append hl).imp fun q ⟨hc, hcs⟩ => ?_⟩
    · rw [hnew, Array.toList_append, Array.toList_append]
      simp only [dropped, List.append_assoc]
    · rw [CodeBlock]
      · exact ⟨_, _, _, hc, hcs, rfl⟩
      · intro h
        cases h

theorem lowerOption_lowered (node : Option Node) {offset : Nat} {b b' : Workbench} {p : Piece}
    (h : lowerOption offset node b = .ok p b') :
    Lowered b b' p.code.toList p.result
      fun q => CodeOption q node p.code.toList p.result := by
  cases node with
  | none =>
    simp only [lowerOption, estate_bind_eq_ok, estate_pure_eq_ok] at h
    obtain ⟨nil, b₁, hnil, rfl, rfl⟩ := h
    exact (Lowered.constant hnil).imp fun q hc => by rw [CodeOption]; exact ⟨rfl, hc⟩
  | some node =>
    rw [lowerOption] at h
    exact (lower_lowered node rfl h).imp fun q hc => by rw [CodeOption]; exact hc

theorem lowerFirst_lowered (nodes : List Node) {offset : Nat} {b b' : Workbench} {p : Piece}
    (h : lowerFirst offset nodes b = .ok p b') :
    Lowered b b' p.code.toList p.result
      fun q => CodeFirst q nodes p.code.toList p.result := by
  cases nodes with
  | nil =>
    rw [lowerFirst, estate_pure_eq_ok] at h
    obtain ⟨rfl, rfl⟩ := h
    exact (Lowered.nothing rfl).imp fun q _ => by rw [CodeFirst]; exact ⟨rfl, rfl⟩
  | cons node nodes =>
    rw [lowerFirst] at h
    exact (lower_lowered node rfl h).imp fun q hc => by rw [CodeFirst]; exact hc

theorem lowerIterators_lowered (nodes : List Node) {offset top : Nat} {targets : List Operand}
    {done ps : List Producer} {b b' : Workbench} (hl : targets.length = nodes.length)
    (ht : ∀ o ∈ targets, Operand.fits o.address)
    (h : lowerIterators offset targets done nodes b = .ok (ps, top) b') :
    ∃ its : List (List Instruction), its.length = nodes.length ∧
      ps = done.reverse ++ producersOf offset (targets.zip its) ∧
      top = offset + (spawnAll 0 (targets.zip its)).length ∧ b.pool.Within b'.pool ∧
      (∀ p ∈ producersOf offset (targets.zip its), Operand.fits p.cont ∧
        Operand.fits p.target.address ∧ AllFit p.body.toList) ∧
      ∀ q, b'.pool.Within q → CodeIterators q nodes its := by
  cases nodes with
  | nil =>
    rw [lowerIterators, estate_pure_eq_ok] at h
    obtain ⟨h, rfl⟩ := h
    cases h
    obtain rfl := List.length_eq_zero_iff.1 hl
    exact ⟨[], rfl, by simp [producersOf], by simp [spawnAll], Pool.Within.refl _,
      by simp [producersOf], fun q _ => by rw [CodeIterators]⟩
  | cons node nodes =>
    cases targets with
    | nil => cases hl
    | cons target targets =>
      simp only [lowerIterators, estate_bind_eq_ok] at h
      obtain ⟨v, b₁, hv, cont, b₂, hcont, hrest⟩ := h
      have hv := (lower_lowered node rfl hv).drop
      have hbody : (v.code ++ dropCode v.result).push (.bare .endIter) =
          (dropped v.code.toList v.result ++ [Instruction.bare .endIter]).toArray := by
        apply Array.ext'
        simp [dropped]
      rw [hbody] at hcont hrest
      simp only [List.size_toArray, List.length_append, List.length_cons, List.length_nil,
        List.tail_cons, List.head?_cons, Option.getD_some] at hcont hrest
      obtain ⟨rfl, hd, hp⟩ := Lowering.forward_eq_nat hcont rfl
      rw [List.forall_mem_cons] at ht
      obtain ⟨its, hil, rfl, rfl, hws, hfs, hcs⟩ :=
        lowerIterators_lowered nodes (by simpa using hl) ht.2 hrest
      rw [hp] at hws
      have hnext : offset + 1 + ((dropped v.code.toList v.result).length + (0 + 1)) + 1 =
          offset + (dropped v.code.toList v.result).length + 3 := by omega
      rw [hnext] at hfs ⊢
      refine ⟨dropped v.code.toList v.result :: its, by simp [hil], ?_, ?_, hv.grows.trans hws, ?_,
        fun q hq => ?_⟩
      · simp [producersOf]
      · simp only [List.zip_cons_cons, spawnAll, List.length_cons, List.length_append,
          List.length_nil]
        omega
      · simp only [List.zip_cons_cons, producersOf, List.forall_mem_cons]
        exact ⟨⟨hd, ht.1, allFit_append.2 ⟨hv.fits, allFit_bare _⟩⟩, hfs⟩
      · rw [CodeIterators]
        exact ⟨_, _, _, hv.holds q (hws.trans hq), hcs q hq, rfl⟩

end

end YieldMachine
