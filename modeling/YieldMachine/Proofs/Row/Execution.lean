import YieldMachine.Proofs.Flow.Session
import YieldMachine.Proofs.Row.Stages

/-!
# Executions of array literals

An execution of an array literal keeps to its protocol, whatever its elements do, as long as
its activation is there. What the literal does itself brings it nearer to its end, and so does
every value of an element. So it comes to its end if its elements do and the stack is never
full.

    Row.Runs.step   a step of the machine is one of the protocol
    Row.Path.left   every step of the literal itself, and every value, brings it nearer to its end
    Row.Runs.ends   it comes to its end
-/

namespace YieldMachine

variable {program : Program} {limits : Limits} {i : Instruction} {m m' : Machine} {seat : Seat}
  {c₀ c c' : Context} {nodes : List Node} {row : Row}

namespace Row

variable {p p' : Progress} {vs : List Value} {v : Value} {x y z : Point}

/-! ## Definitions -/

/-- A machine in which an execution of the literal has come so far. -/
structure Runs (row : Row) (program : Program) (c₀ : Context) (m : Machine) (seat : Seat)
    (p : Progress) : Prop where
  sound : m.Sound program
  shows : row.Shows c₀ p m seat
  amid : p.stage = .element → ∃ c, m.seat? seat = some c ∧
    c.Amid program (row.context c₀ p) (row.endAt p.values.length)

/-- A step brings the array of some values to the destination of the literal. -/
structure Delivers (row : Row) (program : Program) (c₀ : Context) (vs : List Value)
    (m m' : Machine) : Prop where
  stored : m.world.put? program c₀ row.dest (.array vs.toArray) = some m'.world
  reached : m'.At (c₀.plus row.exitAt (row.dest.received (.array vs.toArray))) m.consumers m'.world

/-- One instruction that makes an array of all the values leads to the same machine. -/
def AtOnce (row : Row) (program : Program) (limits : Limits) (c₀ : Context) (vs : List Value)
    (m m' : Machine) : Prop :=
  ∀ m₁ : Machine, m₁.At (c₀.plus row.exitAt vs.toArray) m.consumers m.world →
    Action.Reaches limits (c₀.plus row.exitAt vs.toArray) (Action.makeArray program limits
      ⟨.makeArray, row.dest, ⟨.immediate, vs.length⟩, .unused⟩) m₁ m'.active m'.consumers m'.world

/-- How far an execution is from the end of the literal. -/
def left (row : Row) (p : Progress) : Nat :=
  match p.stage with
  | .element => 4 * (row.count - p.values.length) + 3
  | .gather _ => 4 * (row.count - p.values.length) + 2
  | .join _ => 4 * (row.count - p.values.length) + 1
  | .deliver => 1
  | .done => 0

/-- Where an execution begins. -/
def begins (row : Row) (m : Machine) : Point :=
  ⟨m, m.front, row.start⟩

/-! ## Elements -/

/-- The context comes to an element, or to an instruction of the literal itself. -/
theorem Runs.of_active (hrow : row.In program nodes) (hs : m.Sound program) (hf : row.Fits p)
    (hseat : seat = m.front) (ha : m.active = row.context c₀ p) :
    row.Runs program c₀ m seat p := by
  obtain ⟨vs, stage⟩ := p
  cases stage with
  | element =>
    have hc : m.seat? seat = some m.active := by rw [hseat, Machine.seat?_front]
    have hip : m.active.ip = row.startAt vs.length := by rw [ha]; rfl
    have hamid : m.active.Amid program m.active (row.endAt vs.length) :=
      Context.Amid.enter hs (hip ▸ hrow.valued hf)
    have hinside : row.startAt vs.length ≤ m.active.ip ∧ m.active.ip < row.endAt vs.length := by
      rcases hamid.inside hs.active.pending rfl with ⟨v, hv⟩ | hin
      · -- the element has not run yet: nothing stands on what it found
        have hsize := congrArg (fun c => c.stack.size) hv
        simp only [Array.size_push] at hsize
        omega
      · exact hip ▸ hin
    refine ⟨hs, ⟨hf, m.active, hc, ?_, fun _ => hinside⟩, fun _ => ⟨m.active, hc, ?_⟩⟩
    · rw [← ha]
      exact hamid.rests
    · rw [← ha]
      exact hamid
  | _ => exact ⟨hs, ⟨hf, hseat, ha⟩, fun he => by cases he⟩

/-- An execution begins with nothing on the stack but what was there before. -/
theorem context_start (hbase : c₀.ip = row.base) : row.context c₀ row.start = c₀ := by
  rw [context, own_start, start, place_next (Nat.zero_le _)]
  show c₀.plus row.base #[] = c₀
  rw [← hbase, Context.plus_self]

theorem Runs.begins (hrow : row.In program nodes) (hs : m.Sound program)
    (hbase : m.active.ip = row.base) : row.Runs program m.active m m.front row.start :=
  .of_active hrow hs (fits_next (Nat.zero_le _)) rfl (context_start hbase).symm

/-- While an element runs, a step that leaves the activation there keeps the context on its
way. -/
theorem Runs.amid_step (h : row.Runs program c₀ m seat ⟨vs, .element⟩)
    (hi : program.instruction? m.active.ip = some i) (hm : Move program program.Trusts i m m')
    (hc' : m'.seat? (m.reseat i seat) = some c') (hd : c₀.calls.size ≤ c'.calls.size) :
    c'.Amid program (row.context c₀ ⟨vs, .element⟩) (row.endAt vs.length) := by
  obtain ⟨hs, ⟨-, c, hc, -, hinside⟩, hamid⟩ := h
  obtain ⟨c₁, hc₁, hamid⟩ := hamid rfl
  cases hc.symm.trans hc₁
  exact hamid.step hs hc hi hm hc' (fun heq => Nat.ne_of_lt (hinside heq).2) hd

/-- The element runs on, or comes to its end, unless its activation is left. -/
theorem Runs.elementStep (hrow : row.In program nodes) (hc₀ : c₀.pending = none)
    (h : row.Runs program c₀ m seat ⟨vs, .element⟩)
    (hi : program.instruction? m.active.ip = some i) (hm : Move program program.Trusts i m m')
    (hs' : m'.Sound program) (hc' : m'.seat? (m.reseat i seat) = some c')
    (hd : c₀.calls.size ≤ c'.calls.size) :
    ∃ p', row.Takes program c₀ i m m' seat ⟨vs, .element⟩ p' ∧
      row.Runs program c₀ m' (m.reseat i seat) p' := by
  have hamid' := h.amid_step hi hm hc' hd
  obtain ⟨hs, ⟨hlt, c, hc, -, hinside⟩, -⟩ := h
  by_cases hdone : c'.calls.size = c₀.calls.size ∧ c'.ip = row.endAt vs.length
  · rcases hamid'.inside hc₀ hdone.1 with ⟨v, hv⟩ | ⟨-, hin⟩
    · -- the context was not there before
      have hne : c' ≠ c := fun heq =>
        Nat.ne_of_lt (hinside (heq ▸ hdone.1)).2 (heq ▸ hdone.2)
      have hpending : c'.pending = none := by rw [hv]; exact hc₀
      obtain ⟨hfront, hactive⟩ := Context.ends_active (hrow.valued hlt) hs hs' hc hi hm hc'
        hpending hdone.2 hne
      have hended : m'.active = c₀.plus (row.endAt vs.length) (chunked vs ++ #[v]) := by
        rw [hactive, hv, Context.plus_append]
        simp only [context, own, Context.plus, Array.append_singleton]
      exact ⟨_, .finish hfront hended, .of_active hrow hs' (fits_ended hlt) hfront
        (hended.trans (context_ended hlt).symm)⟩
    · exact absurd hdone.2 (Nat.ne_of_lt hin)
  · refine ⟨_, .within, hs', ⟨hlt, c', hc', hamid'.rests, fun heq => ?_⟩,
      fun _ => ⟨c', hc', hamid'⟩⟩
    rcases hamid'.inside hc₀ heq with ⟨v, rfl⟩ | hin
    · exact absurd ⟨heq, rfl⟩ hdone
    · exact hin

/-! ## Steps -/

/-- An instruction of the literal itself leads to the next stage. -/
theorem Runs.act (hrow : row.In program nodes) (h : row.Runs program c₀ m seat p)
    (hown : p.stage.isOwn) (hi : program.instruction? m.active.ip = some i)
    (hstep : m.step program limits = .running m') :
    row.Takes program c₀ i m m' seat p (row.after p) ∧
      row.Runs program c₀ m' (m.reseat i seat) (row.after p) := by
  obtain ⟨hfront, hstored, hreached⟩ := h.shows.acts hrow hown hi hstep
  have hsound := h.sound.step limits
  rw [hstep] at hsound
  cases hsound with
  | running _ _ hs' =>
    exact ⟨.act hown hfront hstored hreached,
      .of_active hrow hs' h.shows.fits.after hfront hreached.active⟩

/-- A step of a machine that executes a literal is one of its protocol, or leaves the
activation that it is in. -/
theorem Runs.step (hrow : row.In program nodes) (hc₀ : c₀.pending = none)
    (h : row.Runs program c₀ m seat p) (hp : p.stage ≠ .done)
    (hi : program.instruction? m.active.ip = some i)
    (hstep : m.step program limits = .running m')
    (hc' : m'.seat? (m.reseat i seat) = some c') :
    (∃ p', row.Takes program c₀ i m m' seat p p' ∧
      row.Runs program c₀ m' (m.reseat i seat) p') ∨ c'.calls.size < c₀.calls.size := by
  cases hown : p.stage.isOwn with
  | true => exact .inl ⟨_, h.act hrow hown hi hstep⟩
  | false =>
    obtain ⟨vs, stage⟩ := p
    cases stage with
    | element =>
      have hsound := h.sound.step limits
      rw [hstep] at hsound
      cases hsound with
      | running hi' hm hs' =>
        cases hi.symm.trans hi'
        rcases Nat.lt_or_ge c'.calls.size c₀.calls.size with hleft | hd
        · exact .inr hleft
        · exact .inl (h.elementStep hrow hc₀ hi hm hs' hc' hd)
    | done => exact absurd rfl hp
    | gather | join | deliver => cases hown

theorem Takes.of_element (h : row.Takes program c₀ i m m' seat ⟨vs, .element⟩ p') :
    p' = ⟨vs, .element⟩ ∨ ∃ v, p' = row.ended vs v ∧
      m'.active = c₀.plus (row.endAt vs.length) (chunked vs ++ #[v]) := by
  generalize hp : (⟨vs, .element⟩ : Progress) = p at h
  cases h with
  | within => exact .inl rfl
  | finish _ hactive =>
    cases hp
    exact .inr ⟨_, rfl, hactive⟩
  | act hown =>
    subst hp
    cases hown

/-- A point that a step of the protocol leads to is one in which the execution runs. -/
theorem Steps.runs (hrow : row.In program nodes)
    (h : row.Runs program c₀ x.machine x.seat x.progress) (hs : row.Steps program limits c₀ x y) :
    row.Runs program c₀ y.machine y.seat y.progress := by
  obtain @⟨m, m', seat, p, p', i, hi, hstep, htakes, hshows⟩ := hs
  have hsound := h.sound.step limits
  rw [hstep] at hsound
  cases hsound with
  | running hi' hm hs' =>
    cases hi.symm.trans hi'
    cases htakes with
    | within =>
      have hshows' := hshows
      obtain ⟨-, c', hc', hrests, -⟩ := hshows
      exact ⟨hs', hshows', fun _ => ⟨c', hc', h.amid_step hi hm hc' hrests.length_le⟩⟩
    | finish hfront hactive =>
      exact .of_active hrow hs' hshows.fits hfront
        (hactive.trans (context_ended h.shows.fits).symm)
    | act _ hfront _ hreached => exact .of_active hrow hs' hshows.fits hfront hreached.active

theorem Path.runs (hrow : row.In program nodes)
    (h : row.Runs program c₀ x.machine x.seat x.progress) (hp : row.Path program limits c₀ x y) :
    row.Runs program c₀ y.machine y.seat y.progress := by
  induction hp with
  | refl => exact h
  | tail _ hs ih => exact hs.runs hrow ih

/-! ## What an execution has done -/

/-- By induction on the steps: the values of the elements that are over are those that their
code gave. -/
theorem Path.gave (hrow : row.In program nodes)
    (h : row.Runs program c₀ x.machine x.seat x.progress) (hx : x.progress.all = [])
    (hp : row.Path program limits c₀ x y) :
    ∀ k v, y.progress.all[k]? = some v → row.Gave program limits c₀ x y k v := by
  induction hp with
  | refl =>
    intro k v hk
    rw [hx] at hk
    cases hk
  | @tail y z hpath hs ih =>
    have hstep := hs
    have hruns := Path.runs hrow h hpath
    obtain @⟨m, m', seat, p, p', i, hi, hrun, htakes, hshows⟩ := hs
    -- what was given before this step was given still
    have hkept : ∀ k v, p.all[k]? = some v → p'.all.take k = p.all.take k →
        row.Gave program limits c₀ x ⟨m', m.reseat i seat, p'⟩ k v := by
      intro k v hk htake
      obtain ⟨z, hbefore, hafter, hfront, hactive⟩ := ih k v hk
      exact ⟨z, hbefore, hafter.tail hstep, hfront, htake ▸ hactive⟩
    cases htakes with
    | within => exact fun k v hk => hkept k v hk rfl
    | act =>
      have hall : (row.after p).all = p.all := hruns.shows.fits.all_after
      exact fun k v hk => hkept k v (hall ▸ hk) (by rw [hall])
    | @finish vs w hfront hactive =>
      have hall : (row.ended vs w).all = vs ++ [w] := all_ended hruns.shows.fits
      intro k v hk
      rw [hall] at hk
      rcases Nat.lt_trichotomy k vs.length with hlt | rfl | hgt
      · rw [List.getElem?_append_left hlt] at hk
        refine hkept k v hk ?_
        rw [hall, List.take_append_of_le_length (Nat.le_of_lt hlt)]
        rfl
      · -- the value that the code has just given
        rw [List.getElem?_concat_length] at hk
        cases hk
        refine ⟨_, hpath.tail hstep, .refl, hfront, ?_⟩
        rw [hall, List.take_left]
        exact hactive
      · rw [List.getElem?_eq_none (by rw [List.length_append, List.length_singleton]; omega)] at hk
        cases hk

theorem left_next (h : vs.length ≤ row.count) :
    row.left (row.next vs) < 4 * (row.count - vs.length) + 4 := by
  rcases next_cases h with ⟨-, heq⟩ | ⟨-, -, heq⟩ | ⟨-, -, heq⟩ <;> rw [heq, left] <;> dsimp only <;>
    omega

theorem left_next_push (hlt : vs.length < row.count) :
    row.left (row.next (vs ++ [v])) < 4 * (row.count - vs.length) := by
  have hlen : (vs ++ [v]).length = vs.length + 1 := List.length_append
  have := left_next (show (vs ++ [v]).length ≤ row.count by omega)
  omega

theorem left_ended (hlt : vs.length < row.count) :
    row.left (row.ended vs v) < row.left ⟨vs, .element⟩ := by
  have hnext := left_next_push (v := v) hlt
  unfold ended
  split <;> simp only [left] at * <;> omega

theorem Fits.left_after (hf : row.Fits p) (hown : p.stage.isOwn) :
    row.left (row.after p) < row.left p := by
  obtain ⟨vs, stage⟩ := p
  cases stage with
  | element | done => cases hown
  | gather v =>
    have hnext := left_next_push (v := v) hf.1
    unfold Row.after
    dsimp only
    split <;> simp only [left] at * <;> omega
  | join v =>
    have hnext := left_next_push (v := v) hf.1
    simp only [Row.after, left] at *
    omega
  | deliver => exact Nat.zero_lt_one

/-- A step of the protocol leaves an execution where it is, or brings it nearer to its end. -/
theorem Takes.left (hf : row.Fits p) (h : row.Takes program c₀ i m m' seat p p') :
    p' = p ∨ row.left p' < row.left p := by
  cases h with
  | within => exact .inl rfl
  | finish => exact .inr (left_ended hf)
  | act hown => exact .inr (hf.left_after hown)

theorem Path.left (hrow : row.In program nodes)
    (h : row.Runs program c₀ x.machine x.seat x.progress) (hp : row.Path program limits c₀ x y) :
    y.progress = x.progress ∨ row.left y.progress < row.left x.progress := by
  induction hp with
  | refl => exact .inl rfl
  | @tail y z hpath hs ih =>
    have hruns := Path.runs hrow h hpath
    obtain @⟨m, m', seat, p, p', i, hi, hrun, htakes, hshows⟩ := hs
    rcases htakes.left hruns.shows.fits with heq | hlt
    · rw [heq]
      exact ih
    · rcases ih with heq | hlt'
      · exact .inr (heq ▸ hlt)
      · exact .inr (Nat.lt_trans hlt hlt')

/-! ## The end of the literal -/

/-- Where the literal is over, the last step has brought the array to its destination. -/
theorem Steps.delivers (hf : row.Fits x.progress) (hs : row.Steps program limits c₀ x y)
    (hdone : y.progress.stage = .done) :
    row.Delivers program c₀ y.progress.values x.machine y.machine := by
  obtain @⟨m, m', seat, p, p', i, hi, hstep, htakes, hshows⟩ := hs
  cases htakes with
  | within => cases hdone
  | @finish vs v =>
    -- behind an element there is an instruction of the literal, or another element
    exfalso
    have hlen : (vs ++ [v]).length = vs.length + 1 := List.length_append
    have hlt : vs.length < row.count := hf
    unfold ended at hdone
    split at hdone
    · cases hdone
    · next hfills =>
      rcases next_cases (show (vs ++ [v]).length ≤ row.count by omega) with
        ⟨-, heq⟩ | ⟨hcount, ⟨hlong, -⟩, -⟩ | ⟨-, -, heq⟩
      · rw [heq] at hdone
        cases hdone
      · exact hfills ⟨hlong, .inr (by omega)⟩
      · rw [heq] at hdone
        cases hdone
  | act hown _ hstored hreached =>
    obtain ⟨vs, stage⟩ := p
    cases stage with
    | element | done => cases hown
    | gather v =>
      -- the first chunk of a long literal is not the last one
      exfalso
      have hlen : (vs ++ [v]).length = vs.length + 1 := List.length_append
      obtain ⟨hlt, hlong, -⟩ := hf
      dsimp only at hlt
      unfold after at hdone
      dsimp only at hdone
      split at hdone
      · cases hdone
      · rw [next, if_pos (by omega)] at hdone
        cases hdone
    | join v =>
      have hle : (vs ++ [v]).length ≤ row.count := by
        rw [List.length_append]
        exact hf.1
      have hafter : row.after ⟨vs, .join v⟩ = row.next (vs ++ [v]) := rfl
      rcases next_cases hle with ⟨-, heq⟩ | ⟨-, ⟨-, hdest⟩, heq⟩ | ⟨-, -, heq⟩
      · rw [hafter, heq] at hdone
        cases hdone
      · rw [hafter, heq] at hreached ⊢
        exact ⟨by rw [hdest]; exact hstored, hreached⟩
      · rw [hafter, heq] at hdone
        cases hdone
    | deliver => exact ⟨hstored, hreached⟩

theorem Delivers.atOnce (h : row.Delivers program c₀ vs m m') :
    row.AtOnce program limits c₀ vs m m' := by
  intro m₁ hm₁
  have hstores : Action.Stores program limits (Action.makeArray program limits
      ⟨.makeArray, row.dest, ⟨.immediate, vs.length⟩, .unused⟩) m₁
      (c₀.plus row.exitAt (#[] ++ vs.toArray)) m.consumers m.world vs.length row.dest _ :=
    makeArray_stores_top (by rwa [Array.empty_append])
  have hreaches := hstores.reaches h.stored
  rwa [Array.empty_append, Context.swap_plus (show vs.length = vs.toArray.size from rfl),
    ← h.reached.active, ← h.reached.consumers] at hreaches

/-! ## Executions that come to their end -/

/-- Every element that an execution comes to gives its value at some time. -/
def ElementsEnd (row : Row) (program : Program) (limits : Limits) (c₀ : Context) (x₀ : Point) :
    Prop :=
  ∀ x, row.Path program limits c₀ x₀ x → x.progress.stage = .element →
    ∃ y, row.Path program limits c₀ x y ∧ x.progress.all.length < y.progress.all.length

/-- No step of an execution finds the stack full. -/
def HasRoom (row : Row) (program : Program) (limits : Limits) (c₀ : Context) (x₀ : Point) :
    Prop :=
  ∀ x fault m', row.Path program limits c₀ x₀ x →
    x.machine.step program limits = .faulted fault m' →
      fault.cause ≠ .stackOverflow limits.maxStack

/-- By induction on what is left: an execution whose elements end, and that finds room on the
stack, comes to its end, or to a destination that does not take the array. -/
theorem Runs.ends (hrow : row.In program nodes)
    (hends : row.ElementsEnd program limits c₀ x) (hroom : row.HasRoom program limits c₀ x)
    (hx : row.Runs program c₀ x.machine x.seat x.progress) :
    ∀ n y, row.left y.progress = n → row.Path program limits c₀ x y →
      ∃ z, row.Path program limits c₀ x z ∧ (z.progress.stage = .done ∨
        z.progress.stage = .deliver ∧
          z.machine.world.put? program c₀ row.dest (.array z.progress.values.toArray) = none) := by
  intro n
  induction n using Nat.strongRecOn with
  | ind n ih =>
    intro y hn hpath
    have hruns := Path.runs hrow hx hpath
    cases hown : y.progress.stage.isOwn with
    | true =>
      cases hp : y.machine.world.put? program c₀ (row.goal y.progress) y.progress.result with
      | none =>
        -- only the last instruction stores anywhere but on the stack
        refine ⟨y, hpath, .inr ?_⟩
        obtain ⟨m, seat, vs, stage⟩ := y
        cases stage with
        | element | done => cases hown
        | gather | join => cases hp
        | deliver => exact ⟨rfl, hp⟩
      | some w' =>
        rcases hruns.shows.runs hrow hown hp with ⟨i, m', hi, hstep⟩ | ⟨fault, m', hstep, hfull⟩
        · obtain ⟨htakes, hruns'⟩ := hruns.act hrow hown hi hstep
          exact ih _ (hn ▸ hruns.shows.fits.left_after hown) _ rfl
            (hpath.tail (.step hi hstep htakes hruns'.shows))
        · exact absurd hfull (hroom y fault m' hpath hstep)
    | false =>
      cases hstage : y.progress.stage with
      | done => exact ⟨y, hpath, .inl hstage⟩
      | element =>
        obtain ⟨z, hyz, hlt⟩ := hends y hpath hstage
        rcases Path.left hrow hruns hyz with heq | hleft
        · rw [heq] at hlt
          exact absurd hlt (Nat.lt_irrefl _)
        · exact ih _ (hn ▸ hleft) z rfl (hpath.trans hyz)
      | gather | join | deliver =>
        rw [hstage] at hown
        cases hown

end Row

end YieldMachine
