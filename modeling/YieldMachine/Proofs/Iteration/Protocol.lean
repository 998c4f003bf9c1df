import Mathlib.Logic.Relation
import YieldMachine.Proofs.Flow.Loop
import YieldMachine.Proofs.Machine.Exact
import YieldMachine.Proofs.Run.Floor

/-!
# The protocol of a loop

An execution of a for loop goes on in rounds. In each round the producers are advanced one
after another: the first round spawns them, later rounds let them go on where they last
yielded. What a producer hands over is stored before the next one is advanced. Behind a
complete round the body runs. The first producer that comes to its end ends the loop.

`Progress` says how far an execution has come, `Takes` which steps there are, and
`context` how the context that executes the loop looks at each of them.

    advance k → await k → store k → advance (k + 1) → … → pass → body → advance 0 → …
                    ↓
                  leave
-/

namespace YieldMachine

/-! ## Definitions -/

namespace Loop

/-- What an execution of a loop does next. -/
inductive Stage where
  /-- The next producer starts or goes on. -/
  | advance
  /-- The next producer runs, and the loop waits for it. -/
  | await
  /-- The next producer has handed over a value that is to be stored. -/
  | store (v : Value)
  /-- A round that is not the first is complete, and the loop jumps back to its pass. -/
  | again
  /-- A round is complete, and the value of the loop so far is dropped. -/
  | pass
  /-- The body runs. -/
  | body
  /-- A producer was dropped, and the loop is closed. -/
  | leave

/-- How far an execution of a loop has come: how often the body has run and the value of its
last run, which producer is next, the values that were handed over in this round, and the
producers behind their last yields. -/
structure Progress where
  round : Nat
  next : Nat
  value : Value
  values : List Value
  parked : List Context
  stage : Stage

/-- The execution when the group of the loop has been opened. -/
def Progress.start : Progress :=
  ⟨0, 0, .nil, [], [], .advance⟩

/-- What is in the group of the loop. The slot of the producer that runs is empty, and so is
that of one that was dropped. -/
def Progress.slots (p : Progress) : Group :=
  match p.stage with
  | .await | .leave =>
    ((p.parked.take p.next).map some ++ none :: (p.parked.drop (p.next + 1)).map some).toArray
  | _ => (p.parked.map some).toArray

/-- What an execution has put on the stack. -/
def Progress.stack (p : Progress) (stack : Array Value) : Array Value :=
  match p.stage with
  | .store v => (stack.push p.value).push v
  | .body => stack
  | _ => stack.push p.value

/-- What the body runs on. -/
def Progress.floor (p : Progress) (c : Context) : Floor :=
  ⟨c.calls.toList, c.stack.toList, c.frames, (c.loops.push p.slots).toList⟩

/-- The counts of an execution of a loop with `count` producers fit together. -/
def Progress.Fits (count : Nat) (p : Progress) : Prop :=
  match p.stage with
  | .advance | .await | .leave => p.next < count ∧ p.values.length = p.next ∧
      p.parked.length = if p.round = 0 then p.next else count
  | .store v => p.next < count ∧ p.values.length = p.next + 1 ∧ p.values[p.next]? = some v ∧
      p.parked.length = if p.round = 0 then p.next + 1 else count
  | .again => p.round ≠ 0 ∧ p.next = count ∧ p.values.length = count ∧ p.parked.length = count
  | .pass | .body => p.next = count ∧ p.values.length = count ∧ p.parked.length = count

variable (l : Loop)

/-- The place that an execution has come to. In the body this is where it starts. -/
def place (p : Progress) : Nat :=
  match p.stage with
  | .advance => if p.round = 0 then l.spawnAt p.next else l.resumeAt p.next
  | .await | .store _ => if p.round = 0 then l.takeAt p.next else l.retakeAt p.next
  | .again => l.resumeAt l.count
  | .pass => l.passAt
  | .body => l.bodyAt
  | .leave => l.exitAt

/-- What the context of the loop waits for. -/
def pending (p : Progress) : Option Pending :=
  match p.stage with
  | .await => some ⟨p.next, l.exitAt⟩
  | _ => none

/-- The context that executes the loop, which was `c` when the loop began. -/
def context (c : Context) (p : Progress) : Context :=
  ⟨l.place p, p.stack c.stack, c.frames, c.calls, c.loops.push p.slots, l.pending p⟩

/-- What comes behind the store of the value of producer `k`. -/
def afterStore (round k : Nat) : Stage :=
  if k + 1 < l.count then .advance else if round = 0 then .pass else .again

/-- What the variable of producer `k` holds for the activation that runs the loop. -/
def reads? (program : Program) (c₀ : Context) (m : Machine) (k : Nat) : Option Value :=
  l.targets[k]?.bind fun target => m.world.look program c₀ target

/-- What a step does for an execution of a loop that began in the context `c₀`, and whose
context is in a seat. -/
inductive Takes (program : Program) (c₀ : Context) (i : Instruction) (m m' : Machine)
    (seat : Seat) : Progress → Progress → Prop
  /-- In the first round a producer is spawned. -/
  | spawn {k : Nat} {v : Value} {vs : List Value} {ps : List Context} (opcode : i.opcode = .spawn)
      (active : m'.active = .start (l.spawnAt k + 1) m.active.frames.addressable) :
      Takes program c₀ i m m' seat ⟨0, k, v, vs, ps, .advance⟩ ⟨0, k, v, vs, ps, .await⟩
  /-- In a later round a producer goes on as it was behind its last yield. -/
  | resume {r k : Nat} {v : Value} {vs : List Value} {ps : List Context} {producer : Context}
      (opcode : i.opcode = .resume) (parked : ps[k]? = some producer)
      (active : m'.active = producer) :
      Takes program c₀ i m m' seat ⟨r + 1, k, v, vs, ps, .advance⟩ ⟨r + 1, k, v, vs, ps, .await⟩
  /-- The producer runs, or one that it waits for. -/
  | wait {r k : Nat} {v : Value} {vs : List Value} {ps : List Context}
      (stays : m.reseat i ⟨seat.level + 1, []⟩ = ⟨seat.level + 1, []⟩) :
      Takes program c₀ i m m' seat ⟨r, k, v, vs, ps, .await⟩ ⟨r, k, v, vs, ps, .await⟩
  /-- The producer yields, and is parked behind its yield. -/
  | hand {r k : Nat} {v w : Value} {vs : List Value} {ps : List Context}
      (front : m.front = ⟨seat.level + 1, []⟩) (opcode : i.opcode = .yield)
      (value : m.value? program i.b = some w) :
      Takes program c₀ i m m' seat ⟨r, k, v, vs, ps, .await⟩ ⟨r, k, v, vs ++ [w], ps.take k ++
        ((m.active.moved (m.active.ip + 1)).swap i.b.cells #[]).awake :: ps.drop (k + 1), .store w⟩
  /-- The producer has come to the end of its iterator. -/
  | drop {r k : Nat} {v : Value} {vs : List Value} {ps : List Context}
      (front : m.front = ⟨seat.level + 1, []⟩) (opcode : i.opcode = .endIter) :
      Takes program c₀ i m m' seat ⟨r, k, v, vs, ps, .await⟩ ⟨r, k, v, vs, ps, .leave⟩
  /-- The value is stored in the variable of the producer. -/
  | store {r k : Nat} {v w : Value} {vs : List Value} {ps : List Context} {target : Operand}
      (instruction : i = ⟨.move, target, .stack, .unused⟩) (ref : l.targets[k]? = some target)
      (stored : l.reads? program c₀ m' k = some w) :
      Takes program c₀ i m m' seat ⟨r, k, v, vs, ps, .store w⟩
        ⟨r, k + 1, v, vs, ps, l.afterStore r k⟩
  | again {r k : Nat} {v : Value} {vs : List Value} {ps : List Context} (opcode : i.opcode = .jump) :
      Takes program c₀ i m m' seat ⟨r, k, v, vs, ps, .again⟩ ⟨r, k, v, vs, ps, .pass⟩
  | pass {r k : Nat} {v : Value} {vs : List Value} {ps : List Context} (opcode : i.opcode = .pop) :
      Takes program c₀ i m m' seat ⟨r, k, v, vs, ps, .pass⟩ ⟨r, k, v, vs, ps, .body⟩
  /-- The body runs, or something else. -/
  | within {r k : Nat} {v : Value} {vs : List Value} {ps : List Context} :
      Takes program c₀ i m m' seat ⟨r, k, v, vs, ps, .body⟩ ⟨r, k, v, vs, ps, .body⟩
  /-- The body has come to its end. -/
  | finish {r k : Nat} {v w : Value} {vs : List Value} {ps : List Context} :
      Takes program c₀ i m m' seat ⟨r, k, v, vs, ps, .body⟩ ⟨r + 1, 0, w, [], ps, .advance⟩

/-- The context in a seat is as the progress of the loop says. While the body runs, the
producers of the loop stay parked below it. -/
structure Shows (c₀ : Context) (p : Progress) (m : Machine) (seat : Seat) : Prop where
  fits : p.Fits l.count
  state : match p.stage with
    | .await => seat.path = [] ∧ m.consumers[seat.level]? = some (l.context c₀ p)
    | .body => ∃ c, m.seat? seat = some c ∧ c.RestsOn (p.floor c₀) ∧
        (c.calls.size = c₀.calls.size → l.bodyAt ≤ c.ip ∧ c.ip < l.resumeAt 0)
    | _ => seat = m.front ∧ m.active = l.context c₀ p

/-- A machine, the seat of the context that executes the loop, and how far that has come. -/
structure Point where
  machine : Machine
  seat : Seat
  progress : Progress

/-- One step of a run that executes a loop. -/
inductive Steps (program : Program) (limits : Limits) (c₀ : Context) : Point → Point → Prop
  | step {m m' : Machine} {seat : Seat} {p p' : Progress} {i : Instruction}
      (instruction : program.instruction? m.active.ip = some i)
      (step : m.step program limits = .running m')
      (takes : l.Takes program c₀ i m m' seat p p') (shows : l.Shows c₀ p' m' (m.reseat i seat)) :
      Steps program limits c₀ ⟨m, seat, p⟩ ⟨m', m.reseat i seat, p'⟩

/-- Steps of a run that executes a loop. -/
abbrev Path (program : Program) (limits : Limits) (c₀ : Context) : Point → Point → Prop :=
  Relation.ReflTransGen (l.Steps program limits c₀)

/-- The value that producer `k` handed over in this round was in its variable when it was
stored, and is there still, unless some step since then has put another one there. -/
def Received (program : Program) (limits : Limits) (c₀ : Context) (x y : Point) (k : Nat)
    (w : Value) : Prop :=
  ∃ z, l.Path program limits c₀ x z ∧ l.Path program limits c₀ z y ∧
    z.progress.round = y.progress.round ∧ z.progress.next = k + 1 ∧
    l.reads? program c₀ z.machine k = some w ∧
    (l.reads? program c₀ y.machine k = some w ∨ ∃ a b, l.Path program limits c₀ z a ∧
      l.Steps program limits c₀ a b ∧ l.Path program limits c₀ b y ∧
      l.reads? program c₀ a.machine k = some w ∧ l.reads? program c₀ b.machine k ≠ some w)

/-- The activation of a context is still there, and so is a loop that began in the context. -/
def open? (c₀ c : Context) : Bool :=
  c₀.calls.size < c.calls.size ∨ (c.calls.size = c₀.calls.size ∧ c₀.loops.size < c.loops.size)

/-! ## Values that were handed over -/

section

variable {l} {program : Program} {limits : Limits} {c₀ : Context} {x y z : Point} {k : Nat}
  {w : Value}

theorem Received.step (h : l.Received program limits c₀ x y k w)
    (hs : l.Steps program limits c₀ y z) (hr : z.progress.round = y.progress.round) :
    l.Received program limits c₀ x z k w := by
  obtain ⟨z₀, hbefore, hafter, hround, hnext, hread, hstill⟩ := h
  refine ⟨z₀, hbefore, hafter.tail hs, hround.trans hr.symm, hnext, hread, ?_⟩
  rcases hstill with hstill | ⟨a, b, ha, hab, hb, hra, hrb⟩
  · by_cases hz : l.reads? program c₀ z.machine k = some w
    · exact .inl hz
    · exact .inr ⟨y, z, hafter, hs, .refl, hstill, hz⟩
  · exact .inr ⟨a, b, ha, hab, hb.tail hs, hra, hrb⟩

theorem Path.fits (h : l.Path program limits c₀ x y) (hx : x.progress.Fits l.count) :
    y.progress.Fits l.count := by
  cases h with
  | refl => exact hx
  | tail _ hs =>
    cases hs with
    | step _ _ _ hshows => exact hshows.fits

/-- By induction on the steps: the values of this round that have been stored were received
in their variables. -/
theorem Path.received (h : l.Path program limits c₀ x y) (hx : x.progress.Fits l.count)
    (hnext : x.progress.next = 0) : ∀ k w, k < y.progress.next →
      y.progress.values[k]? = some w → l.Received program limits c₀ x y k w := by
  induction h with
  | refl =>
    intro k w hk
    omega
  | @tail y z hpath hs ih =>
    have hstep := hs
    obtain @⟨m, m', seat, p, p', i, hi, hrun, htakes, hshows⟩ := hs
    have hfits := Path.fits hpath hx
    cases htakes with
    | @hand r n v w' vs ps hfront hop hval =>
      intro k w hk hw
      have hlen := hfits.2.1
      rw [List.getElem?_append_left (hlen ▸ hk)] at hw
      exact (ih k w hk hw).step hstep rfl
    | @store r n v w' vs ps target hins href hstored =>
      intro k w hk hw
      rcases Nat.lt_or_eq_of_le (Nat.le_of_lt_succ hk) with hlt | rfl
      · exact (ih k w hlt hw).step hstep rfl
      · -- the value that this step stores
        cases hw.symm.trans hfits.2.2.1
        exact ⟨_, hpath.tail hstep, .refl, rfl, rfl, hstored, .inl hstored⟩
    | finish =>
      intro k w hk
      exact absurd hk (Nat.not_lt_zero _)
    | _ => exact fun k w hk hw => (ih k w hk hw).step hstep rfl

end

end Loop

end YieldMachine
