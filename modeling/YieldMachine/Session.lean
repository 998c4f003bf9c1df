import YieldMachine.Listing
import YieldMachine.Machine.Step
import YieldMachine.Tree.Json

/-!
# Sessions

A session evaluates statements one after the other: each is compiled onto the end of
the session's program and run from there, so functions and globals of earlier
statements stay usable. Once a statement has left by `exit`, nothing more is
evaluated, and every later statement is nil.

Evaluation takes fuel for the steps of each statement, and gives none when it does
not suffice.
-/

namespace YieldMachine

/-! ## Types -/

/-- A program that grows, and the machine that runs it. -/
structure Session where
  program : Program
  limits : Limits
  machine : Machine
  exitCode : Option Int64

/-- Why a session gives no value. -/
inductive SessionError where
  | compile (e : CompileError)
  | runtime (fault : Fault)
  /-- The text holds no program. -/
  | malformed

/-! ## Wording -/

/-- The message of a session error. -/
def SessionError.message : SessionError → String
  | .compile e => "Compile error: " ++ e.message
  | .runtime fault => "Runtime error: " ++ fault.message
  | .malformed => "Invalid program"

/-! ## Evaluation -/

namespace Session

/-- A session that has evaluated nothing. -/
def fresh (limits : Limits) (console : Console) (journal : Journal) : Session :=
  ⟨.empty, limits, .fresh console journal, none⟩

/-- Compile and run one statement. -/
def eval (fuel : Nat) (s : Session) (node : Node) :
    Option (Except SessionError Value × Session) :=
  match s with
  | ⟨program, limits, machine, some status⟩ =>
    some (.ok .nil, ⟨program, limits, machine, some status⟩)
  | ⟨program, limits, machine, none⟩ =>
    match machine with
    | ⟨active, consumers, globals, heap, console, journal⟩ =>
      match program.compile journal node with
      | ⟨.error e, program, journal⟩ =>
        let machine := ⟨active, consumers, globals, heap, console, journal⟩
        some (.error (.compile e), ⟨program, limits, machine, none⟩)
      | ⟨.ok entry, program, journal⟩ =>
        let journal := journal.record (.evaluating entry program.code.size)
        let machine := ⟨active, consumers, globals, heap, console, journal⟩
        match Machine.runFrom program limits fuel entry machine with
        | none => none
        | some ⟨.ok v, exitCode, machine⟩ => some (.ok v, ⟨program, limits, machine, exitCode⟩)
        | some ⟨.error fault, _, machine⟩ =>
          some (.error (.runtime fault), ⟨program, limits, machine, none⟩)

/-- Evaluate statements in order behind the values of earlier ones, up to the first that
fails or exits. -/
def runFrom (fuel : Nat) (s : Session) (values : Array Value) :
    List Node → Option (Except SessionError (Array Value) × Session)
  | [] => some (.ok values, s)
  | node :: nodes =>
    match s.eval fuel node with
    | none => none
    | some (.error e, s) => some (.error e, s)
    | some (.ok v, s) =>
      if s.exitCode.isSome then some (.ok (values.push v), s)
      else runFrom fuel s (values.push v) nodes

/-- Evaluate statements in order, one value for each that was executed. -/
def run (fuel : Nat) (s : Session) (nodes : List Node) :
    Option (Except SessionError (Array Value) × Session) :=
  s.runFrom fuel #[] nodes

/-- Evaluate a program that is given as a text. -/
def runText (fuel : Nat) (s : Session) (text : String) :
    Option (Except SessionError (Array Value) × Session) :=
  match Node.programOfText? text with
  | none => some (.error .malformed, s)
  | some nodes => s.run fuel nodes

/-- The value of a global. -/
def global (s : Session) (name : String) : Value :=
  s.machine.globals.get name

/-- The listing of everything compiled so far. -/
def listing (s : Session) : String :=
  YieldMachine.listing s.program.code s.program.pool

/-- Take what was written and recorded so far. -/
def take (s : Session) : String × Array Event × Session :=
  match s with
  | ⟨program, limits, ⟨active, consumers, globals, heap, console, journal⟩, exitCode⟩ =>
    let (text, console) := console.take
    let (events, journal) := journal.take
    (text, events,
      ⟨program, limits, ⟨active, consumers, globals, heap, console, journal⟩, exitCode⟩)

end Session

end YieldMachine
