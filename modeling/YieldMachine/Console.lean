import YieldMachine.Text.Lines

/-!
# Consoles

A program reads lines and writes text. The lines come from a list that was cut
beforehand, or from a stream of bytes that is cut line by line as it is read. Both
give the same lines for the same text. A line of the stream that is no UTF-8 is
passed over and reads as nothing.
-/

namespace YieldMachine

/-! ## Types -/

/-- Where input lines come from. -/
inductive Input where
  /-- Lines that were cut beforehand. -/
  | lines (pending : List String)
  /-- Bytes, read line by line. -/
  | stream (rest : List UInt8)
  deriving Repr

/-- A source of lines and the text written so far. -/
structure Console where
  input : Input
  output : String
  deriving Repr

instance : Inhabited Console := ⟨⟨.lines [], ""⟩⟩

/-! ## Reading -/

/-- The bytes up to and with the first line feed, and those behind it; `seen` holds
earlier bytes of the line backwards. -/
def cutLine (seen : List UInt8) : List UInt8 → List UInt8 × List UInt8
  | [] => (seen.reverse, [])
  | b :: bs => if b = 10 then ((b :: seen).reverse, bs) else cutLine (b :: seen) bs

/-- Drop a line feed at the end, and then a carriage return. -/
def dropTerminator (line : List Char) : List Char :=
  match line.reverse with
  | '\n' :: rest => Text.dropReturn rest.reverse
  | _ => line

/-- Read one line of a stream. -/
def readStream (bytes : List UInt8) : Option String × List UInt8 :=
  match bytes with
  | [] => (none, [])
  | _ =>
    let (line, rest) := cutLine [] bytes
    let text := String.fromUTF8? ⟨line.toArray⟩
    (text.map fun s => String.ofList (dropTerminator s.toList), rest)

/-- Read one line. -/
def Input.read : Input → Option String × Input
  | .lines [] => (none, .lines [])
  | .lines (line :: rest) => (some line, .lines rest)
  | .stream bytes =>
    let (line, rest) := readStream bytes
    (line, .stream rest)

/-! ## Consoles -/

namespace Console

/-- A console whose input is the lines of a text. -/
def ofText (text : String) : Console :=
  ⟨.lines (Text.lines text), ""⟩

/-- A console whose input is a stream of bytes. -/
def ofBytes (bytes : List UInt8) : Console :=
  ⟨.stream bytes, ""⟩

/-- Read one line; none at the end of the input. -/
def read (console : Console) : Option String × Console :=
  let (line, input) := console.input.read
  (line, { console with input })

/-- Write a text. -/
def write (console : Console) (text : String) : Console :=
  match console with
  | ⟨input, output⟩ => ⟨input, output ++ text⟩

/-- Take what was written so far. -/
def take (console : Console) : String × Console :=
  (console.output, { console with output := "" })

end Console

end YieldMachine
