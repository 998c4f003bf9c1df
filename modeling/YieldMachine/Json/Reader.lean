import YieldMachine.Json.Number

/-!
# Reading JSON

A text is cut into tokens character by character, and the tokens drive a machine with
a stack of the arrays and objects that are open. Both are folds over their input, so
depth costs no room on the call stack. The grammar is that of RFC 8259: no comments,
no comma before a closing bracket, no control characters in strings, one value and
nothing behind it.
-/

namespace YieldMachine.Json

open Decimal

/-! ## Tokens -/

/-- The tokens of a text. -/
inductive Token where
  | openArray | closeArray | openObject | closeObject | comma | colon
  | atom (j : Json)
  | string (s : String)
  /-- A string with half of a surrogate pair. -/
  | brokenString

/-- A string as far as it was read: its characters backwards, the first half of a
surrogate pair that waits for the second, and whether it is a text so far. -/
structure Draft where
  seen : List Char := []
  high : Option Nat := none
  intact : Bool := true

/-- What is being read. -/
inductive Scan where
  | between
  /-- A number, read so far, backwards. -/
  | number (seen : List Char)
  /-- A word, read so far, backwards. -/
  | word (seen : List Char)
  | string (draft : Draft)
  /-- Behind a backslash. -/
  | escape (draft : Draft)
  /-- Behind `\u`: digits still to come, and their value so far. -/
  | unicode (draft : Draft) (missing : Nat) (code : Nat)

/-- Append a character to a string. -/
def Draft.push (d : Draft) (c : Char) : Draft :=
  ⟨c :: d.seen, none, d.intact && d.high.isNone⟩

/-- Append a 16-bit unit to a string; the two halves of a pair make one character. -/
def Draft.pushUnit (d : Draft) (n : Nat) : Draft :=
  let isHigh := 0xd800 ≤ n && n < 0xdc00
  let isLow := 0xdc00 ≤ n && n < 0xe000
  match d.high with
  | some h =>
    if isLow then
      ⟨Char.ofNat (0x10000 + (h - 0xd800) * 0x400 + (n - 0xdc00)) :: d.seen, none, d.intact⟩
    else ⟨d.seen, none, false⟩
  | none =>
    if isHigh then ⟨d.seen, some n, d.intact⟩
    else if isLow then ⟨d.seen, none, false⟩
    else ⟨Char.ofNat n :: d.seen, none, d.intact⟩

/-- The token of a string that was closed. -/
def Draft.token (d : Draft) : Token :=
  if d.intact && d.high.isNone then .string (String.ofList d.seen.reverse) else .brokenString

/-- The character that a short escape stands for. -/
def shortEscape? (c : Char) : Option Char :=
  match c with
  | '"' => some '"'
  | '\\' => some '\\'
  | '/' => some '/'
  | 'b' => some '\x08'
  | 'f' => some '\x0c'
  | 'n' => some '\n'
  | 'r' => some '\r'
  | 't' => some '\t'
  | _ => none

/-- The value of a hexadecimal digit. -/
def hexDigit? (c : Char) : Option Nat :=
  if '0' ≤ c ∧ c ≤ '9' then some (c.toNat - 48)
  else if 'a' ≤ c ∧ c ≤ 'f' then some (c.toNat - 87)
  else if 'A' ≤ c ∧ c ≤ 'F' then some (c.toNat - 55)
  else none

/-- Can the character stand in a number? -/
def inNumber (c : Char) : Bool :=
  isDigit c || c == '-' || c == '+' || c == '.' || c == 'e' || c == 'E'

/-- The token of a number that was read to its end. -/
def numberToken? (seen : List Char) : Option Token :=
  let cs := seen.reverse
  (Lexeme.of? cs).map fun _ => .atom (.number (String.ofList cs))

/-- The token of a word that was read to its end. -/
def wordToken? (seen : List Char) : Option Token :=
  let word := String.ofList seen.reverse
  if word = "null" then some (.atom .null)
  else if word = "true" then some (.atom (.bool true))
  else if word = "false" then some (.atom (.bool false))
  else none

/-- A character between tokens. -/
def scanBetween (tokens : List Token) (c : Char) : Option (List Token × Scan) :=
  match c with
  | ' ' | '\n' | '\r' | '\t' => some (tokens, .between)
  | '[' => some (.openArray :: tokens, .between)
  | ']' => some (.closeArray :: tokens, .between)
  | '\x7b' => some (.openObject :: tokens, .between)
  | '\x7d' => some (.closeObject :: tokens, .between)
  | ',' => some (.comma :: tokens, .between)
  | ':' => some (.colon :: tokens, .between)
  | '"' => some (tokens, .string {})
  | c =>
    if c == '-' || isDigit c then some (tokens, .number [c])
    else if c.isLower then some (tokens, .word [c])
    else none

/-- One character further; the tokens are kept backwards. -/
def scanChar (state : List Token × Scan) (c : Char) : Option (List Token × Scan) :=
  match state with
  | (tokens, .between) => scanBetween tokens c
  | (tokens, .number seen) =>
    if inNumber c then some (tokens, .number (c :: seen))
    else (numberToken? seen).bind fun t => scanBetween (t :: tokens) c
  | (tokens, .word seen) =>
    if c.isLower then some (tokens, .word (c :: seen))
    else (wordToken? seen).bind fun t => scanBetween (t :: tokens) c
  | (tokens, .string draft) =>
    if c = '"' then some (draft.token :: tokens, .between)
    else if c = '\\' then some (tokens, .escape draft)
    else if c.toNat < 0x20 then none
    else some (tokens, .string (draft.push c))
  | (tokens, .escape draft) =>
    if c = 'u' then some (tokens, .unicode draft 3 0)
    else (shortEscape? c).map fun c => (tokens, .string (draft.push c))
  | (tokens, .unicode draft missing code) =>
    (hexDigit? c).map fun d =>
      let code := code * 16 + d
      match missing with
      | 0 => (tokens, .string (draft.pushUnit code))
      | missing + 1 => (tokens, .unicode draft missing code)

/-- Finish what was being read at the end of the text. -/
def scanEnd : List Token × Scan → Option (List Token)
  | (tokens, .between) => some tokens
  | (tokens, .number seen) => (numberToken? seen).map (· :: tokens)
  | (tokens, .word seen) => (wordToken? seen).map (· :: tokens)
  | _ => none

/-- The tokens of a text. -/
def tokens? (s : String) : Option (List Token) :=
  ((s.toList.foldlM scanChar ([], .between)).bind scanEnd).map List.reverse

/-! ## Values -/

/-- An array or object that is open, its contents backwards. -/
inductive Open where
  | array (items : List Json)
  | object (fields : List (String × Json)) (intact : Bool) (key : String)

/-- What may come next. -/
inductive Next where
  /-- A value, or the end of an array just opened. -/
  | value (closable : Bool)
  /-- A key, or the end of an object just opened. -/
  | key (closable : Bool)
  | colon
  /-- A comma or a closing bracket. -/
  | more
  | done (j : Json)

/-- Put a finished value where it belongs. -/
def deliver (stack : List Open) (j : Json) : List Open × Next :=
  match stack with
  | [] => ([], .done j)
  | .array items :: rest => (.array (j :: items) :: rest, .more)
  | .object fields intact key :: rest => (.object ((key, j) :: fields) intact key :: rest, .more)

/-- Close the innermost array or object. -/
def closeArray? (stack : List Open) : Option (List Open × Next) :=
  match stack with
  | .array items :: rest => some (deliver rest (.array items.reverse))
  | _ => none

/-- Close the innermost object; one with a broken key is broken. -/
def closeObject? (stack : List Open) : Option (List Open × Next) :=
  match stack with
  | .object fields intact _ :: rest =>
    some (deliver rest (if intact then .object fields.reverse else .broken))
  | _ => none

/-- Note the key of the next field. -/
def setKey (stack : List Open) (key : Option String) : List Open :=
  match stack with
  | .object fields intact _ :: rest =>
    .object fields (intact && key.isSome) (key.getD "") :: rest
  | _ => stack

/-- One token further. -/
def parseToken (state : List Open × Next) (t : Token) : Option (List Open × Next) :=
  match state, t with
  | (stack, .value _), .atom j => some (deliver stack j)
  | (stack, .value _), .string s => some (deliver stack (.string s))
  | (stack, .value _), .brokenString => some (deliver stack .broken)
  | (stack, .value _), .openArray => some (.array [] :: stack, .value true)
  | (stack, .value _), .openObject => some (.object [] true "" :: stack, .key true)
  | (stack, .value true), .closeArray => closeArray? stack
  | (stack, .key _), .string s => some (setKey stack (some s), .colon)
  | (stack, .key _), .brokenString => some (setKey stack none, .colon)
  | (stack, .key true), .closeObject => closeObject? stack
  | (stack, .colon), .colon => some (stack, .value false)
  | (.array items :: rest, .more), .comma => some (.array items :: rest, .value false)
  | (.object fields intact key :: rest, .more), .comma =>
    some (.object fields intact key :: rest, .key false)
  | (stack, .more), .closeArray => closeArray? stack
  | (stack, .more), .closeObject => closeObject? stack
  | _, _ => none

/-- The value of a list of tokens. -/
def ofTokens? (ts : List Token) : Option Json :=
  match ts.foldlM parseToken ([], .value false) with
  | some (_, .done j) => some j
  | _ => none

/-- The value that a text holds. -/
def parse? (s : String) : Option Json :=
  (tokens? s).bind ofTokens?

end YieldMachine.Json
