import YieldMachine.Text.Hidden

/-!
# Quoted texts

`quote s` writes a text between double quotes on one line: a backslash goes
before a quote and a backslash, `\n`, `\r`, `\t` and `\0` have short forms, and
any other hidden character is written by its code point in hexadecimal.
-/

namespace YieldMachine.Text

/-! ## Algorithm -/

/-- Lower-case hexadecimal digits of a number, at least one. -/
def hexDigits (n : Nat) : List Char :=
  Nat.toDigits 16 n

/-- Lower-case hexadecimal digits of a number, with zeros in front up to `width`. -/
def hexPadded (width n : Nat) : String :=
  let digits := hexDigits n
  String.ofList (List.replicate (width - digits.length) '0' ++ digits)

/-- How one character is written inside a quoted text. -/
def quoteChar (c : Char) : List Char :=
  if c = '\\' then ['\\', '\\']
  else if c = '"' then ['\\', '"']
  else if c = '\n' then ['\\', 'n']
  else if c = '\r' then ['\\', 'r']
  else if c = '\t' then ['\\', 't']
  else if c = '\x00' then ['\\', '0']
  else if isHidden c then ['\\', 'u', '\x7b'] ++ hexDigits c.toNat ++ ['\x7d']
  else [c]

/-- A text between double quotes, with nothing in it that breaks the line. -/
def quote (s : String) : String :=
  String.ofList ('"' :: (s.toList.flatMap quoteChar ++ ['"']))

end YieldMachine.Text
