import Attest.Text.Printable

/-! Texts between quotes, as messages show them. -/

namespace Attest.Text

/-- `count` hexadecimal digits. -/
def hexDigits (count n : Nat) : String :=
  let ds := Nat.toDigits 16 n
  String.ofList (List.replicate (count - ds.length) '0' ++ ds)

/-- The shortest of the three escapes by number that a code point fits. -/
def escapeCode (n : Nat) : String :=
  if n < 0x100 then "\\x" ++ hexDigits 2 n
  else if n < 0x10000 then "\\u" ++ hexDigits 4 n
  else "\\U" ++ hexDigits 8 n

/-- Escapes that have a letter; the backslash and the enclosing quote get a backslash. -/
def escapeMark (quote c : Char) : Option String :=
  if c = quote ∨ c = '\\' then some (String.ofList ['\\', c])
  else if c = '\n' then some "\\n"
  else if c = '\r' then some "\\r"
  else if c = '\t' then some "\\t"
  else none

def escapeChar (quote c : Char) : String :=
  (escapeMark quote c).getD (if isPrintable c then c.toString else escapeCode c.toNat)

/-- Single quotes, unless the text has one and no double quote. -/
def chooseQuote (cs : List Char) : Char :=
  if cs.contains '\'' && !cs.contains '"' then '"' else '\''

def quoted (s : String) : String :=
  let cs := s.toList
  let q := chooseQuote cs
  String.ofList [q] ++ String.join (cs.map (escapeChar q)) ++ String.ofList [q]

/-- A byte string in quotes: printable ASCII as it is, other bytes by number. -/
def quotedBytes (bs : List UInt8) : String :=
  let cs := bs.map fun b => Char.ofNat b.toNat
  let q := chooseQuote cs
  let escape (c : Char) : String :=
    (escapeMark q c).getD
      (if 0x20 ≤ c.toNat && c.toNat < 0x7f then c.toString else escapeCode c.toNat)
  "b" ++ String.ofList [q] ++ String.join (cs.map escape) ++ String.ofList [q]

example : quoted "it's" = "\"it's\"" ∧ quoted "a\n'\"" = "'a\\n\\'\"'" := by decide +kernel

example : quoted "\u00a0é" = "'\\xa0é'" ∧ quotedBytes [0, 65] = "b'\\x00A'" := by decide +kernel

end Attest.Text
