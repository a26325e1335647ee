import Attest.Document
import Attest.Nesting
import Attest.Number.Numeral

/-! Reading documents from JSON text. `NaN` and the infinities are numbers too, the last of several
members of one name counts, and a fault says what was expected where. A text that is nested too deep
is not at fault: it is the reading that breaks down. -/

namespace Attest.Json

/-- What is wrong with a text. -/
inductive Cause where
  | value
  | name
  | colon
  | comma
  | extra
  | unterminated
  | control
  | escape
  | unicodeEscape
  | byteOrderMark
  | longNumber (digits : Nat)
  /-- There is no room for one more list or object. -/
  | nesting (activity : String)
  deriving DecidableEq, Repr

/-- A cause and how much of the text was left where it arose. -/
structure Fault where
  cause : Cause
  left : Nat
  deriving DecidableEq, Repr

def Cause.text : Cause → String
  | value => "Expecting value"
  | name => "Expecting property name enclosed in double quotes"
  | colon => "Expecting ':' delimiter"
  | comma => "Expecting ',' delimiter"
  | extra => "Extra data"
  | unterminated => "Unterminated string starting at"
  | control => "Invalid control character at"
  | escape => "Invalid \\escape"
  | unicodeEscape => "Invalid \\uXXXX escape"
  | byteOrderMark => "Unexpected UTF-8 BOM (decode using utf-8-sig)"
  | longNumber digits => (Numeral.Fault.tooLong digits).message
  | nesting activity => activity

/-- The fault with its line, column and place in the text that was read. -/
def Fault.message (f : Fault) (s : String) : String :=
  match f.cause with
  | .longNumber _ => f.cause.text
  | _ =>
      let place := s.length - f.left
      let before := s.toList.take place
      let line := before.count '\n' + 1
      let column := (before.reverse.takeWhile (· ≠ '\n')).length + 1
      s!"{f.cause.text}: line {line} column {column} (char {place})"

def isSpace (c : Char) : Bool :=
  c == ' ' || c == '\t' || c == '\n' || c == '\r'

def skip (cs : List Char) : List Char := cs.dropWhile isSpace

/-! ### Texts -/

def escapeLetter? : Char → Option Char
  | '"' => some '"'
  | '\\' => some '\\'
  | '/' => some '/'
  | 'b' => some '\x08'
  | 'f' => some '\x0c'
  | 'n' => some '\n'
  | 'r' => some '\r'
  | 't' => some '\t'
  | _ => none

/-- The code unit that four hexadecimal digits spell. -/
def unit? (a b c d : Char) : Option Nat := do
  let a ← Numeral.digitValue? 16 a
  let b ← Numeral.digitValue? 16 b
  let c ← Numeral.digitValue? 16 c
  let d ← Numeral.digitValue? 16 d
  some (((a * 16 + b) * 16 + c) * 16 + d)

def isHigh (u : Nat) : Bool := 0xd800 ≤ u && u < 0xdc00

def isLow (u : Nat) : Bool := 0xdc00 ≤ u && u < 0xe000

/-- A character of a text as it is written: itself, or a code unit by number. -/
inductive Piece where
  | char (c : Char)
  | unit (u : Nat)

/-- Half of a surrogate pair alone is no character and reads as the replacement character. So names that
differ only in such halves are one name here. -/
def charOfUnit (u : Nat) : Char :=
  if isHigh u || isLow u then '\ufffd' else Char.ofNat u

def charOfPair (high low : Nat) : Char :=
  Char.ofNat (0x10000 + (high - 0xd800) * 0x400 + (low - 0xdc00))

/-- The characters that pieces spell: a high unit and the low one after it make one. -/
def spell : List Piece → List Char
  | [] => []
  | .unit u :: .unit v :: rest =>
      if isHigh u && isLow v then charOfPair u v :: spell rest
      else charOfUnit u :: spell (.unit v :: rest)
  | .unit u :: rest => charOfUnit u :: spell rest
  | .char c :: rest => c :: spell rest

/-- What was read and the rest of the text. -/
abbrev Parsed (α : Type) := α × List Char

def prepend (p : Piece) (r : Except Fault (Parsed (List Piece))) : Except Fault (Parsed (List Piece)) :=
  r.map fun (ps, rest) => (p :: ps, rest)

/-- The pieces up to the closing quote. `opening` is what was left at the opening one. -/
def piecesFrom (opening : Nat) : List Char → Except Fault (Parsed (List Piece))
  | [] => .error ⟨.unterminated, opening⟩
  | '"' :: rest => .ok ([], rest)
  | '\\' :: [] => .error ⟨.unterminated, opening⟩
  | '\\' :: 'u' :: a :: b :: c :: d :: rest =>
      match unit? a b c d, rest.isEmpty with
      | some u, false => prepend (.unit u) (piecesFrom opening rest)
      | _, _ => .error ⟨.unicodeEscape, rest.length + 5⟩
  | '\\' :: c :: rest =>
      if c = 'u' then .error ⟨.unicodeEscape, rest.length + 1⟩
      else
        match escapeLetter? c with
        | none => .error ⟨.escape, rest.length + 2⟩
        | some x => prepend (.char x) (piecesFrom opening rest)
  | c :: rest =>
      if c.toNat < 0x20 then .error ⟨.control, rest.length + 1⟩
      else prepend (.char c) (piecesFrom opening rest)

/-- The text up to the closing quote. -/
def textFrom (opening : Nat) (cs : List Char) : Except Fault (Parsed String) :=
  (piecesFrom opening cs).map fun (ps, rest) => (String.ofList (spell ps), rest)

/-! ### Numbers -/

/-- The digits of a fraction, if a point and a digit come next. -/
def fraction (cs : List Char) : List Char × List Char :=
  match cs with
  | '.' :: rest =>
      let ds := rest.takeWhile Char.isDigit
      if ds.isEmpty then ([], cs) else (ds, rest.dropWhile Char.isDigit)
  | _ => ([], cs)

/-- The exponent, if a complete one comes next. -/
def exponent (cs : List Char) : Option Int × List Char :=
  match cs with
  | c :: rest =>
      if c = 'e' ∨ c = 'E' then
        let (negative, body) := Numeral.splitSign rest
        let ds := body.takeWhile Char.isDigit
        if ds.isEmpty then (none, cs)
        else
          let n : Int := Numeral.naturalOf ds
          (some (if negative then -n else n), body.dropWhile Char.isDigit)
      else (none, cs)
  | [] => (none, cs)

/-- The digits before any point: a lone zero, or digits that start with none. -/
def wholeDigits : List Char → List Char × List Char
  | '0' :: rest => (['0'], rest)
  | cs => (cs.takeWhile Char.isDigit, cs.dropWhile Char.isDigit)

/-- The number that digits, a fraction and an exponent spell; without the last two an integer. -/
def numberOf (negative : Bool) (whole fraction : List Char) (exponent : Option Int) :
    Except Cause Document :=
  if fraction.isEmpty && exponent.isNone then
    if Numeral.digitLimit < whole.length then .error (.longNumber whole.length)
    else
      let n : Int := Numeral.naturalOf whole
      .ok (.int (if negative then -n else n))
  else
    .ok (.float (.ofDecimal negative (Numeral.naturalOf (whole ++ fraction))
      (exponent.getD 0 - fraction.length)))

def number (cs : List Char) : Except Fault (Parsed Document) :=
  let (negative, body) := match cs with
    | '-' :: rest => (true, rest)
    | _ => (false, cs)
  let (whole, rest) := wholeDigits body
  if whole.isEmpty then .error ⟨.value, cs.length⟩
  else
    let (frac, rest) := fraction rest
    let (exp, rest) := exponent rest
    match numberOf negative whole frac exp with
    | .error cause => .error ⟨cause, cs.length⟩
    | .ok d => .ok (d, rest)

/-! ### Values -/

/-- Words that stand for values. -/
def words : List (String × Document) :=
  [("null", .null), ("true", .bool true), ("false", .bool false), ("NaN", .float .undefined),
    ("Infinity", .float (.infinite false)), ("-Infinity", .float (.infinite true))]

def dropWord? (word : List Char) : List Char → Option (List Char)
  | cs => if word.isPrefixOf cs then some (cs.drop word.length) else none

/-- A word or a number. -/
def scalar (cs : List Char) : Except Fault (Parsed Document) :=
  match words.findSome? fun (word, d) => (dropWord? word.toList cs).map (d, ·) with
  | some r => .ok r
  | none => number cs

/-- The room that a list or an object takes. -/
def levelCost : Nat := 1

/-- The room inside one more list or object. -/
def enter (room : Nat) (activity : String) (cs : List Char) : Except Fault Nat :=
  (Nesting.enter levelCost room activity).mapError fun _ => ⟨.nesting activity, cs.length⟩

def listActivity : String := "decoding a JSON array from a unicode string"

def objectActivity : String := "decoding a JSON object from a unicode string"

mutual
/-- One value, with `room` for lists and objects. `fuel` bounds the number of items. -/
def value : (fuel room : Nat) → List Char → Except Fault (Parsed Document)
  | 0, _, cs => .error ⟨.value, cs.length⟩
  | fuel + 1, room, cs =>
      match cs with
      | '"' :: rest => (textFrom cs.length rest).map fun (s, rest) => (.text s, rest)
      | '[' :: rest => do
          let room ← enter room listActivity cs
          match skip rest with
          | ']' :: rest => .ok (.list [], rest)
          | rest => (items fuel room rest).map fun (xs, rest) => (.list xs, rest)
      | '\x7b' :: rest => do
          let room ← enter room objectActivity cs
          match skip rest with
          | '\x7d' :: rest => .ok (.object [], rest)
          | rest => (members fuel room rest).map fun (ms, rest) => (.object (Members.ofPairs ms), rest)
      | _ => scalar cs

/-- Values up to the closing bracket. -/
def items : (fuel room : Nat) → List Char → Except Fault (Parsed (List Document))
  | 0, _, cs => .error ⟨.value, cs.length⟩
  | fuel + 1, room, cs => do
      let (x, rest) ← value fuel room cs
      match skip rest with
      | ']' :: rest => .ok ([x], rest)
      | ',' :: rest => do
          let (xs, rest) ← items fuel room (skip rest)
          .ok (x :: xs, rest)
      | rest => .error ⟨.comma, rest.length⟩

/-- Named values up to the closing brace. -/
def members : (fuel room : Nat) → List Char → Except Fault (Parsed (List (String × Document)))
  | 0, _, cs => .error ⟨.value, cs.length⟩
  | fuel + 1, room, cs =>
      match cs with
      | '"' :: rest => do
          let (name, rest) ← textFrom cs.length rest
          match skip rest with
          | ':' :: rest => do
              let (v, rest) ← value fuel room (skip rest)
              match skip rest with
              | '\x7d' :: rest => .ok ([(name, v)], rest)
              | ',' :: rest => do
                  let (ms, rest) ← members fuel room (skip rest)
                  .ok ((name, v) :: ms, rest)
              | rest => .error ⟨.comma, rest.length⟩
          | rest => .error ⟨.colon, rest.length⟩
      | _ => .error ⟨.name, cs.length⟩
end

/-- One document, with `room` for lists and objects, with blanks around it and nothing else. -/
def readChars (room : Nat) (cs : List Char) : Except Fault Document :=
  match cs with
  | '\ufeff' :: _ => .error ⟨.byteOrderMark, cs.length⟩
  | _ => do
      let (d, rest) ← value (2 * cs.length + 2) room (skip cs)
      match skip rest with
      | [] => .ok d
      | rest => .error ⟨.extra, rest.length⟩

/-- The document that a text spells, or what is wrong with the text. -/
def read (s : String) : Except Defect (Except Fault Document) :=
  match readChars Nesting.room s.toList with
  | .ok d => .ok (.ok d)
  | .error f =>
      match f.cause with
      | .nesting activity => .error (.tooDeep activity)
      | _ => .ok (.error f)

/-- The document that a text spells, if it is well formed. -/
def read? (s : String) : Except Defect (Option Document) := return (← read s).toOption

example : (unit? '0' '0' 'e' '9').map charOfUnit = some 'é' ∧ charOfPair 0xd83d 0xde00 = '😀' := by
  decide

end Attest.Json
