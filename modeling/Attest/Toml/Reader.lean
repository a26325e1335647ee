import Attest.Nesting
import Attest.Number.Numeral
import Attest.Toml.Table

/-! Reading a configuration: headers, dotted keys, and values of every kind but dates. Whatever is
not well formed is refused without a reason; at integers that are too long and values that are nested
too deep the reading itself breaks down. -/

namespace Attest.Toml

/-- What was read and the rest of the text. -/
abbrev Taken (α : Type) := α × List Char

/-- Why a configuration cannot be read. -/
inductive Refusal where
  | malformed
  | defect (d : Defect)
  deriving DecidableEq, Repr

/-- What is there if the text is well formed. -/
def wellFormed (r : Option α) : Except Refusal α := r.elim (.error .malformed) .ok

/-! ### Blanks and comments -/

def isSpace (c : Char) : Bool := c == ' ' || c == '\t'

def skipSpaces (cs : List Char) : List Char := cs.dropWhile isSpace

/-- Characters that stand nowhere but as line ends. -/
def isControl (c : Char) : Bool := (c.toNat < 0x20 && c != '\t') || c.toNat == 0x7f

/-- Skips a comment, if one comes next. -/
def skipComment? : List Char → Option (List Char)
  | '#' :: rest =>
      if (rest.takeWhile (· ≠ '\n')).any isControl then none
      else some (rest.dropWhile (· ≠ '\n'))
  | cs => some cs

/-- Skips blanks, line ends and comments. -/
def skipGaps? : (fuel : Nat) → List Char → Option (List Char)
  | 0, _ => none
  | fuel + 1, cs => do
      let rest ← skipComment? (cs.dropWhile fun c => isSpace c || c == '\n')
      if rest.length = cs.length then some rest else skipGaps? fuel rest

def gapless? (cs : List Char) : Option (List Char) := skipGaps? (cs.length + 1) cs

/-! ### Texts -/

/-- The text up to a closing mark, which must come. -/
def upTo? (mark : List Char) : List Char → Option (Taken (List Char))
  | [] => none
  | c :: cs =>
      if mark.isPrefixOf (c :: cs) then some ([], (c :: cs).drop mark.length)
      else (upTo? mark cs).map fun (body, rest) => (c :: body, rest)

def escapeLetter? : Char → Option Char
  | 'b' => some '\x08'
  | 't' => some '\t'
  | 'n' => some '\n'
  | 'f' => some '\x0c'
  | 'r' => some '\r'
  | '"' => some '"'
  | '\\' => some '\\'
  | _ => none

/-- The character that `count` hexadecimal digits number. -/
def numbered? (count : Nat) (cs : List Char) : Option (Taken Char) := do
  if cs.length < count then none
  else
    let ds ← (cs.take count).mapM (Numeral.digitValue? 16)
    let n := ds.foldl (fun n d => n * 16 + d) 0
    if h : n.isValidChar then some (Char.ofNatAux n h, cs.drop count) else none

/-- The character of an escape, none for a line end that is skipped with the blanks after it. -/
def escape? (manyLines : Bool) : List Char → Option (Taken (Option Char))
  | 'u' :: rest => (numbered? 4 rest).map fun (c, rest) => (some c, rest)
  | 'U' :: rest => (numbered? 8 rest).map fun (c, rest) => (some c, rest)
  | c :: rest =>
      if manyLines && (isSpace c || c == '\n') then
        match skipSpaces (c :: rest) with
        | '\n' :: rest => some (none, rest.dropWhile fun c => isSpace c || c == '\n')
        | [] => some (none, [])
        | _ => none
      else (escapeLetter? c).map fun x => (some x, rest)
  | [] => none

/-- The rest of a text on one line, between double quotes. -/
def lineText? : (fuel : Nat) → List Char → Option (Taken (List Char))
  | 0, _ => none
  | _, [] => none
  | fuel + 1, c :: rest =>
      if c = '"' then some ([], rest)
      else if c = '\\' then do
        let (x, rest) ← escape? false rest
        let (body, rest) ← lineText? fuel rest
        some (x.toList ++ body, rest)
      else if isControl c then none
      else (lineText? fuel rest).map fun (body, rest) => (c :: body, rest)

/-- The rest of a text on many lines, between three double quotes. -/
def blockText? : (fuel : Nat) → List Char → Option (Taken (List Char))
  | 0, _ => none
  | _, [] => none
  | fuel + 1, c :: rest =>
      if ['"', '"', '"'].isPrefixOf (c :: rest) then some ([], (c :: rest).drop 3)
      else if c = '\\' then do
        let (x, rest) ← escape? true rest
        let (body, rest) ← blockText? fuel rest
        some (x.toList ++ body, rest)
      else if isControl c && c != '\n' then none
      else (blockText? fuel rest).map fun (body, rest) => (c :: body, rest)

/-- Up to two more quotes belong to the text that the last three of them close. -/
def extraQuotes (quote : Char) (body rest : List Char) : Taken (List Char) :=
  let extra := min 2 (rest.takeWhile (· = quote)).length
  (body ++ List.replicate extra quote, rest.drop extra)

/-- The rest of a literal text on one line. -/
def lineLiteral? (cs : List Char) : Option (Taken (List Char)) := do
  let (body, rest) ← upTo? ['\''] cs
  if body.any isControl then none else some (body, rest)

def dropLineEnd : List Char → List Char
  | '\n' :: rest => rest
  | cs => cs

/-- A text in any of the four kinds of quotes. -/
def text? : List Char → Option (Taken String)
  | '"' :: '"' :: '"' :: rest => do
      let rest := dropLineEnd rest
      let (body, rest) ← blockText? (rest.length + 1) rest
      let (body, rest) := extraQuotes '"' body rest
      some (String.ofList body, rest)
  | '"' :: rest => do
      let (body, rest) ← lineText? (rest.length + 1) rest
      some (String.ofList body, rest)
  | '\'' :: '\'' :: '\'' :: rest => do
      let (body, rest) ← upTo? ['\'', '\'', '\''] (dropLineEnd rest)
      if body.any fun c => isControl c && c != '\n' then none
      else
        let (body, rest) := extraQuotes '\'' body rest
        some (String.ofList body, rest)
  | '\'' :: rest => do
      let (body, rest) ← lineLiteral? rest
      some (String.ofList body, rest)
  | _ => none

/-! ### Keys -/

def isBareKey (c : Char) : Bool := c.isAlphanum || c == '-' || c == '_'

def keyPart? (cs : List Char) : Option (Taken String) :=
  match cs with
  | '"' :: rest => do
      let (body, rest) ← lineText? (rest.length + 1) rest
      some (String.ofList body, rest)
  | '\'' :: rest => do
      let (body, rest) ← lineLiteral? rest
      some (String.ofList body, rest)
  | _ =>
      let name := cs.takeWhile isBareKey
      if name.isEmpty then none else some (String.ofList name, cs.dropWhile isBareKey)

/-- A key of one or more parts with points between, and the blanks after it. -/
def key? : (fuel : Nat) → List Char → Option (Taken (List String))
  | 0, _ => none
  | fuel + 1, cs => do
      let (part, rest) ← keyPart? cs
      match skipSpaces rest with
      | '.' :: rest => do
          let (more, rest) ← key? fuel (skipSpaces rest)
          some (part :: more, rest)
      | rest => some ([part], rest)

def dottedKey? (cs : List Char) : Option (Taken (List String)) := key? (cs.length + 1) cs

/-! ### Numbers -/

/-- Digits, each after the first with at most one underscore before it. -/
def digitsAfter (p : Char → Bool) : List Char → Taken (List Char)
  | '_' :: c :: rest =>
      if p c then
        let (ds, rest) := digitsAfter p rest
        (c :: ds, rest)
      else ([], '_' :: c :: rest)
  | c :: rest =>
      if p c then
        let (ds, rest) := digitsAfter p rest
        (c :: ds, rest)
      else ([], c :: rest)
  | [] => ([], [])

def digits? (p : Char → Bool) : List Char → Option (Taken (List Char))
  | c :: rest =>
      if p c then
        let (ds, rest) := digitsAfter p rest
        some (c :: ds, rest)
      else none
  | [] => none

def isBase (base : Nat) (c : Char) : Bool := (Numeral.digitValue? base c).isSome

def inBase (base : Nat) (ds : List Char) : Nat :=
  ds.foldl (fun n d => n * base + (Numeral.digitValue? base d).getD 0) 0

/-- An integer whose base is marked. -/
def marked? (cs : List Char) : Option (Taken Document) :=
  let read (base : Nat) (rest : List Char) : Option (Taken Document) :=
    (digits? (isBase base) rest).map fun (ds, rest) => (.int (inBase base ds), rest)
  match cs with
  | '0' :: 'x' :: rest => read 16 rest
  | '0' :: 'b' :: rest => read 2 rest
  | '0' :: 'o' :: rest => read 8 rest
  | _ => none

def wholeDigits? : List Char → Option (Taken (List Char))
  | '0' :: rest => some (['0'], rest)
  | cs => digits? Char.isDigit cs

def fraction (cs : List Char) : Taken (List Char) :=
  match cs with
  | '.' :: rest => (digits? Char.isDigit rest).getD ([], cs)
  | _ => ([], cs)

def exponent (cs : List Char) : Taken (Option Int) :=
  match cs with
  | c :: rest =>
      if c = 'e' ∨ c = 'E' then
        let (negative, body) := Numeral.splitSign rest
        match digits? Char.isDigit body with
        | some (ds, rest) =>
            let n : Int := Numeral.naturalOf ds
            (some (if negative then -n else n), rest)
        | none => (none, cs)
      else (none, cs)
  | [] => (none, cs)

/-- The integer of some digits, which may be too many. -/
def integerOf (negative : Bool) (digits : List Char) : Except Refusal Document :=
  if Numeral.digitLimit < digits.length then
    .error (.defect (.badValue (Numeral.Fault.tooLong digits.length).message))
  else
    let n : Int := Numeral.naturalOf digits
    .ok (.int (if negative then -n else n))

def decimal (cs : List Char) : Except Refusal (Taken Document) := do
  let (negative, body) := Numeral.splitSign cs
  let (whole, rest) ← wellFormed (wholeDigits? body)
  let (frac, rest) := fraction rest
  let (exp, rest) := exponent rest
  if frac.isEmpty && exp.isNone then return (← integerOf negative whole, rest)
  else
    return (.float (.ofDecimal negative (Numeral.naturalOf (whole ++ frac))
      (exp.getD 0 - frac.length)), rest)

/-- Words that stand for values. -/
def words : List (String × Document) := [
  ("true", .bool true), ("false", .bool false),
  ("inf", .float (.infinite false)), ("+inf", .float (.infinite false)),
  ("-inf", .float (.infinite true)),
  ("nan", .float .undefined), ("+nan", .float .undefined), ("-nan", .float .undefined)]

def word? (cs : List Char) : Option (Taken Document) :=
  words.findSome? fun (w, d) =>
    if w.toList.isPrefixOf cs then some (d, cs.drop w.length) else none

/-! ### Values -/

/-- A word or a number. -/
def scalar (cs : List Char) : Except Refusal (Taken Document) :=
  match (word? cs).or (marked? cs) with
  | some r => .ok r
  | none => decimal cs

/-- The room that a list takes, and that a table in braces takes. -/
def listCost : Nat := 2
def tableCost : Nat := 3

/-- The room inside one more list or table. -/
def enter (cost room : Nat) : Except Refusal Nat :=
  (Nesting.enter cost room "reading a nested value").mapError .defect

mutual
/-- One value, with `room` for lists and tables. `fuel` bounds the number of items. -/
def value : (fuel room : Nat) → List Char → Except Refusal (Taken Document)
  | 0, _, _ => .error .malformed
  | fuel + 1, room, cs =>
      match cs with
      | '"' :: _ => (wellFormed (text? cs)).map fun (s, rest) => (.text s, rest)
      | '\'' :: _ => (wellFormed (text? cs)).map fun (s, rest) => (.text s, rest)
      | '[' :: rest => do
          let (xs, rest) ← items fuel (← enter listCost room) rest
          return (.list xs, rest)
      | '\x7b' :: rest => do
          let room ← enter tableCost room
          match skipSpaces rest with
          | '\x7d' :: rest => return (.object [], rest)
          | rest => do
              let (es, rest) ← inline fuel room [] rest
              return (es.toDocument, rest)
      | _ => scalar cs

/-- Values up to the closing bracket, possibly after a last comma. -/
def items : (fuel room : Nat) → List Char → Except Refusal (Taken (List Document))
  | 0, _, _ => .error .malformed
  | fuel + 1, room, cs => do
      match ← wellFormed (gapless? cs) with
      | ']' :: rest => return ([], rest)
      | cs => do
          let (x, rest) ← value fuel room cs
          match ← wellFormed (gapless? rest) with
          | ']' :: rest => return ([x], rest)
          | ',' :: rest => do
              let (xs, rest) ← items fuel room rest
              return (x :: xs, rest)
          | _ => throw .malformed

/-- Keys with values up to the closing brace. -/
def inline : (fuel room : Nat) → Entries → List Char → Except Refusal (Taken Entries)
  | 0, _, _, _ => .error .malformed
  | fuel + 1, room, es, cs => do
      let (key, rest) ← wellFormed (dottedKey? cs)
      match rest with
      | '=' :: rest => do
          let (v, rest) ← value fuel room (skipSpaces rest)
          let es ← wellFormed (Entries.assign v key es)
          match skipSpaces rest with
          | '\x7d' :: rest => return (es, rest)
          | ',' :: rest => inline fuel room es (skipSpaces rest)
          | _ => throw .malformed
      | _ => throw .malformed
end

/-! ### Statements -/

/-- A key with its value, put below the current header. -/
def setting (header : List String) (es : Entries) (cs : List Char) :
    Except Refusal (Taken Entries) := do
  let (key, rest) ← wellFormed (dottedKey? cs)
  match rest with
  | '=' :: rest => do
      let (v, rest) ← value (2 * rest.length + 2) Nesting.room (skipSpaces rest)
      let es ← wellFormed (Entries.within (Entries.assign v key) header es)
      return (es, rest)
  | _ => throw .malformed

/-- What has been read: the current header and all tables. -/
abbrev Progress := List String × Entries

/-- One header or setting. -/
def statement (p : Progress) : List Char → Except Refusal (Taken Progress)
  | '[' :: '[' :: rest => do
      let (key, rest) ← wellFormed (dottedKey? (skipSpaces rest))
      match rest with
      | ']' :: ']' :: rest => do
          let es ← wellFormed (Entries.declare Entries.declareItem key p.2)
          return ((key, es), rest)
      | _ => throw .malformed
  | '[' :: rest => do
      let (key, rest) ← wellFormed (dottedKey? (skipSpaces rest))
      match rest with
      | ']' :: rest => do
          let es ← wellFormed (Entries.declare Entries.declareTable key p.2)
          return ((key, es), rest)
      | _ => throw .malformed
  | '#' :: rest => return (p, '#' :: rest)
  | cs => do
      let (es, rest) ← setting p.1 p.2 cs
      return ((p.1, es), rest)

/-- Statements, at most one a line. -/
def statements : (fuel : Nat) → Progress → List Char → Except Refusal Entries
  | 0, _, _ => .error .malformed
  | fuel + 1, p, cs =>
      match skipSpaces cs with
      | [] => .ok p.2
      | '\n' :: rest => statements fuel p rest
      | cs => do
          let (p, rest) ← statement p cs
          match ← wellFormed (skipComment? (skipSpaces rest)) with
          | [] => return p.2
          | '\n' :: rest => statements fuel p rest
          | _ => throw .malformed

/-- A carriage return with the line feed after it is a line end; alone it is a control character. -/
def unifyLineEnds : List Char → List Char
  | [] => []
  | '\r' :: '\n' :: rest => '\n' :: unifyLineEnds rest
  | c :: rest => c :: unifyLineEnds rest

/-- The object that a configuration spells. -/
def read (s : String) : Except Refusal Document :=
  let cs := unifyLineEnds s.toList
  (statements (cs.length + 1) ([], []) cs).map Entries.toDocument

example : ((read "a.b = 1\n[t]\nx = [1, 'y']\n").toOption.map Document.literal) =
    some "\x7b'a': \x7b'b': 1\x7d, 't': \x7b'x': [1, 'y']\x7d\x7d" := by
  decide +kernel

example : (read "a = 1\na = 2").toOption.isNone ∧ (read "a = 01").toOption.isNone ∧
    (read "[t]\n[t]").toOption.isNone := by
  decide +kernel

end Attest.Toml
