import Attest.Document
import Attest.Nesting
import Attest.Number.Numeral

/-! Documents as JSON text in ASCII with the members of every object in the order of their names, so
that the text does not depend on the order they were put in. Integers can be too long to be written, and
levels too many. -/

namespace Attest.Json

def escapeUnit (u : Nat) : List Char := "\\u".toList ++ (Text.hexDigits 4 u).toList

/-- Printable ASCII stands for itself; the rest is escaped, beyond sixteen bits as a pair. -/
def escapeJson (c : Char) : List Char :=
  if c = '"' ∨ c = '\\' then ['\\', c]
  else if c = '\n' then ['\\', 'n']
  else if c = '\r' then ['\\', 'r']
  else if c = '\t' then ['\\', 't']
  else if c = '\x0c' then ['\\', 'f']
  else if c = '\x08' then ['\\', 'b']
  else
    let n := c.toNat
    if 0x20 ≤ n ∧ n < 0x7f then [c]
    else if n < 0x10000 then escapeUnit n
    else
      let n := n - 0x10000
      escapeUnit (0xd800 + n / 0x400) ++ escapeUnit (0xdc00 + n % 0x400)

def writeText (s : String) : List Char :=
  '"' :: (s.toList.flatMap escapeJson ++ ['"'])

def writeDouble : Binary64 → String
  | .undefined => "NaN"
  | .infinite negative => if negative then "-Infinity" else "Infinity"
  | x => x.text

/-- All on one line, or one item a line with so many blanks a level. -/
abbrev Indent := Option Nat

/-- The end of a line and the blanks of the next one. -/
def newline : Indent → Nat → List Char
  | none, _ => []
  | some width, depth => '\n' :: List.replicate (width * depth) ' '

def separator (indent : Indent) (depth : Nat) : List Char :=
  match indent with
  | none => [',', ' ']
  | some _ => ',' :: newline indent depth

/-- Parts between brackets, one level below `depth`; nothing stands between empty brackets. -/
def bracketed (indent : Indent) (depth : Nat) (opening closing : Char) (parts : List (List Char)) :
    List Char :=
  match parts with
  | [] => [opening, closing]
  | _ =>
      opening :: newline indent (depth + 1) ++
        (separator indent (depth + 1)).intercalate parts ++ newline indent depth ++ [closing]

/-- Named parts in the order of their names. -/
def inNameOrder (parts : List (String × α)) : List (String × α) :=
  parts.mergeSort fun a b => !decide (b.1 < a.1)

def namedPart (part : String × List Char) : List Char :=
  writeText part.1 ++ ':' :: ' ' :: part.2

mutual
def writeChars (indent : Indent) (depth : Nat) : Document → List Char
  | .null => "null".toList
  | .bool b => if b then "true".toList else "false".toList
  | .int i => (toString i).toList
  | .float x => (writeDouble x).toList
  | .text s => writeText s
  | .list xs => bracketed indent depth '[' ']' (writeItems indent (depth + 1) xs)
  | .object ms =>
      bracketed indent depth '\x7b' '\x7d'
        ((inNameOrder (writeMembers indent (depth + 1) ms)).map namedPart)

def writeItems (indent : Indent) (depth : Nat) : List Document → List (List Char)
  | [] => []
  | x :: xs => writeChars indent depth x :: writeItems indent depth xs

def writeMembers (indent : Indent) (depth : Nat) :
    List (String × Document) → List (String × List Char)
  | [] => []
  | m :: ms => writeMember indent depth m :: writeMembers indent depth ms

def writeMember (indent : Indent) (depth : Nat) : String × Document → String × List Char
  | (name, v) => (name, writeChars indent depth v)
end

/-- The text of a document, whatever it holds. -/
def render (indent : Indent) (d : Document) : String :=
  String.ofList (writeChars indent 0 d)

example : render none (.object [("b", .list []), ("a", .text "é\x7f")]) =
    "\x7b\"a\": \"\\u00e9\\u007f\", \"b\": []\x7d" := by
  cbv

example : render (some 2) (.list [.int (-1), .null]) = "[\n  -1,\n  null\n]" := by cbv

/-! ### What cannot be written -/

/-- What finds too little room; each layout has a writer of its own. -/
def activity : Indent → String
  | none => "encoding a JSON object"
  | some _ => "calling a Python object"

mutual
/-- What keeps a document from being written: the first integer that is too long, or the first level
that there is no room for. -/
def obstacle? (indent : Indent) (room : Nat) : Document → Option Defect
  | .int i => if Numeral.isWritable i then none else some (.badValue Numeral.unwritableText)
  | .list xs =>
      match Nesting.enter 1 room (activity indent) with
      | .error d => some d
      | .ok inner => itemObstacle? indent inner xs
  | .object ms =>
      match Nesting.enter 1 room (activity indent) with
      | .error d => some d
      | .ok inner => (inNameOrder (memberObstacles indent inner ms)).findSome? (·.2)
  | _ => none

def itemObstacle? (indent : Indent) (room : Nat) : List Document → Option Defect
  | [] => none
  | x :: xs => (obstacle? indent room x).or (itemObstacle? indent room xs)

def memberObstacles (indent : Indent) (room : Nat) :
    List (String × Document) → List (String × Option Defect)
  | [] => []
  | m :: ms => memberObstacle indent room m :: memberObstacles indent room ms

def memberObstacle (indent : Indent) (room : Nat) : String × Document → String × Option Defect
  | (name, v) => (name, obstacle? indent room v)
end

/-- The text of a document that can be written. -/
def write (room : Nat) (indent : Indent) (d : Document) : Except Defect String :=
  match obstacle? indent room d with
  | some defect => .error defect
  | none => .ok (render indent d)

example : (obstacle? none 2 (.list [.null, .list [.list []]])).map Defect.label =
    some "RecursionError" := by
  cbv

end Attest.Json
