import Attest.Defect
import Attest.Document
import Attest.Number.Numeral

/-! Reading documents whose shape nobody promised: each step says what the value must be and which
defect arises when it is something else. -/

namespace Attest.Document

/-- The members of an object; `step` names what was asked of it. -/
def members (d : Document) (step : String) : Except Defect Members :=
  match d with
  | object ms => .ok ms
  | _ => .error (.lacksMember d.kind step)

/-- A member of an object, or the stand-in when it has none of the name. -/
def get (d : Document) (name : String) (standIn : Document) : Except Defect Document := do
  return (Members.get? (← d.members "get") name).getD standIn

/-- A member that must be there. -/
def member (d : Document) (name : String) : Except Defect Document :=
  match d with
  | object ms =>
      match Members.get? ms name with
      | some v => .ok v
      | none => .error (.missingKey (Text.quoted name))
  | list _ => .error (.wrongKind "list indices must be integers or slices, not str")
  | text _ => .error (.wrongKind "string indices must be integers, not 'str'")
  | _ => .error (.wrongKind s!"'{d.kind}' object is not subscriptable")

/-- What the value is made of: the items of a list, the characters of a text, the names of an
object's members. -/
def elements (d : Document) : Except Defect (List Document) :=
  match d with
  | list xs => .ok xs
  | text s => .ok (s.toList.map fun c => text c.toString)
  | object ms => .ok (ms.map fun m => text m.1)
  | _ => .error (.wrongKind s!"'{d.kind}' object is not iterable")

/-! ### Numbers and keys -/

/-- The integer that a value is in arithmetic; truth values are one and zero. -/
def integral? : Document → Option Int
  | int i => some i
  | bool b => some (if b then 1 else 0)
  | _ => none

/-- The finite number that a value is in comparisons. -/
def rational? : Document → Option Rat
  | float x => x.toRat?
  | d => d.integral?.map fun i => (i : Rat)

/-- Whether two values name the same entry of a table. Numbers are the same if they are equal, of
whatever kind. -/
def isSameKey : Document → Document → Bool
  | null, null => true
  | text s, text t => s == t
  | float (.infinite a), float (.infinite b) => a == b
  | d, e =>
      match d.rational?, e.rational? with
      | some x, some y => x == y
      | _, _ => false

/-- Whether a number is less than zero; nothing else can be. -/
def isNegative (d : Document) : Except Defect Bool :=
  match d with
  | float x => .ok x.isNegative
  | d =>
      match d.integral? with
      | some i => .ok (decide (i < 0))
      | none => .error (.wrongKind s!"'<' not supported between instances of '{d.kind}' and 'int'")

/-- A number as a double, which an integer may be too large for. -/
def double (d : Document) : Except Defect Binary64 :=
  match d with
  | float x => .ok x
  | d =>
      match d.integral? with
      | some i =>
          match Binary64.ofInt i with
          | .infinite _ => .error .hugeNumber
          | x => .ok x
      | none => .error (.wrongKind s!"must be real number, not {d.kind}")

/-- Whether the value can name an entry of a table. -/
def asKey (d : Document) : Except Defect Document :=
  match d with
  | list _ | object _ => .error (.wrongKind s!"unhashable type: '{d.kind}'")
  | _ => .ok d

/-! ### Parts -/

/-- Whether `part` stands in the text `whole`. -/
def occurs (part : List Char) : List Char → Bool
  | [] => part.isEmpty
  | c :: cs => part.isPrefixOf (c :: cs) || occurs part cs

def isText (s : String) : Document → Bool
  | text t => s == t
  | _ => false

/-- Whether a text is among the elements of the value, or a part of it if the value is a text. -/
def mentions (d : Document) (s : String) : Except Defect Bool :=
  match d with
  | list xs => .ok (xs.any (isText s))
  | text t => .ok (occurs s.toList t.toList)
  | object ms => .ok (Members.get? ms s).isSome
  | _ => .error (.wrongKind s!"argument of type '{d.kind}' is not iterable")

/-- Whether a value is among the elements of the value. A text has only texts as its parts. -/
def holds (d part : Document) : Except Defect Bool :=
  match part with
  | text s => d.mentions s
  | part =>
      match d with
      | object _ => do return (fun _ => false) (← part.asKey)
      | text _ => .error (.wrongKind
          s!"'in <string>' requires string as left operand, not {part.kind}")
      | d => do return (← d.elements).any part.isSameKey

/-! ### Tables and integers -/

/-- The element at `place` of a sequence of pairs, as a member. -/
def pairAt (place : Nat) (d : Document) : Except Defect (String × Document) := do
  match d.elements with
  | .error _ =>
      .error (.wrongKind s!"cannot convert dictionary update sequence element #{place} to a sequence")
  | .ok [name, value] =>
      match name with
      | text s => .ok (s, value)
      | _ => do
          let k ← name.asKey
          return (k.plain, value)
  | .ok parts =>
      let count := parts.length
      .error (.badValue
        s!"dictionary update sequence element #{place} has length {count}; 2 is required")

def pairsFrom : Nat → List Document → Except Defect (List (String × Document))
  | _, [] => .ok []
  | place, d :: ds => do
      let p ← pairAt place d
      return p :: (← pairsFrom (place + 1) ds)

/-- The value as a table: an object itself, or a sequence of pairs. -/
def table (d : Document) : Except Defect Members :=
  match d with
  | object ms => .ok ms
  | _ => do return Members.ofPairs (← pairsFrom 0 (← d.elements))

/-- The integer that a text spells. -/
def integerIn (s : String) : Except Defect Int :=
  (Numeral.readInt s).mapError fun f => .badValue f.message

/-- The value as an integer: a number toward zero, or a text that is a numeral. -/
def integer (d : Document) : Except Defect Int :=
  match d with
  | bool b => .ok (if b then 1 else 0)
  | int i => .ok i
  | float (.infinite _) => .error .infiniteNumber
  | float x => x.truncate?.elim (.error (.badValue "cannot convert float NaN to integer")) .ok
  | text s => integerIn s
  | _ => .error (.wrongKind
      s!"int() argument must be a string, a bytes-like object or a real number, not '{d.kind}'")

end Attest.Document
