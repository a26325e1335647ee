import Attest.Number.Shortest
import Attest.Text.Quoted

/-! Documents: the dynamic values of build artifacts, project settings and node answers. -/

namespace Attest

/-- A value of a data file. Objects keep the order of their members, each name once. -/
inductive Document where
  | null
  | bool (value : Bool)
  | int (value : Int)
  | float (value : Binary64)
  | text (value : String)
  | list (items : List Document)
  | object (members : List (String × Document))
  deriving Inhabited

/-- Members of an object. -/
abbrev Members := List (String × Document)

namespace Document

/-- What messages call the kind of a value. -/
def kind : Document → String
  | null => "NoneType"
  | bool _ => "bool"
  | int _ => "int"
  | float _ => "float"
  | text _ => "str"
  | list _ => "list"
  | object _ => "dict"

/-- Whether the value counts as given: null, false, zero and all that is empty do not. -/
def isGiven : Document → Bool
  | null => false
  | bool b => b
  | int i => i != 0
  | float x => !x.isZero
  | text s => !s.isEmpty
  | list xs => !xs.isEmpty
  | object ms => !ms.isEmpty

mutual
/-- The value as messages quote it. -/
def literal : Document → String
  | null => "None"
  | bool b => if b then "True" else "False"
  | int i => toString i
  | float x => x.text
  | text s => Text.quoted s
  | list xs => "[" ++ ", ".intercalate (literalItems xs) ++ "]"
  | object ms => "\x7b" ++ ", ".intercalate (literalMembers ms) ++ "\x7d"

def literalItems : List Document → List String
  | [] => []
  | x :: xs => x.literal :: literalItems xs

def literalMembers : List (String × Document) → List String
  | [] => []
  | m :: ms => literalMember m :: literalMembers ms

def literalMember : String × Document → String
  | (name, value) => Text.quoted name ++ ": " ++ value.literal
end

/-- The value as messages show it: a text stands without quotes. -/
def plain : Document → String
  | text s => s
  | d => d.literal

def ofOption (f : α → Document) : Option α → Document
  | none => null
  | some a => f a

end Document

namespace Members

/-- The member of a name. -/
def get? (ms : Members) (name : String) : Option Document :=
  (ms.find? fun m => m.1 == name).map (·.2)

/-- Puts a member in the place of the one of its name, or at the end. -/
def set : Members → String → Document → Members
  | [], name, value => [(name, value)]
  | m :: ms, name, value => if m.1 == name then (name, value) :: ms else m :: set ms name value

/-- Members with repeated names resolved: the first place and the last value. -/
def ofPairs (pairs : List (String × Document)) : Members :=
  pairs.foldl (fun ms p => ms.set p.1 p.2) []

/-- `ms` with every member of `more` put in. -/
def union (ms more : Members) : Members :=
  more.foldl (fun ms p => ms.set p.1 p.2) ms

def names (ms : Members) : List String := ms.map (·.1)

end Members

example : (Document.list [.null, .text "a", .object [("k", .int (-1))]]).literal =
    "[None, 'a', \x7b'k': -1\x7d]" := by
  decide +kernel

end Attest
