import Attest.Bytes
import Attest.Number.Numeral
import Attest.Number.Shortest
import Attest.Text.Quoted

/-! Items of the concise binary object representation, and how reports show them. -/

namespace Attest.Cbor

/-- A data item. Maps keep the order of their entries. Lists and maps in keys and under tags are
fixed. -/
inductive Item where
  | int (value : Int)
  | bytes (value : Bytes)
  | text (value : String)
  | list (fixed : Bool) (items : List Item)
  | map (fixed : Bool) (entries : List (Item × Item))
  | bool (value : Bool)
  | null
  | undefined
  | simple (value : Nat)
  | float (value : Binary64)
  | tagged (tag : Nat) (content : Item)
  deriving Inhabited

namespace Item

/-! ### As text -/

/-- A list of parts in brackets, round ones if it is fixed; a fixed one of a single part ends in a
comma. -/
def bracketed (fixed : Bool) (parts : List String) : String :=
  if fixed then
    match parts with
    | [part] => "(" ++ part ++ ",)"
    | _ => "(" ++ ", ".intercalate parts ++ ")"
  else "[" ++ ", ".intercalate parts ++ "]"

/-- Entries in braces, set in a word if the map is fixed. -/
def braced (fixed : Bool) (entries : List String) : String :=
  let body := "\x7b" ++ ", ".intercalate entries ++ "\x7d"
  if fixed then "frozendict(" ++ body ++ ")" else body

mutual
/-- The item as it appears inside another one. -/
def literal : Item → String
  | int i => toString i
  | bytes b => Text.quotedBytes b
  | text s => Text.quoted s
  | list fixed xs => bracketed fixed (literalItems xs)
  | map fixed es => braced fixed (literalEntries es)
  | bool b => if b then "True" else "False"
  | null => "None"
  | undefined => "undefined"
  | simple n => "CBORSimpleValue(" ++ toString n ++ ")"
  | float x => x.text
  | tagged tag content => "CBORTag(" ++ toString tag ++ ", " ++ content.literal ++ ")"

def literalItems : List Item → List String
  | [] => []
  | x :: xs => x.literal :: literalItems xs

def literalEntries : List (Item × Item) → List String
  | [] => []
  | e :: es => literalEntry e :: literalEntries es

def literalEntry : Item × Item → String
  | (key, value) => key.literal ++ ": " ++ value.literal
end

/-- The item as it appears by itself: texts stand without quotes, simple values as their number. -/
def plain : Item → String
  | text s => s
  | simple n => toString n
  | item => item.literal

mutual
/-- Whether the item can be written: none of its integers is too long. -/
def isWritable : Item → Bool
  | int i => Numeral.isWritable i
  | list _ xs => areWritable xs
  | map _ es => areEntriesWritable es
  | tagged _ content => content.isWritable
  | _ => true

def areWritable : List Item → Bool
  | [] => true
  | x :: xs => x.isWritable && areWritable xs

def areEntriesWritable : List (Item × Item) → Bool
  | [] => true
  | e :: es => isEntryWritable e && areEntriesWritable es

def isEntryWritable : Item × Item → Bool
  | (key, value) => key.isWritable && value.isWritable
end

/-! ### As keys -/

/-- The number that an item counts as in a key; truth values count as one and zero. -/
def worth? : Item → Option Rat
  | int i => some i
  | bool b => some (if b then 1 else 0)
  | float x => x.toRat?
  | _ => none

/-- The integer that an item counts as beside a simple value, which is no other kind of number. -/
def ordinal? : Item → Option Int
  | int i => some i
  | bool b => some (if b then 1 else 0)
  | simple n => some n
  | _ => none

mutual
/-- Whether two items are the same key. Numbers are the same if they are equal, of whatever kind; what
is no number is not even the same as itself. Maps are the same in whatever order. -/
def same : Item → Item → Bool
  | bytes a, bytes b => a == b
  | text a, text b => a == b
  | list _ as, list _ bs => sameItems as bs
  | map _ as, map _ bs => as.length == bs.length && sameEntries as bs
  | null, null => true
  | undefined, undefined => true
  | float (.infinite a), float (.infinite b) => a == b
  | tagged t a, tagged u b => t == u && a.same b
  | simple n, b => b.ordinal? == some (n : Int)
  | a, simple n => a.ordinal? == some (n : Int)
  | a, b =>
      match a.worth?, b.worth? with
      | some x, some y => x == y
      | _, _ => false

def sameItems : List Item → List Item → Bool
  | [], [] => true
  | a :: as, b :: bs => a.same b && sameItems as bs
  | _, _ => false

/-- Whether each entry has one that is the same among others. -/
def sameEntries : List (Item × Item) → List (Item × Item) → Bool
  | [], _ => true
  | a :: as, bs => bs.any (fun b => sameEntry a b) && sameEntries as bs

def sameEntry : Item × Item → Item × Item → Bool
  | (k, v), e => k.same e.1 && v.same e.2
end

/-- Puts an entry in the place of the one of its key, or at the end. -/
def putEntry : List (Item × Item) → Item × Item → List (Item × Item)
  | [], e => [e]
  | d :: ds, e => if d.1.same e.1 then (d.1, e.2) :: ds else d :: putEntry ds e

/-- Entries with repeated keys resolved: the first place and the last value. -/
def entriesOf (es : List (Item × Item)) : List (Item × Item) :=
  es.foldl putEntry []

example : (map true [(list true [int 1], simple 3)]).plain =
    "frozendict(\x7b(1,): CBORSimpleValue(3)\x7d)" := by
  decide +kernel

end Item

end Attest.Cbor
