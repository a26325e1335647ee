import Attest.Document

/-! Tables of a configuration while it is being read: which of them may still be opened by a header,
which only take further dotted keys, and which are closed. -/

namespace Attest.Toml

/-- How a table came to be. -/
inductive Origin where
  /-- As the parent of another table: a header may still open it. -/
  | implied
  /-- By a dotted key: only further dotted keys may extend it. -/
  | dotted
  /-- By a header of its own. -/
  | declared
  deriving DecidableEq

/-- What stands under a key. -/
inductive Node where
  /-- A value, closed to all additions. -/
  | value (d : Document)
  | table (origin : Origin) (entries : List (String × Node))
  /-- Tables that share a header, the newest one first. -/
  | series (items : List (List (String × Node)))
  deriving Inhabited

abbrev Entries := List (String × Node)

namespace Entries

/-- Changes what stands under a key; `none` refuses the change. -/
def alter (f : Option Node → Option Node) (key : String) : Entries → Option Entries
  | [] => (f none).map fun n => [(key, n)]
  | e :: es =>
      if e.1 = key then (f (some e.2)).map fun n => (key, n) :: es
      else (alter f key es).map (e :: ·)

/-- Goes on inside the table under a key, the newest of a series. -/
def inside (f : Entries → Option Entries) : Option Node → Option Node
  | none => (f []).map (.table .implied)
  | some (.table origin es) => (f es).map (.table origin)
  | some (.series (es :: older)) => (f es).map fun es => .series (es :: older)
  | _ => none

/-- Changes the table that a path of headers leads to. -/
def within (f : Entries → Option Entries) : List String → Entries → Option Entries
  | [] => f
  | key :: path => alter (inside (within f path)) key

/-- Opens a table by its header. -/
def declareTable : Option Node → Option Node
  | none => some (.table .declared [])
  | some (.table .implied es) => some (.table .declared es)
  | _ => none

/-- Opens one more table of a series. -/
def declareItem : Option Node → Option Node
  | none => some (.series [[]])
  | some (.series items) => some (.series ([] :: items))
  | _ => none

/-- Opens the last of a path of headers. -/
def declare (how : Option Node → Option Node) (path : List String) (es : Entries) : Option Entries :=
  match path.getLast? with
  | some key => within (alter how key) path.dropLast es
  | none => none

/-- Goes on inside a table that a dotted key names. -/
def insideDotted (f : Entries → Option Entries) : Option Node → Option Node
  | none => (f []).map (.table .dotted)
  | some (.table .declared _) => none
  | some (.table _ es) => (f es).map (.table .dotted)
  | _ => none

/-- Gives a value to a dotted key, which must have none. -/
def assign (v : Document) : List String → Entries → Option Entries
  | [] => fun _ => none
  | [key] => alter (fun n => if n.isNone then some (.value v) else none) key
  | key :: path => alter (insideDotted (assign v path)) key

end Entries

mutual
def Node.toDocument : Node → Document
  | .value d => d
  | .table _ es => .object (membersOf es)
  | .series items => .list (documentsOf items).reverse

def membersOf : List (String × Node) → List (String × Document)
  | [] => []
  | e :: es => memberOf e :: membersOf es

def memberOf : String × Node → String × Document
  | (key, n) => (key, n.toDocument)

def documentsOf : List (List (String × Node)) → List Document
  | [] => []
  | es :: items => .object (membersOf es) :: documentsOf items
end

/-- A finished table. -/
def Entries.toDocument (es : Entries) : Document := .object (membersOf es)

end Attest.Toml
