/-! Paths as lists of components. -/

namespace Attest

/-- The components of a path, outermost first. An absolute path begins with a slash. -/
abbrev Path := List String

namespace Path

/-- The pieces between slashes. -/
def pieces : List Char → List Char → List (List Char)
  | current, [] => [current.reverse]
  | current, '/' :: rest => current.reverse :: pieces [] rest
  | current, c :: rest => pieces (c :: current) rest

/-- What an absolute path begins with. -/
def root : String := "/"

/-- The component that leads to the directory above. -/
def up : String := ".."

/-- The components that a text names; empty ones and single points mean nothing. -/
def ofText (s : String) : Path :=
  let parts := ((pieces [] s.toList).map String.ofList).filter fun c => !c.isEmpty && c != "."
  if s.toList.head? = some '/' then root :: parts else parts

def text : Path → String
  | [] => ""
  | c :: cs => if c = root then root ++ "/".intercalate cs else "/".intercalate (c :: cs)

/-- The last component, empty if there is none. -/
def name (p : Path) : String := (p.getLast?.filter (· != root)).getD ""

/-- A name without its last suffix. A point at either end begins none. -/
def stem (name : String) : String :=
  let r := name.toList.reverse
  let suffix := r.takeWhile (· ≠ '.')
  match r.dropWhile (· ≠ '.') with
  | _ :: before =>
      if suffix.isEmpty || before.isEmpty then name else String.ofList before.reverse
  | [] => name

def hasSuffix (suffix name : String) : Bool := suffix.toList.isSuffixOf name.toList

/-- Component by component. -/
def before (p q : Path) : Bool := !decide (q < p)

def sort (ps : List Path) : List Path := ps.mergeSort before

example : ofText "./a//b/." = ["a", "b"] ∧ (ofText "/a/b").text = "/a/b" := by decide +kernel

example : stem "Counter.0.8.20.json" = "Counter.0.8.20" ∧
    stem ".json" = ".json" := by
  decide +kernel

end Path

end Attest
