import Attest.Project.Tree
import Attest.Time

/-! Outside programs: how they are called, what they will do, and what comes of it. -/

namespace Attest.Tool

/-- A program call. -/
structure Command where
  arguments : List String
  limit : Limit
  directory : Option String := none
  profile : Option String := none
  deriving DecidableEq, Repr

/-- Something that went wrong in a program's start, by kind. -/
structure Mishap where
  kind : String
  message : String
  deriving DecidableEq, Repr

namespace Mishap

/-- Kinds of mishap that the operating system reports. -/
def systemKinds : List String := ["FileNotFoundError", "PermissionError", "OSError"]

def isSystem (m : Mishap) : Bool := systemKinds.contains m.kind

def defect (m : Mishap) : Defect :=
  if m.kind = "ValueError" then .badValue m.message else .foreign m.kind m.message

end Mishap

/-- What a program will do when it is run. -/
structure Step where
  exit : Int := 0
  stdout : String := ""
  stderr : String := ""
  delay : Seconds := 0
  mishap : Option Mishap := none
  /-- Files that it leaves in its output directory. -/
  files : List (String × String) := []

/-- What came of a program's run. -/
inductive Outcome where
  | exited (code : Int) (stdout stderr : String)
  /-- It could not be run or did not end in time. -/
  | unavailable (details : String)
  | broken (d : Defect)
  deriving DecidableEq, Repr

namespace Outcome

/-- What a failed program said, on its error output or else on the other. -/
def complaint (stdout stderr : String) : String :=
  Text.trim (if stderr.isEmpty then stdout else stderr)

end Outcome

/-- How a call that ran out of time is described. -/
def expiry (c : Command) : String :=
  let words := Document.list (c.arguments.map .text)
  s!"Command '{words.literal}' timed out after {c.limit.text} seconds"

/-- What a step leaves behind, if it came to its end. -/
def Step.leftovers (s : Step) (c : Command) : Tree :=
  if c.limit.isExceededBy s.delay || s.mishap.isSome then {} else .ofFiles s.files

/-- How long a step takes under a command's limit, and what comes of it. -/
def Step.perform (s : Step) (c : Command) : Seconds × Outcome :=
  if c.limit.isExceededBy s.delay then
    (c.limit.seconds?.getD 0, .unavailable (expiry c))
  else
    (s.delay,
      match s.mishap with
      | some m => if m.isSystem then .unavailable m.message else .broken m.defect
      | none => .exited s.exit s.stdout s.stderr)

end Attest.Tool
