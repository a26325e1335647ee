import Attest.CommandLine.Invocation
import Attest.Session

/-! The program: runs a command line in the world that a session on standard input describes. -/

open Attest

/-- The session in a text; what is no session describes an empty world. -/
def sessionIn (s : String) : Session :=
  match Json.read? s with
  | .ok (some d) => .ofMembers (Session.membersOf d)
  | _ => {}

def main (arguments : List String) : IO UInt32 := do
  match CommandLine.read arguments with
  | .error .help => return 0
  | .error (.usage f) => do
      IO.eprintln f.text
      return CommandLine.noReport.toUInt32
  | .ok invocation => do
      let session := sessionIn (← (← IO.getStdin).readToEnd)
      match CommandLine.run invocation session.surroundings session.world with
      | .error d => do
          IO.eprintln d.describe
          return CommandLine.mismatch.toUInt32
      | .ok output => do
          IO.print output.stdout
          IO.eprint output.stderr
          return output.status.toUInt32
