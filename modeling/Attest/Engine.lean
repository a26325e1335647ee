import Attest.Activity
import Attest.Bytes.Hex
import Attest.Decompilation
import Attest.Document.Access

/-! Engines that give an account of code. What they do never decides a verdict. -/

namespace Attest

namespace Engine

/-- Why an engine gave up. -/
inductive Fault where
  | unavailable (details : String)
  | failed (details : String)
  | noOutput
  | unreadable (details : String)
  | gaveUp (message : String)
  deriving DecidableEq, Repr

namespace Fault

def message : Fault → String
  | unavailable details => s!"heimdall could not run: {details}"
  | failed details => s!"heimdall failed: {details}"
  | noOutput => "heimdall produced no output"
  | unreadable details => s!"heimdall wrote an unreadable abi.json: {details}"
  | gaveUp message => message

def label : String := "DecompilationError"

def describe (f : Fault) : String := label ++ ": " ++ f.message

end Fault

/-- An engine ends with a fault, which becomes a note, or with a defect. -/
inductive Problem where
  | fault (f : Fault)
  | defect (d : Defect)
  deriving DecidableEq, Repr

/-! ### The outside engine -/

/-- How reports name the engine's output directory. -/
def outputDirectory : String := "<out>"

/-- The longest that the engine may take. -/
def longest : Limit := .whole 300

def command (code : Bytes) : Tool.Command :=
  ⟨["heimdall", "decompile", Hex.encodePrefixed code, "--include-sol", "--output", outputDirectory],
    longest, none, none⟩

/-- The interface in the first file of a list, none without a file. -/
def readInterface (output : Tree) : List Path → Except Problem Document
  | [] => .ok (.list [])
  | path :: _ =>
      match output.read outputDirectory path with
      | .error d => .error (.defect d)
      | .ok s =>
          match Json.read s with
          | .error d => .error (.defect d)
          | .ok r => r.mapError fun f => .fault (.unreadable (f.message s))

def readSource (output : Tree) : List Path → Except Problem String
  | [] => .ok ""
  | path :: _ => (output.read outputDirectory path).mapError .defect

/-- What the engine left in its output directory. -/
def collect (output : Tree) : Except Problem Decompilation := do
  let interfaces := output.find [] (· == "abi.json")
  let sources := output.find [] (Path.hasSuffix ".sol")
  if interfaces.isEmpty && sources.isEmpty then .error (.fault .noOutput)
  else
    let abi ← readInterface output interfaces
    let source ← readSource output sources
    return ⟨"heimdall", ← abi.elements.mapError .defect, source⟩

/-- What came of the engine's run. -/
def ofOutcome (output : Tree) : Tool.Outcome → Except Problem Decompilation
  | .unavailable details => .error (.fault (.unavailable details))
  | .broken d => .error (.defect d)
  | .exited code stdout stderr =>
      if code ≠ 0 then .error (.fault (.failed (Tool.Outcome.complaint stdout stderr)))
      else collect output

/-- Runs the engine on a code. -/
def runOutside (code : Bytes) : Activity (Except Problem Decompilation) :=
  .wait (.run (command code)) .never fun answer =>
    match (answer : Option (Tool.Outcome × Tree)) with
    | some (outcome, output) => .done (ofOutcome output outcome)
    | none => .done (.error (.fault .noOutput))

end Engine

/-- An engine by name. -/
structure Engine where
  name : String
  decompile : Bytes → Activity (Except Engine.Problem Decompilation)

namespace Engine

/-- The engine that lists instructions, at once and without fail. -/
def listing : Engine := ⟨"evmdasm", fun code => .done (.ok (Decompilation.ofCode code))⟩

def heimdall : Engine := ⟨"heimdall", runOutside⟩

/-- The engine of a name. -/
def ofName (name : Document) : Except Defect Engine :=
  ([listing, heimdall].find? fun e => Document.isText e.name name).elim
    (.error (.badValue s!"Unknown decompiler {name.literal}")) .ok

end Engine

end Attest
