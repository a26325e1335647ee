import Attest.Artifact
import Attest.Chain.Code
import Attest.Matching

/-! The verdicts on both sides of one chain. -/

namespace Attest.Chain

/-- Two verdicts, and notes on what kept a side from being compared. -/
structure Comparison where
  creation : Verdict
  runtime : Verdict
  notes : List String := []
  deriving DecidableEq, Repr

namespace Comparison

/-- The verdict of one side: an inconsistency counts as a difference and leaves a note. -/
def side (name : String) : Except Obstacle Verdict → Except Defect (Verdict × List String)
  | .ok v => .ok (v, [])
  | .error (.inconsistent cause) => .ok (.different, [name ++ ": " ++ cause.message])
  | .error (.defect d) => .error d

/-- The creation side, absent when the creating transaction is not known. -/
def creationSide (artifact : Artifact) : Option Bytes → Except Defect (Verdict × List String)
  | none => .ok (.absent, [])
  | some input => do
      let parameters ← artifact.constructorInputs
      side "creation" (Matching.creation artifact.creationCode input parameters)

/-- The runtime side, absent when there is no code. -/
def runtimeSide (artifact : Artifact) : Code → Except Defect (Verdict × List String)
  | .present code => do
      let immutables ← artifact.immutableMap
      side "runtime" (Matching.runtime artifact.runtimeCode code immutables)
  | _ => .ok (.absent, [])

/-- Compares an artifact with what was found on a chain; without one both sides are absent. -/
def make (code : Code) (creationInput : Option Bytes) :
    Option Artifact → Except Defect Comparison
  | none => .ok ⟨.absent, .absent, []⟩
  | some artifact => do
      let (creation, creationNotes) ← creationSide artifact creationInput
      let (runtime, runtimeNotes) ← runtimeSide artifact code
      return ⟨creation, runtime, creationNotes ++ runtimeNotes⟩

end Comparison

end Attest.Chain
