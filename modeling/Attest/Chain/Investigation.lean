import Attest.Chain.Comparison
import Attest.Chain.Entry
import Attest.Engine
import Attest.Node.Fetcher

/-! The work on one chain: ask its node, compare, and give an account of code that matched nothing. -/

namespace Attest.Chain

/-- What a request wants to know of every chain. -/
structure Subject where
  address : String
  artifact : Option Artifact := none
  creationTransaction : Option String := none

/-- What a node told about the subject. -/
structure Findings where
  code : Code
  creationInput : Option Bytes := none
  creationError : Option String := none

namespace Investigation

/-- A part of the findings: faults are recorded, defects go on. -/
def record (found : α → β) (failed : String → β) : Except Node.Problem α → Except Defect β
  | .ok a => .ok (found a)
  | .error (.fault f) => .ok (failed f.describe)
  | .error (.defect d) => .error d

/-- Asks for the code at the subject's address. -/
def findCode (f : Node.Fetcher) (s : Subject) : Activity (Except Defect Code) := do
  return record Code.ofBytes Code.failed (← (f.code s.address).run)

/-- Asks for the creation code, if a transaction is given. -/
def findCreation (f : Node.Fetcher) :
    Option String → Activity (Except Defect (Option Bytes × Option String))
  | none => .done (.ok (none, none))
  | some hash => do
      return record (fun input => (some input, none)) (fun error => (none, some error))
        (← (f.creationInput hash).run)

/-- Collects the findings. -/
def find (f : Node.Fetcher) (s : Subject) : Activity (Except Defect Findings) := do
  match ← findCode f s with
  | .error d => return .error d
  | .ok code =>
      match ← findCreation f s.creationTransaction with
      | .error d => return .error d
      | .ok (input, error) => return .ok ⟨code, input, error⟩

/-- What kept the findings from being complete. -/
def errorText (f : Findings) : Option String :=
  match f.code.reason?.toList ++ f.creationError.toList with
  | [] => none
  | errors => some ("; ".intercalate errors)

/-- The metadata in code that is there. -/
def metadata : Code → Except Defect (Option (List (String × String)))
  | .present code => Trailer.decode (Trailer.split code).trailer
  | _ => .ok none

/-- What findings say without an account of the code: the verdicts, and the entry that tells them. -/
def assess (chain : Int) (artifact : Option Artifact) (f : Findings) :
    Except Defect (Comparison × Entry) := do
  let c ← Comparison.make f.code f.creationInput artifact
  let metadata ← metadata f.code
  return (c,
    { chain, creation := c.creation, runtime := c.runtime, error := errorText f, notes := c.notes
      metadata })

/-- Adds what an engine made of the code. -/
def addAccount (e : Entry) : Except Engine.Problem Decompilation → Except Defect Entry
  | .ok d => .ok { e with decompilation := some d }
  | .error (.fault f) => .ok { e with notes := e.notes ++ ["decompilation: " ++ f.describe] }
  | .error (.defect d) => .error d

/-- Judges findings, with an account of the code where nothing matched. -/
def judge (engine : Engine) (chain : Int) (artifact : Option Artifact) (f : Findings) :
    Activity (Except Defect Entry) :=
  match assess chain artifact f with
  | .error d => .done (.error d)
  | .ok (c, e) =>
      if f.code.needsDecompiling c.creation c.runtime then do
        return addAccount e (← engine.decompile f.code.bytes)
      else .done (.ok e)

/-- The work on one chain. The session with its node is open only while it is asked. -/
def investigate (engine : Engine) (f : Node.Fetcher) (s : Subject) :
    Activity (Except Defect Entry) := do
  match ← (find f s).inSession with
  | .error d => return .error d
  | .ok findings => judge engine f.endpoint.chain s.artifact findings

end Investigation

end Attest.Chain
