import Attest.Contract
import Attest.Document.Access
import Attest.Immutable

/-! What a build yields: a contract's code before and after deployment, and facts about it. -/

namespace Attest

structure Artifact where
  contract : ContractReference
  creationCode : Bytes
  runtimeCode : Bytes
  abi : List Document
  immutables : List Immutable := []
  /-- How many bytes of the runtime code are its trailer. -/
  metadataLength : Int := 0
  compilerVersion : Document := .null

namespace Artifact

/-- The variables to blank, one a name. -/
def immutableMap (a : Artifact) : Except Defect (List Immutable) := Immutable.resolve a.immutables

/-- The parameters of the first constructor among the entries, none if there is no constructor. -/
def parametersIn : List Document → Except Defect (List Document)
  | [] => .ok []
  | entry :: rest => do
      let type ← entry.get "type" .null
      if Document.isText "constructor" type then (← entry.get "inputs" (.list [])).elements
      else parametersIn rest

/-- The constructor's parameters, unknown when the interface is. -/
def constructorInputs (a : Artifact) : Except Defect (Option (List Document)) :=
  if a.abi.isEmpty then .ok none else (parametersIn a.abi).map some

/-- What a reader needs to trust the verdicts, without the codes. -/
def summary (a : Artifact) : Document :=
  .object [
    ("contract", .text a.contract.text),
    ("compiler_version", a.compilerVersion),
    ("abi", .list a.abi),
    ("metadata_length", .int a.metadataLength),
    ("immutables", .list (a.immutables.map (·.name)))]

end Artifact

end Attest
