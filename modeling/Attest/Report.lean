import Attest.Artifact
import Attest.Chain.Survey
import Attest.Json.Writer

/-! Reports: the request, the artifact, and one entry for each chain; as a document, as JSON and as
text. -/

namespace Attest

structure Report where
  request : Option Request
  address : String
  entries : List Chain.Entry := []
  artifact : Option Artifact := none

namespace Report

/-- Identifiers as messages list them. -/
def listed (ids : List Int) : String := (Document.list (ids.map .int)).literal

/-- Puts a report together, provided that it has one entry for each of the chains. -/
def assemble (request : Option Request) (address : String) (chains : List Int)
    (entries : List Chain.Entry) (artifact : Option Artifact) : Except Defect Report :=
  let seen := entries.map (·.chain)
  let wanted := Chain.Survey.ascending chains
  if Chain.Survey.ascending seen = wanted ∧ seen.Nodup then .ok ⟨request, address, entries, artifact⟩
  else
    .error (.badValue
      ("Expected one result per chain " ++ listed wanted ++ ", got " ++ listed seen))

/-- The chains whose runtime code matched. -/
def verifiedChains (r : Report) : List Int :=
  (r.entries.filter (·.runtime.isMatch)).map (·.chain)

def toDocument (r : Report) : Document :=
  .object [
    ("request", .ofOption Request.toDocument r.request),
    ("address", .text r.address),
    ("chains", .list (r.entries.map Chain.Entry.toDocument)),
    ("artifact", .ofOption Artifact.summary r.artifact)]

/-- The report as JSON, provided that it can be written. -/
def toJson (r : Report) (room : Nat) (indent : Json.Indent) : Except Defect String :=
  Json.write room indent r.toDocument

/-! ### As text -/

def chainName (id : Int) : String :=
  ((SupportedChain.find? id).map (·.name)).getD (toString id)

/-- The line that tells a chain's verdicts. -/
def verdictLine (e : Chain.Entry) : String :=
  let mark := if e.runtime.isMatch then "✅" else "❌"
  s!"{mark} {chainName e.chain} ({e.chain}): runtime {e.runtime.label}, creation {e.creation.label}"

def metadataLines : Option (List (String × String)) → List String
  | some (f :: fs) => ["    metadata: " ++ (Chain.Entry.metadataDocument (f :: fs)).literal]
  | _ => []

def accountLines : Option Decompilation → Except Defect (List String)
  | none => .ok []
  | some d => do
      let names ← d.abi.mapM fun f => f.get "name" .null
      let shown := (Document.list names).literal
      return [s!"    decompiled with {d.engine}: {names.length} function(s) {shown}"]

def entryLines (e : Chain.Entry) : Except Defect (List String) := do
  let account ← accountLines e.decompilation
  return [verdictLine e] ++ metadataLines e.metadata ++
    e.error.toList.map ("    error: " ++ ·) ++ e.notes.map ("    note: " ++ ·) ++ account

def artifactLines : Option Artifact → List String
  | none => []
  | some a =>
      let version := if a.compilerVersion.isGiven then a.compilerVersion.plain else "unknown"
      [s!"Built {a.contract.text} with solc {version}"]

/-- The lines of a report. -/
def lines (r : Report) : Except Defect (List String) := do
  return artifactLines r.artifact ++ (← r.entries.mapM entryLines).flatten

end Report

end Attest
