import Attest.Build.Fault
import Attest.Document.Access
import Attest.Project.Tree
import Attest.Toml.Reader

/-! Build profiles of a project, and the compiler settings they stand for. -/

namespace Attest.Project

open Build

def configFile : Path := ["foundry.toml"]

/-- The project's configuration, none without a file. -/
def readConfig (t : Tree) : Except Failure (Option Document) :=
  match t.file? configFile with
  | none => .ok none
  | some s =>
      match Toml.read s with
      | .ok d => .ok (some d)
      | .error .malformed => .error (.fault .unreadableProject)
      | .error (.defect d) => .error (.defect d)

/-- The profile that is always there, and that others are laid over. -/
def defaultProfile : String := "default"

def profilesOf (config : Document) : Except Defect Document :=
  if config.isGiven then config.get "profile" (.object []) else .ok (.object [])

/-- The names among elements; nothing else can be put in order with a name. -/
def namesIn : List Document → Except Defect (List String)
  | [] => .ok []
  | .text s :: ds => return s :: (← namesIn ds)
  | d :: _ => .error (.wrongKind s!"'<' not supported between instances of 'str' and '{d.kind}'")

/-- The names of all profiles, in order. -/
def knownProfiles (profiles : Document) : Except Defect (List String) := do
  let names ← namesIn (← profiles.elements)
  return (defaultProfile :: names).eraseDups.mergeSort fun a b => !decide (b < a)

/-- The settings of a profile over those of the default one. Any value may be given for the name. -/
def resolveProfile (config name : Document) : Except Failure Members := do
  let profiles ← lift (profilesOf config)
  if !Document.isText defaultProfile name then
    if !(← lift (profiles.holds name)) then
      throw (.fault (.unknownProfile name.literal (← lift (knownProfiles profiles))))
  let base ← lift (do (← profiles.get defaultProfile (.object [])).table)
  let own ← lift (do (← profiles.get name.plain (.object [])).table)
  return Members.union base own

def remappingsFile : Path := ["remappings.txt"]

/-- Whether a line of the remappings file says something. -/
def isRemapping (line : String) : Bool := !line.isEmpty && line.front != '#'

/-- Adds the lines that are not there yet. -/
def addLines : List Document → List String → List Document
  | ds, [] => ds
  | ds, line :: lines =>
      if ds.any (Document.isText line) then addLines ds lines
      else addLines (ds ++ [.text line]) lines

/-- The remappings of a profile and then those of the project's file. -/
def remappings (t : Tree) (settings : Members) : Except Defect (List Document) := do
  let own ← ((Members.get? settings "remappings").getD (.list [])).elements
  match t.text? remappingsFile with
  | none => return own
  | some s => return addLines own (((Text.lines s).map Text.trim).filter isRemapping)

/-- What a setting is, or the stand-in. -/
def setting (settings : Members) (name : String) (standIn : Document) : Document :=
  (Members.get? settings name).getD standIn

/-- What the compiler is asked to put out. -/
def outputSelection : Document :=
  .object [("*", .object [
    ("*", .list [
      .text "abi",
      .text "metadata",
      .text "evm.bytecode.object",
      .text "evm.deployedBytecode.object",
      .text "evm.deployedBytecode.immutableReferences"]),
    ("", .list [.text "ast"])])]

/-- Settings in the compiler's own form. -/
def compilerSettings (t : Tree) (settings : Members) : Except Defect Members := do
  let runs ← (setting settings "optimizer_runs" (.int 200)).integer
  let maps ← remappings t settings
  let optimizer : Members := [
    ("enabled", .bool (setting settings "optimizer" (.bool false)).isGiven),
    ("runs", .int runs)]
  let metadata : Members :=
    [("bytecodeHash", setting settings "bytecode_hash" (.text "ipfs"))] ++
      match Members.get? settings "cbor_metadata" with
      | some d => [("appendCBOR", .bool d.isGiven)]
      | none => []
  let evmVersion := setting settings "evm_version" .null
  return [
      ("optimizer", .object optimizer),
      ("outputSelection", outputSelection),
      ("remappings", .list maps),
      ("metadata", .object metadata)] ++
    (if evmVersion.isGiven then [("evmVersion", evmVersion)] else []) ++
    (if (setting settings "via_ir" .null).isGiven then [("viaIR", .bool true)] else [])

end Attest.Project
