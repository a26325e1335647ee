import Attest.Build.Output
import Attest.Build.Workshop
import Attest.Json.Reader
import Attest.Project.Profile

/-! Building with forge: one command, and then the artifacts that it leaves. -/

namespace Attest.Build.Forge

open Tool

/-- The longest that the command may take. -/
def longest : Limit := .whole 1800

/-- The directory for build records, which are no artifacts. -/
def recordsDirectory : String := "build-info"

def noMembers : Document := .object []

/-- An artifact file as an entry of the output. -/
def entryOf (artifact : Members) (bytecode : Document) : Except Defect Document := do
  let part (name : String) (standIn : Document) : Document :=
    (Members.get? artifact name).getD standIn
  let deployed := part "deployedBytecode" noMembers
  let creation ← bytecode.get "object" (.text "")
  let runtime ← deployed.get "object" (.text "")
  let references ← deployed.get "immutableReferences" noMembers
  return .object [
    ("abi", part "abi" (.list [])),
    ("evm", .object [
      ("bytecode", .object [("object", creation)]),
      ("deployedBytecode", .object [("object", runtime), ("immutableReferences", references)])]),
    ("metadata", part "metadata" .null),
    ("ast", part "ast" .null)]

/-- The sources and names that an artifact says it was compiled from. -/
def target (artifact : Members) : Except Defect Document := do
  let metadata := (Members.get? artifact "metadata").getD .null
  match if metadata.isGiven then metadata else noMembers with
  | .object ms =>
      let settings := (Members.get? ms "settings").getD noMembers
      settings.get "compilationTarget" noMembers
  | _ => return noMembers

/-- The keys of an artifact: those of its target, else its file's name and that of the file's
directory, which for a file of the project's own directory is that one. -/
def keysOf (project path : Path) (target : Document) : Except Defect (List String) := do
  if target.isGiven then
    return (← target.members "items").map fun m => Output.key m.1 m.2.plain
  else
    return [Output.key (Path.name (project ++ path.dropLast)) (Path.stem path.name)]

/-- Adds the artifact in a file; what is no artifact is skipped. -/
def addFile (t : Tree) (project : Path) (output : Output) (path : Path) : Except Defect Output := do
  if path.contains recordsDirectory then return output
  let text ← t.read project.text path
  match ← Json.read? text with
  | some (.object ms) =>
      match Members.get? ms "bytecode" with
      | none => return output
      | some bytecode =>
          let entry ← entryOf ms bytecode
          let keys ← keysOf project path (← target ms)
          return keys.foldl (fun o k => Members.set o k entry) output
  | _ => return output

/-- All artifacts of a project below one of its directories. -/
def collect (t : Tree) (project directory : Path) : Except Defect Output :=
  (t.find directory (Path.hasSuffix ".json")).foldlM (addFile t project) []

/-- The directory of the artifacts. -/
def outputDirectory (settings : Members) : Except Defect Path :=
  match (Members.get? settings "out").getD (.text "out") with
  | .text s => .ok (Path.ofText s)
  | d => .error (.wrongKind s!"a directory's name must be a text, not '{d.kind}'")

/-- Builds a project under a profile. -/
def compile (longest : Limit) (t : Tree) (directory : String) (profile : Document)
    (limit : Option Limit) : Work Output := do
  match ← Work.ofExcept (Project.readConfig t) with
  | none => Work.fail .noProject
  | some config =>
      let settings ← Work.ofExcept (Project.resolveProfile config profile)
      let limit := (limit.map fun l => l.shorter longest).getD longest
      match ← Work.runForge
          ⟨["forge", "build", "--skip", "test", "script"], limit, some directory, some profile.plain⟩ with
      | .unavailable details => Work.fail (.forgeMissing details)
      | .broken d => throw (.defect d)
      | .exited code stdout stderr =>
          if code ≠ 0 then Work.fail (.forgeFailed (Outcome.complaint stdout stderr))
          else Work.ofDefect (do collect t (Path.ofText directory) (← outputDirectory settings))

end Attest.Build.Forge
