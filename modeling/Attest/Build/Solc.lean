import Attest.Build.Output
import Attest.Build.Workshop
import Attest.Project.Profile
import Attest.Solidity.Pragma

/-! Building through the compiler's own interface, with the settings of a profile and the version that
the profile or the first source asks for. -/

namespace Attest.Build.Solc

/-- The version that a profile asks for. -/
def profileVersion (settings : Members) : Document :=
  let long := Project.setting settings "solc_version" .null
  if long.isGiven then long else Project.setting settings "solc" .null

/-- Installs the compiler that the profile or a source file asks for, and says which it is. -/
def install (settings : Members) (file source : String) : Work Document := do
  let compiler := (← get).compiler
  let version := profileVersion settings
  if version.isGiven then
    Work.callCompiler [.text "install_solc", version]
    match compiler.installError with
    | some details => Work.fail (.installation version.plain details)
    | none => return version
  else
    match Solidity.constraint? source with
    | none => Work.fail (.noVersion file)
    | some constraint =>
        Work.callCompiler [.text "install_solc_pragma", .text constraint]
        match compiler.installError with
        | some details => Work.fail (.installation "" details)
        | none => return compiler.resolved

/-- The contracts of one source. -/
def addSource (ast : Document) (source : String) (output : Output) (m : String × Document) :
    Except Defect Output := do
  let entry ← m.2.table
  return Members.set output (Output.key source m.1) (.object (Members.set entry "ast" ast))

/-- The contracts of all sources in the compiler's output. -/
def collect (compiled : Document) : Except Defect Output := do
  let contracts ← (← compiled.get "contracts" (.object [])).members "items"
  contracts.foldlM
    (fun output m => do
      let sources ← compiled.get "sources" (.object [])
      let ast ← (← sources.get m.1 (.object [])).get "ast" .null
      (← m.2.members "items").foldlM (addSource ast m.1) output)
    []

/-- The directory of the sources. -/
def sourceDirectory (settings : Members) : Except Defect Path :=
  match (Members.get? settings "src").getD (.text "src") with
  | .text s => .ok (Path.ofText s)
  | d => .error (.wrongKind s!"a directory's name must be a text, not '{d.kind}'")

/-- The names of the targets, up to the first that is not there. -/
def targetFiles (t : Tree) : List Document → Except Failure (List String)
  | [] => .ok []
  | .text name :: rest => do
      if !t.isFile (Path.ofText name) then throw (.fault (.missingSource name))
      return name :: (← targetFiles t rest)
  | d :: _ => .error (.defect
      (.wrongKind s!"unsupported operand type(s) for /: 'PosixPath' and '{d.kind}'"))

/-- The files to compile, which must be there: the targets, if there are any, else all sources in
order. -/
def sourceFiles (t : Tree) (settings : Members) (targets : List Document) :
    Except Failure (List String) := do
  if !targets.isEmpty then targetFiles t targets
  else
    let found := t.find (← lift (sourceDirectory settings)) (Path.hasSuffix ".sol")
    targetFiles t (((found.map Path.text).mergeSort fun a b => !decide (b < a)).map .text)

/-- What the compiler is given. -/
def standardInput (files : List String) (settings : Members) : Document :=
  .object [
    ("language", .text "Solidity"),
    ("sources", .object (Members.ofPairs
      (files.map fun name => (name, .object [("urls", .list [.text name])])))),
    ("settings", .object settings)]

/-- Runs the compiler. -/
def run (input : Document) (directory : String) (version : Document) : Work Document := do
  let compiler := (← get).compiler
  Work.callCompiler
    [.text "compile_standard", input, .text directory, .list [.text directory], version]
  Work.pass compiler.delay
  match compiler.refusal with
  | some r => Work.fail (.compilation r.text)
  | none => return compiler.output

/-- Builds files of a project under a profile. -/
def compile (t : Tree) (directory : String) (profile : Document) (targets : List Document) :
    Work Output := do
  let config? ← Work.ofExcept (Project.readConfig t)
  if config?.isNone && !Document.isText Project.defaultProfile profile then
    Work.fail (.noProjectFor profile.literal)
  let profileSettings ← Work.ofExcept (Project.resolveProfile (config?.getD .null) profile)
  match ← Work.ofExcept (sourceFiles t profileSettings targets) with
  | [] => Work.fail .noSources
  | first :: rest =>
      let path := Path.ofText first
      let version ← install profileSettings path.name ((t.text? path).getD "")
      let settings ← Work.ofDefect (Project.compilerSettings t profileSettings)
      let compiled ← run (standardInput (first :: rest) settings) directory version
      Work.ofDefect (collect compiled)

end Attest.Build.Solc
