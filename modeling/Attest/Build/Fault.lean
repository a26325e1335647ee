import Attest.Defect
import Attest.Text.Blank

/-! Why a build fails, at which stage, and in which words. -/

namespace Attest.Build

/-- The parts of a build, as reports name them. -/
inductive Stage where
  | clone
  | checkout
  | profile
  | compile
  | lookup
  deriving DecidableEq, Repr

namespace Stage

def label : Stage → String
  | clone => "clone"
  | checkout => "checkout"
  | profile => "profile"
  | compile => "compile"
  | lookup => "contract_not_found"

def ofLabel? (s : String) : Option Stage :=
  [clone, checkout, profile, compile, lookup].find? (·.label == s)

end Stage

/-- `details` is what the program at fault said; contracts are given as their text and profiles as
quoted. -/
inductive Fault where
  | clone (url details : String)
  | checkout (commit details : String)
  | unknownCommit (commit details : String)
  | submodules (details : String)
  | unreadableProject
  | unknownProfile (profile : String) (known : List String)
  | noProject
  | noProjectFor (profile : String)
  | forgeMissing (details : String)
  | forgeFailed (details : String)
  | compilation (details : String)
  | noVersion (file : String)
  | installation (version details : String)
  | unlinked (contract : String)
  | deadline (timeout : String)
  | noSources
  | missingSource (name : String)
  | noBytecode (contract : String)
  | notBuilt (contract : String)
  deriving DecidableEq, Repr

namespace Fault

def stage : Fault → Stage
  | clone .. | submodules .. => .clone
  | checkout .. | unknownCommit .. => .checkout
  | unreadableProject | unknownProfile .. | noProject | noProjectFor .. => .profile
  | forgeMissing .. | forgeFailed .. | compilation .. | noVersion .. | installation .. | unlinked .. |
    deadline .. => .compile
  | noSources | missingSource .. | noBytecode .. | notBuilt .. => .lookup

def summary : Fault → String
  | clone url _ => s!"Could not clone {url}"
  | checkout commit _ => s!"Could not check out {commit}"
  | unknownCommit commit _ => s!"Commit {commit} not found"
  | submodules _ => "Could not fetch submodules"
  | unreadableProject => "Unable to parse foundry.toml"
  | unknownProfile profile known =>
      s!"Unknown build profile {profile}, available: " ++ ", ".intercalate known
  | noProject => "Not a foundry project: foundry.toml is missing"
  | noProjectFor profile => s!"No foundry.toml to resolve profile {profile}"
  | forgeMissing _ => "forge build could not run"
  | forgeFailed _ => "forge build failed"
  | compilation _ => "Compilation failed"
  | noVersion file => s!"No solc version in profile and no pragma in {file}"
  | installation version _ => Text.trim s!"Failed to install solc {version}"
  | unlinked contract => s!"{contract} needs linked libraries, which are not supported"
  | deadline timeout => s!"Build did not finish within the {timeout}s deadline"
  | noSources => "No Solidity sources to compile"
  | missingSource name => s!"Source file {name} does not exist"
  | noBytecode contract => s!"{contract} has no bytecode (abstract contract or interface?)"
  | notBuilt contract => s!"{contract} not found in build output"

def details : Fault → String
  | clone _ d | checkout _ d | unknownCommit _ d | submodules d | forgeMissing d | forgeFailed d |
    compilation d | installation _ d => d
  | _ => ""

end Fault

/-- A stage, what failed there, and on lines of their own the details, if there are any. -/
def report (stage : Stage) (summary details : String) : String :=
  stage.label ++ ": " ++ summary ++ (if details.isEmpty then "" else "\n" ++ details)

def Fault.message (f : Fault) : String := report f.stage f.summary f.details

/-- A build ends with a fault of its own kinds, or with a defect. -/
inductive Failure where
  | fault (f : Fault)
  | defect (d : Defect)
  deriving DecidableEq, Repr

/-- Lets a defect end a build. -/
def lift (r : Except Defect α) : Except Failure α := r.mapError Failure.defect

end Attest.Build
