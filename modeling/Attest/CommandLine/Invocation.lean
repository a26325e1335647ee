import Attest.CommandLine.Grammar
import Attest.Verifier

/-! The command line: which command with which arguments, what it prints, and its exit status. -/

namespace Attest.CommandLine

def programName : String := "coverify"

def helpOption : Spec := ⟨["-h", "--help"], .help, false⟩

/-- The options and the command before a command's own arguments. -/
def mainGrammar : Grammar where
  options := [helpOption, ⟨["-v", "--verbose"], .flag, false⟩]
  positions := [⟨"command", some ["verify", "inspect"], true⟩]

/-- Options that both commands have. -/
def sharedOptions : List Spec := [
  ⟨["--chain"], .number (Chain.Survey.ascending (supportedChains.map (·.id))), false⟩,
  ⟨["--decompiler"], .choice [Engine.listing.name, Engine.heimdall.name], false⟩,
  ⟨["--json"], .flag, false⟩]

def verifyGrammar : Grammar where
  options := [
    helpOption,
    ⟨["--repo"], .text, true⟩,
    ⟨["--commit"], .text, true⟩,
    ⟨["--contract"], .text, true⟩,
    ⟨["--address"], .text, true⟩,
    ⟨["--creation-tx"], .text, false⟩,
    ⟨["--profile"], .text, false⟩,
    ⟨["--build-tool"], .choice Settings.buildTools, false⟩] ++ sharedOptions
  positions := []

def inspectGrammar : Grammar where
  options := helpOption :: sharedOptions
  positions := [⟨"address", none, false⟩]

/-- What is to be done. -/
inductive Command where
  | verify (draft : Draft) (buildTool : Option String)
  | inspect (address : String)

structure Invocation where
  command : Command
  /-- The number of a chain, or null for all. -/
  chain : Document
  /-- The name of an engine. -/
  engine : Document
  json : Bool

/-- Why a command line is turned down, and which part of the program says so. -/
structure UsageFault where
  program : String
  message : String
  deriving DecidableEq, Repr

def UsageFault.text (f : UsageFault) : String := f.program ++ ": error: " ++ f.message

/-- Help was asked for, or the command line is faulty. -/
inductive Refusal where
  | help
  | usage (f : UsageFault)

def Refusal.ofStop (program : String) : Stop → Refusal
  | .help => help
  | .fault message => usage ⟨program, message⟩

namespace Reading

/-- The last value given to an option. -/
def value? (r : Reading) (key : String) : Option Value := r.values.reverse.lookup key

def text? (r : Reading) (key : String) : Option String :=
  match r.value? key with
  | some (.text s) => some s
  | _ => none

/-- What an option holds, or the stand-in when it was not given. -/
def document (r : Reading) (key : String) (standIn : Document) : Document :=
  match r.value? key with
  | none => standIn
  | some .flag => .bool true
  | some (.text s) => .text s
  | some (.number i) => .int i
  | some (.words ws) => .list (ws.map .text)

def words (r : Reading) (key : String) : List String :=
  match r.value? key with
  | some (.words ws) => ws
  | _ => []

end Reading

/-- A contract is written as one text; what was given instead names none. -/
def contractOf : Document → GivenContract
  | .text s => .written s
  | d => .reference (.other d)

def commandOf (name : String) (r : Reading) : Command :=
  if name = "inspect" then .inspect ((r.text? "address").getD "")
  else
    .verify
      { repository := r.document "--repo" .null
        commit := r.document "--commit" .null
        contract := contractOf (r.document "--contract" .null)
        address := r.document "--address" .null
        creationTransaction := r.document "--creation-tx" .null
        profile := r.document "--profile" (.text Project.defaultProfile)
        chain := r.document "--chain" .null }
      (r.text? "--build-tool")

/-- Reads a command line. Left-over words of either part count only when all else is in order. -/
def read (arguments : List String) : Except Refusal Invocation := do
  let main ← (mainGrammar.read arguments).mapError (.ofStop programName)
  let name := (main.words "command").head?.getD ""
  let grammar := if name = "inspect" then inspectGrammar else verifyGrammar
  let own ← (grammar.read (main.words "command").tail).mapError (.ofStop (programName ++ " " ++ name))
  match main.extras ++ own.extras with
  | [] =>
      return ⟨commandOf name own, own.document "--chain" .null,
        own.document "--decompiler" (.text Engine.listing.name), (own.value? "--json").isSome⟩
  | extras =>
      throw (.usage ⟨programName, "unrecognized arguments: " ++ " ".intercalate extras⟩)

/-! ### Running -/

/-- What a run prints, and its exit status. -/
structure Output where
  status : Nat
  stdout : String := ""
  stderr : String := ""
  deriving DecidableEq, Repr

/-- Everything matched, something did not, or there was no report. -/
def success : Nat := 0
def mismatch : Nat := 1
def noReport : Nat := 2

def Output.failure (message : String) : Output :=
  ⟨noReport, "", "❌ VERIFICATION FAILED: " ++ message ++ "\n"⟩

/-- The status of a verification: that every chain's runtime code matched. -/
def status (command : Command) (r : Report) : Nat :=
  match command with
  | .inspect _ => success
  | .verify .. => if r.entries.all (·.runtime.isMatch) then success else mismatch

/-- How wide a level of a printed report is set in. -/
def indentWidth : Nat := 2

/-- A report as it is printed. What a report holds was read within the limits of writing, from further
up the stack, so printing JSON is taken to have room for it. -/
def printed (json : Bool) (r : Report) : Except Defect String :=
  if json then .ok (Json.render (some indentWidth) r.toDocument ++ "\n")
  else return String.join ((← r.lines).map (· ++ "\n"))

/-- What comes of a verification. Defects are no part of the output. -/
def conclude (i : Invocation) (result : Except Failure Report) : Except Defect Output :=
  match result with
  | .error (.request f) => .ok (.failure f.message)
  | .error (.build f) => .ok (.failure f.message)
  | .error (.defect d) => .error d
  | .ok report => do return ⟨status i.command report, ← printed i.json report, ""⟩

/-- The chains that settings are wanted for, none for all. -/
def Invocation.wanted (i : Invocation) : Option (List Int) :=
  match i.chain with
  | .int chain => some [chain]
  | _ => none

/-- Settings for an invocation, in which the command line goes before the environment. -/
def settingsFor (i : Invocation) (s : Surroundings) : Except SettingsFault Settings := do
  let settings ← Settings.load s i.wanted
  match i.command with
  | .verify _ (some tool) => return { settings with buildTool := tool }
  | _ => return settings

/-- Carries out a command. -/
def perform (i : Invocation) (v : Verifier) (world : World) : Except Failure Report :=
  match i.command with
  | .inspect address => (v.inspect (.text address) i.chain world).result
  | .verify draft _ =>
      match Request.ofDraft draft with
      | .error f => .error (.ofRequest f)
      | .ok request => (v.verify request world).result

/-- Runs an invocation. -/
def run (i : Invocation) (s : Surroundings) (world : World) : Except Defect Output :=
  match settingsFor i s with
  | .error f => .ok (.failure f.message)
  | .ok settings => do
      let engine ← Engine.ofName i.engine
      let verifier ← Verifier.make settings engine
      conclude i (perform i verifier world)

end Attest.CommandLine
