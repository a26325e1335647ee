import Attest.Verifier

/-! Sessions: a description, as a document, of the world that a run meets: the environment, what a clone
contains, and what programs and nodes will answer. What is not described is empty. Its clocks stand
still while an engine works. -/

namespace Attest

/-- A described world. -/
structure Session where
  surroundings : Surroundings := {}
  world : World := {}

namespace Session

def member (ms : Members) (name : String) : Document := (Members.get? ms name).getD .null

def textOf : Document → String
  | .text s => s
  | _ => ""

def intOf (standIn : Int) : Document → Int
  | .int i => i
  | _ => standIn

def listOf : Document → List Document
  | .list xs => xs
  | _ => []

def membersOf : Document → Members
  | .object ms => ms
  | _ => []

/-- A number as a double. -/
def double? : Document → Option Binary64
  | .int i => some (.ofInt i)
  | .float x => some x
  | _ => none

/-- A number of seconds. -/
def seconds (d : Document) : Seconds := ((double? d).bind Binary64.toRat?).getD 0

/-- Texts by name. -/
def texts (d : Document) : List (String × String) :=
  (membersOf d).map fun m => (m.1, textOf m.2)

def mishap? (ms : Members) : Option Tool.Mishap :=
  match member ms "raise" with
  | .text kind => some ⟨kind, textOf (member ms "message")⟩
  | _ => none

def step (d : Document) : Tool.Step :=
  let ms := membersOf d
  { exit := intOf 0 (member ms "rc")
    stdout := textOf (member ms "stdout")
    stderr := textOf (member ms "stderr")
    delay := seconds (member ms "delay")
    mishap := mishap? ms
    files := texts (member ms "files") }

def steps (d : Document) : List Tool.Step := (listOf d).map step

def refusal (ms : Members) : Build.Refusal :=
  let standard : Build.Refusal := {}
  { message := match member ms "message" with
      | .text s => s
      | _ => standard.message
    command := (listOf (member ms "command")).map Document.plain
    code := member ms "return_code"
    stdout := member ms "stdout_data"
    stderr := member ms "stderr_data" }

def compiler (d : Document) : Build.Compiler :=
  let ms := membersOf d
  let standard : Build.Compiler := {}
  { resolved := (Members.get? ms "pragma_version").getD standard.resolved
    installError := match member ms "install_error" with
      | .object error => some (textOf (member error "message"))
      | _ => none
    output := (Members.get? ms "output").getD standard.output
    refusal := match member ms "error" with
      | .object error => some (refusal error)
      | _ => none
    delay := seconds (member ms "delay") }

/-- Kinds of mishap that count as a failed connection. -/
def connectionKinds : List String := ["ConnectionError", "Timeout", "RequestException"]

def reply (ms : Members) : Node.Reply :=
  match mishap? ms with
  | some m => if connectionKinds.contains m.kind then .unreachable m.message else .broken m.defect
  | none =>
      let body := match member ms "text" with
        | .text s => Node.Body.raw s
        | _ => .document (member ms "json")
      .answered (intOf 200 (member ms "status")) (textOf (member ms "reason")) body

def response (d : Document) : Node.Response :=
  let ms := membersOf d
  ⟨seconds (member ms "delay"), reply ms⟩

def responses (d : Document) : List Node.Response := (listOf d).map response

def surroundingsOf (ms : Members) : Surroundings where
  environment := texts (member ms "environ")
  keyring :=
    if (member ms "keyring_error").isGiven then .locked else .entries (texts (member ms "keyring"))

def worldOf (ms : Members) : World where
  workshop :=
    { git := steps (member ms "git")
      forge := steps (member ms "forge")
      compiler := compiler (member ms "solc")
      repository := .ofFiles (texts (member ms "files")) }
  outside :=
    { nodes := (membersOf (member ms "rpc")).map fun m => (m.1, responses m.2)
      heimdall := steps (member ms "heimdall")
      clocksStop := true }

def ofMembers (ms : Members) : Session := ⟨surroundingsOf ms, worldOf ms⟩

end Session

end Attest
