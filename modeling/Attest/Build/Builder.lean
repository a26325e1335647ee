import Attest.Build.Checkout
import Attest.Build.Extraction
import Attest.Build.Forge
import Attest.Build.Solc

/-! Builds: clone, check out, compile, find the contract. Every step gets only the time that is left. -/

namespace Attest.Build

/-- The programs that compile a project. -/
inductive Toolchain where
  | forge
  | solc
  deriving DecidableEq, Repr

namespace Toolchain

def label : Toolchain → String
  | forge => "forge"
  | solc => "solc"

/-- The tool of a name. -/
def ofName (name : Document) : Except Defect Toolchain :=
  ([forge, solc].find? fun t => Document.isText t.label name).elim
    (.error (.badValue s!"Unknown build tool {name.literal}")) .ok

/-- Compiles a project with the tool. -/
def compile (tool : Toolchain) (t : Tree) (directory : String) (profile : Document)
    (targets : List Document) (limit : Option Limit) : Work Output :=
  match tool with
  | forge => Forge.compile Forge.longest t directory profile limit
  | solc => Solc.compile t directory profile targets

end Toolchain

/-- How reports name the scratch directory. -/
def scratchName : String := "<scratch>"

/-- The clone inside the scratch directory. -/
def cloneDirectory : String := scratchName ++ "/repo"

/-- What to build. -/
structure Order where
  repository : Document
  commit : String
  contract : ContractReference
  profile : Document

/-- The time left of a timeout that began at `started`; none without a timeout. -/
def timeLeft (timeout : Option Binary64) (started : Seconds) : Work (Option Limit) := do
  match timeout with
  | none => return none
  | some t =>
      match t with
      | .finite .. =>
          let left := (started.after (t.toRat?.getD 0)).since (← get).clock
          if left ≤ 0 then Work.fail (.deadline t.text)
          else return some (.span (.ofRat left))
      | .infinite true => Work.fail (.deadline t.text)
      | t => return some (.span t)

/-- Builds a contract inside a scratch directory. -/
def buildIn (tool : Toolchain) (order : Order) (timeout : Option Binary64) (started : Seconds) :
    Work Artifact := do
  Checkout.clone Checkout.longest order.repository.plain cloneDirectory
    (← timeLeft timeout started)
  Checkout.checkout Checkout.longest cloneDirectory order.commit (← timeLeft timeout started)
  let target ← Work.ofDefect order.contract.path
  let limit ← timeLeft timeout started
  let t := (← get).repository
  let output ← tool.compile t cloneDirectory order.profile [target] limit
  match ← Work.ofDefect (Output.entryOf? output order.contract) with
  | none => Work.fail (.notBuilt order.contract.text)
  | some (_, entry) => Work.ofExcept (readEntry order.contract entry)

/-- Builds a contract; the scratch directory is gone whatever comes of it. -/
def build (tool : Toolchain) (order : Order) (timeout : Option Binary64) : Work Artifact := do
  let started := (← get).clock
  Work.withScratch (buildIn tool order timeout started)

end Attest.Build
