import Attest.Build.Builder
import Attest.Report

/-! Verification: build the contract once, then survey the chains in the time that is left.

Some of what a run can meet is left out throughout. Questions to nodes and the work of engines never
wait for a worker to carry them out; two for each chain are enough for that, since a question that is
given up keeps its worker. Files are texts, and bytes that spell none cannot be written down. No path leads
above a clone, to the directory that holds nothing but the clone. A time that is no number ends at once,
whatever a list of timers makes of it. Printing a report finds room for all its levels. -/

namespace Attest

/-- The world that a verification works in. -/
structure World where
  workshop : Build.Workshop := {}
  outside : Outside := {}

/-- Why there is no report. -/
inductive Failure where
  | request (f : RequestFault)
  | build (f : Build.Fault)
  | defect (d : Defect)

namespace Failure

def ofBuild : Build.Failure → Failure
  | .fault f => build f
  | .defect d => defect d

def ofRequest : Request.Refusal → Failure
  | .fault f => request f
  | .defect d => defect d

end Failure

structure Verifier where
  settings : Settings
  toolchain : Build.Toolchain
  engine : Engine

/-- What came of a verification, and what was done on the way. -/
structure Verification where
  result : Except Failure Report
  commands : List Tool.Command
  events : List Event

namespace Verifier

def make (settings : Settings) (engine : Engine) : Except Defect Verifier := do
  return ⟨settings, ← Build.Toolchain.ofName (.text settings.buildTool), engine⟩

/-- Whether a build that began and ended at given times broke the deadline. One that ends together
with the deadline does not, and what is no number is never broken. -/
def isLate (deadline : Binary64) (started ended : Seconds) : Bool :=
  match deadline with
  | .finite .. =>
      decide ((started.after (deadline.toRat?.getD 0)).after Seconds.resolution ≤ ended)
  | .infinite negative => negative
  | .undefined => false

/-- When the survey begins after a build that kept the deadline. -/
def resumption (deadline : Binary64) (started ended : Seconds) : Seconds :=
  match Expiry.after started deadline with
  | .at d => if d < ended then d else ended
  | _ => ended

/-- The time that is left of a deadline. -/
def remaining (deadline : Binary64) (elapsed : Seconds) : Binary64 :=
  match deadline with
  | .finite .. => .ofRat (Seconds.clamp (deadline.toRat?.getD 0 - elapsed))
  | d => d

/-- Builds what a request asks for within the deadline. -/
def build (v : Verifier) (r : Request) (w : Build.Workshop) :
    Except Failure Artifact × Build.Workshop :=
  let order : Build.Order := ⟨r.repository, r.commit, r.contract, r.profile⟩
  let deadline := v.settings.deadline
  let (artifact, after) := (Build.build v.toolchain order (some deadline)).run.run w
  if isLate deadline w.clock after.clock then
    (.error (.build (.deadline deadline.text)), after)
  else (artifact.mapError Failure.ofBuild, after)

/-- The commands among events. -/
def commandsIn (events : List Event) : List Tool.Command :=
  events.filterMap fun e => match e.deed with
    | .ran c => some c
    | _ => none

/-- Puts the report together from a survey. -/
def conclude (request : Option Request) (address : String) (chains : List Int)
    (artifact : Option Artifact) (before : List Tool.Command)
    (survey : Except Request.Refusal Chain.Survey.Result) : Verification :=
  match survey with
  | .error f => ⟨.error (.ofRequest f), before, []⟩
  | .ok s =>
      let report := Report.assemble request address chains s.entries artifact
      ⟨report.mapError .defect, before ++ commandsIn s.final.log, s.final.log⟩

/-- Verifies a request. A chain that is not configured is refused before anything is built. -/
def verify (v : Verifier) (r : Request) (world : World) : Verification :=
  match Chain.Survey.targets v.settings r.chain with
  | .error f => ⟨.error (.ofRequest f), [], []⟩
  | .ok chains =>
      let started := world.workshop.clock
      let (built, workshop) := v.build r world.workshop
      match built with
      | .error f => ⟨.error f, workshop.commands, []⟩
      | .ok artifact =>
          let deadline := v.settings.deadline
          let now := resumption deadline started workshop.clock
          let subject : Chain.Subject := ⟨r.address, some artifact, r.creationTransaction⟩
          conclude (some r) r.address chains (some artifact) workshop.commands
            (Chain.Survey.run v.settings v.engine subject r.chain now
              (remaining deadline (now.since started)) world.outside)

/-- Looks at the code at an address without anything to compare it with. -/
def inspect (v : Verifier) (address chain : Document) (world : World) : Verification :=
  match Request.readAddress address with
  | .error f => ⟨.error (.ofRequest f), [], []⟩
  | .ok address =>
      match Chain.Survey.targets v.settings chain with
      | .error f => ⟨.error (.ofRequest f), [], []⟩
      | .ok chains =>
          conclude none address chains none []
            (Chain.Survey.run v.settings v.engine ⟨address, none, none⟩ chain world.workshop.clock
              v.settings.deadline world.outside)

end Verifier

end Attest
