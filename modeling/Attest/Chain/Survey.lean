import Attest.Chain.Investigation
import Attest.Request
import Attest.Schedule

/-! The work on all chains of a request, with one entry for each of them. -/

namespace Attest.Chain

namespace Survey

/-- Identifiers in ascending order. -/
def ascending (ids : List Int) : List Int := ids.mergeSort fun a b => decide (a ≤ b)

/-- The chains that a request is about: all that are configured, or the one whose number is given. -/
def targets (s : Settings) (chain : Document) : Except Request.Refusal (List Int) :=
  match chain with
  | .null =>
      if s.chains.isEmpty then Request.refuse .noChains
      else .ok (ascending (s.chains.map (·.chain)))
  | d => do
      let key ← d.asKey.mapError .defect
      match s.chains.find? fun e => key.isSameKey (.int e.chain) with
      | some e => return [e.chain]
      | none => Request.refuse (.unknownChain d.plain)

/-- The number of a chain as it was given, unless that is an integer anyway. -/
def spelling? : Document → Option Document
  | .null | .int _ => none
  | d => some d

/-- The entry of a chain: what it came to, or that it was struck. -/
def entryFor (deadline : String) (finished : List (Int × Except Defect Entry)) (chain : Int) : Entry :=
  match finished.lookup chain with
  | some (.ok e) => e
  | some (.error d) => .failed chain d.describe
  | none => .cancelled chain deadline

/-- How often the work on one chain can wait: two questions with their retries, and an engine. -/
def waitsPerChain (s : Settings) : Nat := 4 * ((s.rpcRetries + 1).toNat + 1) + 1

/-- The entries of all chains, and the state that the work on them ended in. -/
structure Result where
  entries : List Entry
  final : Schedule.State (Except Defect Entry)

/-- The jobs of some chains. -/
def jobs (s : Settings) (engine : Engine) (subject : Subject) (chains : List Int) :
    List (Schedule.Job (Except Defect Entry)) :=
  chains.filterMap fun id =>
    (s.endpoint? id).map fun e =>
      ⟨id, Investigation.investigate engine (.ofSettings e s) subject⟩

/-- Carries out jobs within the limits of settings, from some time on, up to a deadline. -/
def schedule (s : Settings) (clock : Seconds) (deadline : Binary64) (outside : Outside)
    (jobs : List (Schedule.Job α)) : Schedule.State α :=
  Schedule.run s.maxInFlight.toNat (waitsPerChain s) clock (.after clock deadline) outside jobs

/-- Surveys the chains of a request from some time on, up to a deadline. -/
def run (s : Settings) (engine : Engine) (subject : Subject) (chain : Document) (clock : Seconds)
    (deadline : Binary64) (outside : Outside) : Except Request.Refusal Result := do
  let chains ← targets s chain
  if s.maxInFlight < 0 then
    throw (.defect (.badValue "Semaphore initial value must be >= 0"))
  let final := schedule s clock deadline outside (jobs s engine subject chains)
  let entries := chains.map (entryFor deadline.text final.finished)
  return ⟨entries.map fun e => { e with spelling := spelling? chain }, final⟩

end Survey

end Attest.Chain
