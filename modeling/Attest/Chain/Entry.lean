import Attest.Chain.Code
import Attest.Decompilation

/-! What a report says about one chain. -/

namespace Attest.Chain

structure Entry where
  chain : Int
  creation : Verdict
  runtime : Verdict
  error : Option String := none
  notes : List String := []
  metadata : Option (List (String × String)) := none
  decompilation : Option Decompilation := none
  /-- How the request spelt the chain's number, if not as an integer. -/
  spelling : Option Document := none

namespace Entry

def metadataDocument (fields : List (String × String)) : Document :=
  .object (fields.map fun f => (f.1, .text f.2))

def toDocument (e : Entry) : Document :=
  .object [
    ("chain_id", e.spelling.getD (.int e.chain)),
    ("creation", .text e.creation.label),
    ("runtime", .text e.runtime.label),
    ("error", .ofOption .text e.error),
    ("diagnostics", .list (e.notes.map .text)),
    ("metadata", .ofOption metadataDocument e.metadata),
    ("decompilation", .ofOption Decompilation.toDocument e.decompilation)]

/-- The entry of a chain that there is nothing to say about but an error. -/
def failed (chain : Int) (error : String) : Entry :=
  { chain, creation := .absent, runtime := .absent, error := some error }

/-- The entry of a chain that was still at work at the deadline. -/
def cancelled (chain : Int) (deadline : String) : Entry :=
  failed chain s!"Cancelled: request deadline of {deadline}s exceeded"

end Entry

end Attest.Chain
