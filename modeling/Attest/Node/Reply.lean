import Attest.Defect
import Attest.Json.Reader
import Attest.Time

/-! What comes back when a node is asked. -/

namespace Attest.Node

/-- A question to a node. -/
structure Call where
  method : String
  parameters : Document

/-- The body that carries a call. -/
def Call.payload (c : Call) (id : Nat) : Document :=
  .object [
    ("jsonrpc", .text "2.0"), ("method", .text c.method), ("params", c.parameters), ("id", .int id)]

/-- The body of an answer, as text or already as a document. -/
inductive Body where
  | document (d : Document)
  | raw (s : String)

/-- The document in a body, if it holds one. -/
def Body.read? : Body → Except Defect (Option Document)
  | document d => .ok (some d)
  | raw s => Json.read? s

inductive Reply where
  | answered (status : Int) (reason : String) (body : Body)
  /-- The connection failed. -/
  | unreachable (message : String)
  /-- The asking itself broke down. -/
  | broken (d : Defect)

/-- A reply and the time it takes. -/
structure Response where
  delay : Seconds := 0
  reply : Reply

/-- A node that has no more to say cannot be reached. -/
def Response.silence : Response := ⟨0, .unreachable "no scripted response"⟩

end Attest.Node
