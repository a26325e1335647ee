import Attest.Defect
import Attest.Document

/-! What can go wrong between a chain and the one who asks about it. -/

namespace Attest.Node

/-- Why a call gave no result. -/
inductive CallFault where
  | unreachable (method details : String)
  | overloaded (method : String) (status : Int)
  | refused (method : String) (status : Int) (reason url : String)
  | malformedReply (method : String)
  /-- The node reported an error of its own, which may pass. -/
  | reported (method details : String) (transient : Bool)
  | timedOut (method timeout : String)
  | malformed (what shown : String)
  deriving DecidableEq, Repr

namespace CallFault

def message : CallFault → String
  | unreachable method details => s!"{method} failed: {details}"
  | overloaded method status => s!"{method} failed: HTTP {status}"
  | refused method status reason url =>
      s!"{method} failed: {status} Client Error: {reason} for url: {url}"
  | malformedReply method => s!"{method} returned a malformed response"
  | reported method details _ => s!"{method} failed: {details}"
  | timedOut method timeout => s!"{method} timed out after {timeout}s"
  | malformed what shown => s!"Malformed {what}: {shown}"

/-- Whether asking again may help. -/
def transient : CallFault → Bool
  | refused .. => false
  | reported _ _ transient => transient
  | _ => true

end CallFault

/-- Why a question about a chain has no answer. -/
inductive Fault where
  | call (f : CallFault)
  | unknownTransaction (hash : String)
  | pendingTransaction (hash : String)
  deriving DecidableEq, Repr

namespace Fault

def label : Fault → String
  | call _ => "RpcError"
  | unknownTransaction _ => "TxNotFound"
  | pendingTransaction _ => "TxPending"

def message : Fault → String
  | call f => f.message
  | unknownTransaction hash => s!"Transaction {hash} not found"
  | pendingTransaction hash => s!"Transaction {hash} is not mined yet"

def describe (f : Fault) : String := f.label ++ ": " ++ f.message

end Fault

/-- What ends a question: a fault, which is recorded for its chain, or a defect. -/
inductive Problem where
  | fault (f : Fault)
  | defect (d : Defect)
  deriving DecidableEq, Repr

end Attest.Node
