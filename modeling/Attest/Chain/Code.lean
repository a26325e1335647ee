import Attest.Bytes
import Attest.Verdict

/-! The code that a chain has at an address. -/

namespace Attest.Chain

inductive Code where
  | empty
  | present (code : Bytes)
  /-- The code is not known, for this reason. -/
  | failed (reason : String)
  deriving DecidableEq, Repr

namespace Code

/-- Code without bytes is no code. -/
def ofBytes (bs : Bytes) : Code := if bs.isEmpty then empty else present bs

def status : Code → String
  | empty => "empty"
  | present _ => "present"
  | failed _ => "error"

def bytes : Code → Bytes
  | present bs => bs
  | _ => []

def reason? : Code → Option String
  | failed reason => some reason
  | _ => none

/-- Code is decompiled when there is some and neither side of it matched. -/
def needsDecompiling (c : Code) (creation runtime : Verdict) : Bool :=
  match c with
  | present _ => !creation.isMatch && !runtime.isMatch
  | _ => false

end Code

end Attest.Chain
