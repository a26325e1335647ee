import Attest.Abi.Arguments
import Attest.Immutable
import Attest.Trailer
import Attest.Verdict

/-! Comparing compiled code with code on a chain. The first rule that applies decides: nothing on the
chain, the same bytes, the same bytes before the trailers, the same once immutables are blanked. -/

namespace Attest.Matching

/-- Same cores: a match that is exact when the trailers are the same too. -/
def byCores (a b : Bytes) : Option Verdict :=
  let s := Trailer.split a
  let t := Trailer.split b
  if s.core = t.core then some (if s.trailer = t.trailer then .exact else .upToTrailer) else none

/-- Creation input, divided where compiled code of the given size ends: the code that ran, and the
constructor's arguments. -/
def divide (size : Nat) (input : Bytes) : Bytes × Bytes := (input.take size, input.drop size)

/-- Compiled creation code against the input of the creating transaction. What follows the length
of the compiled code are the constructor's arguments. -/
def creation (compiled onchain : Bytes) (parameters : Option (List Document)) :
    Except Obstacle Verdict :=
  if onchain.isEmpty then .ok .absent
  else if compiled.isEmpty then .ok .different
  else if compiled = onchain then .ok .exact
  else if onchain.length < compiled.length then .ok .different
  else
    let (front, args) := divide compiled.length onchain
    let verdict? := if front = compiled then some .exact else byCores compiled front
    match verdict? with
    | none => .ok .different
    | some v => do
        Abi.checkArguments args parameters
        return v

/-- Compiled runtime code against the code at the address. Immutables are blanked on both sides
before the trailers are cut, for their places count from the start of the code. -/
def runtime (compiled onchain : Bytes) (immutables : List Immutable) : Except Obstacle Verdict :=
  if onchain.isEmpty then .ok .absent
  else if compiled.isEmpty then .ok .different
  else if compiled = onchain then .ok .exact
  else
    match byCores compiled onchain with
    | some v => .ok v
    | none =>
        if immutables.isEmpty then .ok .different
        else do
          let a ← Immutable.maskAll compiled immutables
          let b ← Immutable.maskAll onchain immutables
          if a = b then return .exact else return (byCores a b).getD .different

end Attest.Matching
