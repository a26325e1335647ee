import Attest.Bytes
import Attest.Document.Access

/-! Creation code in the input of a deploying transaction. -/

namespace Attest.Node

/-- The deterministic deployment proxy: its input is a salt and then the creation code. -/
def deploymentProxy : String := "0x4e59b44847b379578588920ca78fbf26c0b4956c"

/-- The immutable factory: its input is a call with a salt and the creation code as arguments. -/
def immutableFactory : String := "0x0000000000ffe8b47b3e2130213b802212439497"

/-- The creation code in a factory call, if its offset and length fit the input. -/
def factoryCode? (input : Bytes) : Option Bytes :=
  if input.length < 68 then none
  else
    let start := 4 + Bytes.toNat (Bytes.slice input 36 32)
    if input.length < start + 32 then none
    else
      let length := Bytes.toNat (Bytes.slice input start 32)
      let code := Bytes.slice input (start + 32) length
      if code.length = length then some code else none

/-- The creation code that input to a known address carries; other input stands for itself. -/
def codeSentTo (address : String) (input : Bytes) : Bytes :=
  let address := address.map Char.toLower
  if address = deploymentProxy then input.drop 32
  else if address = immutableFactory then (factoryCode? input).getD input
  else input

/-- The creation code of a transaction; without a recipient its input is the code. -/
def extractCreationCode (recipient : Document) (input : Bytes) : Except Defect Bytes :=
  match recipient with
  | .null => .ok input
  | .text address => .ok (codeSentTo address input)
  | d => .error (.lacksMember d.kind "lower")

end Attest.Node
