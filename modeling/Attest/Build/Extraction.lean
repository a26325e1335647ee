import Attest.Artifact
import Attest.Build.Fault
import Attest.Json.Reader
import Attest.Solidity.Declarations
import Attest.Trailer

/-! The artifact of a contract from its entry in the build output. -/

namespace Attest.Build

/-- A part that is given, or an empty text. -/
def givenOr (d : Document) (standIn : Document) : Document := if d.isGiven then d else standIn

/-- The code that an entry holds in one of its parts. -/
def codeText (evm : Document) (part : String) : Except Defect Document := do
  let code ← (← evm.get part (.object [])).get "object" (.text "")
  return givenOr code (.text "")

/-- What stands in code for the address of a library that was not linked. -/
def linkMark : String := "__"

def decodeCode (d : Document) : Except Defect Bytes :=
  match d with
  | .text s => (Hex.decode s).mapError fun f => .badValue f.message
  | d => .error (.lacksMember d.kind "startswith")

/-! ### Immutable variables -/

/-- The place of a reported variable in the order of the report. -/
inductive Rank where
  | number (n : Int)
  | text (s : String)

/-- Ids that are numerals are ranked as numbers, others as texts. -/
def rank (id : Document) : Except Defect Rank :=
  let s := id.plain
  if Text.isDigits s.toList then
    return .number (← Document.integerIn s)
  else .ok (.text s)

def Rank.before : Rank → Rank → Bool
  | number a, number b => decide (a ≤ b)
  | text a, text b => !decide (b < a)
  | _, _ => true

def Rank.isNumber : Rank → Bool
  | number _ => true
  | text _ => false

/-- Ids in order, which those of both ranks together have none. -/
def sortIds (ids : List Document) : Except Defect (List Document) := do
  let ranked ← ids.mapM fun id => do return (← rank id, id)
  if ranked.any (·.1.isNumber) && ranked.any (!·.1.isNumber) then
    .error (.wrongKind "'<' not supported between instances of 'str' and 'int'")
  else return (ranked.mergeSort fun a b => a.1.before b.1).map (·.2)

/-- What is reported of an id. A list answers only to its own positions. -/
def reported (references id : Document) : Except Defect Document :=
  match references with
  | .object ms =>
      match Members.get? ms id.plain with
      | some d => .ok d
      | none => .error (.missingKey id.literal)
  | .list xs =>
      match id.integral? with
      | some i =>
          let place := if i < 0 then xs.length + i else i
          match if place < 0 then none else xs[place.toNat]? with
          | some d => .ok d
          | none => .error (.foreign "IndexError" "list index out of range")
      | none => .error (.wrongKind s!"list indices must be integers or slices, not {id.kind}")
  | _ => .error (.wrongKind s!"string indices must be integers, not '{id.kind}'")

def rangeOf (d : Document) : Except Defect Range := do
  let start ← d.member "start"
  let length ← d.member "length"
  return .ofDocument (.list [start, length])

/-- The declared name of an id, or the id itself; it must be fit for a set of names. -/
def nameOf (names : Solidity.Names) (id : Document) : Except Defect Document :=
  (givenOr ((Members.get? names id.plain).getD .null) (.text id.plain)).asKey

/-- A name that others have too gets its id behind a mark. -/
def distinctName (used : List Document) (name : Document) (id : String) : Document :=
  if used.any (Document.isSameKey name) then .text (name.plain ++ "#" ++ id) else name

/-- The variables of the given ids, each under a name that none before it has. -/
def immutablesFrom (names : Solidity.Names) (references : Document) :
    (used : List Document) → List Document → Except Defect (List Immutable)
  | _, [] => .ok []
  | used, id :: ids => do
      let name := distinctName used (← nameOf names id) id.plain
      let ranges ← (← (← reported references id).elements).mapM rangeOf
      return ⟨name, ranges⟩ :: (← immutablesFrom names references (name :: used) ids)

/-- The variables that a report refers to, in the order of their ids. -/
def immutablesIn (names : Solidity.Names) (references : Document) :
    Except Defect (List Immutable) := do
  immutablesFrom names references [] (← sortIds (← references.elements))

/-! ### Facts about the build -/

/-- The compiler's version, which metadata tells as an object or as the text of one. -/
def compilerVersion (metadata : Document) : Except Defect Document := do
  let metadata ← match metadata with
    | .text s => pure ((← Json.read? s).getD .null)
    | d => pure d
  match metadata with
  | .object ms => ((Members.get? ms "compiler").getD (.object [])).get "version" .null
  | _ => return .null

/-- Reads the artifact of a contract. -/
def readEntry (contract : ContractReference) (entry : Document) : Except Failure Artifact := do
  let evm ← lift (entry.get "evm" (.object []))
  let creationText ← lift (codeText evm "bytecode")
  let runtimeText ← lift (codeText evm "deployedBytecode")
  if ← lift (do
      if ← creationText.mentions linkMark then return true else runtimeText.mentions linkMark) then
    throw (.fault (.unlinked contract.text))
  let creation ← lift (decodeCode creationText)
  let runtime ← lift (decodeCode runtimeText)
  if creation.isEmpty then throw (.fault (.noBytecode contract.text))
  lift do
    let names := Solidity.declaredNames (← entry.get "ast" .null)
    let deployed ← evm.get "deployedBytecode" (.object [])
    let references ← deployed.get "immutableReferences" .null
    let immutables ← immutablesIn names (givenOr references (.object []))
    let abi ← (givenOr (← entry.get "abi" .null) (.list [])).elements
    let version ← compilerVersion (← entry.get "metadata" .null)
    return {
      contract, creationCode := creation, runtimeCode := runtime, abi, immutables
      metadataLength := (Trailer.split runtime).trailer.length
      compilerVersion := version }

end Attest.Build
