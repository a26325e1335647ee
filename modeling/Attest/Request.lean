import Attest.Contract
import Attest.Defect
import Attest.Document

/-! Requests: which commit should account for the code at which address. -/

namespace Attest

/-- Why a request is refused; what was given is quoted. -/
inductive RequestFault where
  | repositoryMissing
  | commit (given : String)
  | address (given : String)
  | creationTransaction (given : String)
  | profileMissing
  | contract (given : String)
  | noChains
  | unknownChain (given : String)
  deriving DecidableEq, Repr

def RequestFault.message : RequestFault → String
  | repositoryMissing => "Repository URL is required"
  | commit given => s!"Commit must be a full 40 character hex hash, got {given}"
  | address given => s!"Invalid contract address: {given}"
  | creationTransaction given => s!"Invalid creation transaction hash: {given}"
  | profileMissing => "Build profile name is required"
  | contract given => s!"Contract must be given as <file>:<name>, got {given}"
  | noChains => "No chains are configured"
  | unknownChain given => s!"Chain {given} is not configured"

/-- How a request gives its contract: written with a colon, or already taken apart. -/
inductive GivenContract where
  | written (s : String)
  | reference (r : ContractReference)

/-- A request as it arrives: nothing is known of its fields. -/
structure Draft where
  repository : Document
  commit : Document
  contract : GivenContract
  address : Document
  creationTransaction : Document := .null
  profile : Document := .text "default"
  chain : Document := .null

/-- A request that was accepted, with hexadecimal digits in lower case. Where only a value was asked
for, it is kept as it was given. -/
structure Request where
  repository : Document
  commit : String
  contract : ContractReference
  address : String
  creationTransaction : Option String
  profile : Document
  /-- The number of a chain, or null for all. -/
  chain : Document

/-- A request ends with a fault, which is reported as one, or with a defect. -/
inductive Request.Refusal where
  | fault (f : RequestFault)
  | defect (d : Defect)
  deriving DecidableEq, Repr

namespace Request

def isHexDigit (c : Char) : Bool :=
  c.isDigit || ('a' ≤ c && c ≤ 'f') || ('A' ≤ c && c ≤ 'F')

/-- `count` hexadecimal digits and nothing else but, possibly, one line feed. -/
def isHash (count : Nat) (cs : List Char) : Bool :=
  let rest := cs.drop count
  decide (count ≤ cs.length) && (cs.take count).all isHexDigit &&
    (rest.isEmpty || rest == ['\n'])

def isPrefixedHash (count : Nat) : List Char → Bool
  | '0' :: 'x' :: cs => isHash count cs
  | _ => false

def commitDigits : Nat := 40
def addressDigits : Nat := 40
def transactionDigits : Nat := 64

def lower (s : String) : String := s.map Char.toLower

def refuse (f : RequestFault) : Except Refusal α := .error (.fault f)

/-- A text of a form, in lower case. What is no text has no form. -/
def readForm (isForm : List Char → Bool) (fault : String → RequestFault) (d : Document) :
    Except Refusal String :=
  match d with
  | .text s => if isForm s.toList then .ok (lower s) else refuse (fault d.literal)
  | d => .error (.defect (.wrongKind s!"expected string or bytes-like object, got '{d.kind}'"))

/-- A text of a form that has to be given. -/
def requireForm (isForm : List Char → Bool) (fault : String → RequestFault) (d : Document) :
    Except Refusal String :=
  if d.isGiven then readForm isForm fault d else refuse (fault d.literal)

def readCommit : Document → Except Refusal String := requireForm (isHash commitDigits) .commit

def readAddress : Document → Except Refusal String :=
  requireForm (isPrefixedHash addressDigits) .address

def readTransaction : Document → Except Refusal (Option String)
  | .null => .ok none
  | d => (readForm (isPrefixedHash transactionDigits) .creationTransaction d).map some

def readContract : GivenContract → Except Refusal ContractReference
  | .reference r => .ok r
  | .written s =>
      match Contract.parse? s with
      | some c => .ok (.contract c)
      | none => refuse (.contract (Text.quoted s))

/-- A value that has to be given. -/
def required (fault : RequestFault) (d : Document) : Except Refusal Document :=
  if d.isGiven then .ok d else refuse fault

/-- Accepts a draft, or reports the first fault in the order repository, commit, address,
transaction, profile, contract. -/
def ofDraft (d : Draft) : Except Refusal Request := do
  let repository ← required .repositoryMissing d.repository
  let commit ← readCommit d.commit
  let address ← readAddress d.address
  let creationTransaction ← readTransaction d.creationTransaction
  let profile ← required .profileMissing d.profile
  let contract ← readContract d.contract
  return ⟨repository, commit, contract, address, creationTransaction, profile, d.chain⟩

def toDocument (r : Request) : Document :=
  .object [
    ("repo_url", r.repository),
    ("commit", .text r.commit),
    ("contract", .text r.contract.text),
    ("address", .text r.address),
    ("creation_tx_hash", .ofOption .text r.creationTransaction),
    ("profile", r.profile),
    ("chain_id", r.chain)]

end Request

namespace Draft

/-- The names of a draft's fields; the first four must be there. -/
def requiredFields : List String := ["repo_url", "commit", "contract", "address"]

def fields : List String := requiredFields ++ ["creation_tx_hash", "profile", "chain_id"]

def contractOf : Document → Except Defect GivenContract
  | .text s => .ok (.written s)
  | d => return .reference (← ContractReference.ofDocument d)

/-- A draft from its fields by name. A field too many or too few is a defect of the caller. -/
def ofMembers (ms : Members) : Except Defect Draft := do
  let field (name : String) : Document := (Members.get? ms name).getD .null
  let contract ← contractOf (field "contract")
  for name in requiredFields do
    if (Members.get? ms name).isNone then
      throw (.wrongKind s!"missing required argument: '{name}'")
  for (name, _) in ms do
    if !fields.contains name then
      throw (.wrongKind s!"unexpected argument: '{name}'")
  return {
    repository := field "repo_url"
    commit := field "commit"
    contract
    address := field "address"
    creationTransaction := field "creation_tx_hash"
    profile := (Members.get? ms "profile").getD (.text "default")
    chain := field "chain_id" }

end Draft

end Attest
