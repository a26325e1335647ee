import Attest.Document.Access
import Attest.Node.Fault
import Attest.Node.Reply

/-! What a reply means: a result, or a fault that may or may not pass. -/

namespace Attest.Node

/-- Error codes that providers use for rate limits and overload. -/
def transientCodes : List Int := [-32005, -32016, -32090, 429]

/-- Letter case does not count; the long s and the Turkish i are letters of other cases too. -/
def fold (c : Char) : Char :=
  if c = 'ſ' then 's' else if c = 'İ' ∨ c = 'ı' then 'i' else c.toLower

/-- A piece of a phrase: a character, or any or none. -/
inductive Piece where
  | char (c : Char)
  | any

/-- Whether a text begins with a phrase; `any` stands for one character of the line or none. -/
def beginsWith : List Piece → List Char → Bool
  | [], _ => true
  | .char c :: ps, d :: ds => c == fold d && beginsWith ps ds
  | .char _ :: _, [] => false
  | .any :: ps, [] => beginsWith ps []
  | .any :: ps, d :: ds => (d != '\n' && beginsWith ps ds) || beginsWith ps (d :: ds)

def occursIn (phrase : List Piece) : List Char → Bool
  | [] => beginsWith phrase []
  | c :: cs => beginsWith phrase (c :: cs) || occursIn phrase cs

def phrase (s : String) : List Piece := s.toList.map .char

/-- How providers put a rate limit into words. -/
def transientPhrases : List (List Piece) := [
  phrase "rate" ++ .any :: phrase "limit",
  phrase "limit exceeded",
  phrase "too many requests",
  phrase "capacity exceeded"]

def hasTransientPhrase (s : String) : Bool :=
  transientPhrases.any fun p => occursIn p s.toList

/-- Whether a code is one of the transient ones, as a number of any kind. -/
def hasTransientCode (code : Document) : Except Defect Bool := do
  match ← code.asKey with
  | .int i => return transientCodes.contains i
  | .float x => return transientCodes.any fun i => x.toRat? == some i
  | _ => return false

/-- Whether a reported error may pass: by its code, or by its words. -/
def isTransient (error : Document) : Except Defect Bool := do
  match error with
  | .object ms =>
      if ← hasTransientCode ((Members.get? ms "code").getD .null) then return true
      else return hasTransientPhrase ((Members.get? ms "message").getD (.text "")).plain
  | d => return hasTransientPhrase d.plain

/-- What a reported error says. -/
def reportedText (error : Document) : String :=
  match error with
  | .object ms => ((Members.get? ms "message").getD error).plain
  | d => d.plain

/-- The result in an answer's body. -/
def resultIn (method : String) : Option Document → Except Problem Document
  | some (.object ms) =>
      let error := (Members.get? ms "error").getD .null
      if error.isGiven then
        match isTransient error with
        | .error d => .error (.defect d)
        | .ok t => .error (.fault (.call (.reported method (reportedText error) t)))
      else
        match Members.get? ms "result" with
        | some d => .ok d
        | none => .error (.fault (.call (.malformedReply method)))
  | _ => .error (.fault (.call (.malformedReply method)))

/-- The result of a call to `url`. Too many requests and faults of the server may pass; requests
that the server turns down will not. -/
def classify (url method : String) : Reply → Except Problem Document
  | .unreachable message => .error (.fault (.call (.unreachable method message)))
  | .broken d => .error (.defect d)
  | .answered status reason body =>
      if status = 429 ∨ 500 ≤ status then .error (.fault (.call (.overloaded method status)))
      else if 400 ≤ status then .error (.fault (.call (.refused method status reason url)))
      else
        match body.read? with
        | .error d => .error (.defect d)
        | .ok d? => resultIn method d?

/-- Whether a problem may pass. -/
def Problem.transient : Problem → Bool
  | .fault (.call f) => f.transient
  | _ => false

end Attest.Node
