import Attest.Document.Access

/-! Contracts inside a repository: a source file and a name in it. -/

namespace Attest

structure Contract where
  path : String
  name : String
  deriving DecidableEq, Repr

namespace Contract

def text (c : Contract) : String := c.path ++ ":" ++ c.name

/-- The two sides of the last colon, if there is one. -/
def splitLastColon (s : String) : Option (String × String) :=
  let r := s.toList.reverse
  match r.dropWhile (· ≠ ':') with
  | [] => none
  | _ :: before =>
      some (String.ofList before.reverse, String.ofList (r.takeWhile (· ≠ ':')).reverse)

/-- A contract written with a colon before its name; neither side may be empty. -/
def parse? (s : String) : Option Contract :=
  match splitLastColon s with
  | some (path, name) => if path.isEmpty || name.isEmpty then none else some ⟨path, name⟩
  | none => none

theorem splitLastColon_text {path name : String} (h : ':' ∉ name.toList) :
    splitLastColon (text ⟨path, name⟩) = some (path, name) := by
  have hr : ∀ c ∈ name.toList.reverse, (!decide (c = ':')) = true := by
    intro c hc
    have : c ∈ name.toList := by simpa using hc
    simpa using fun e : c = ':' => h (e ▸ this)
  simp [splitLastColon, text, List.dropWhile_append_of_pos hr, List.takeWhile_append_of_pos hr]

example : parse? "a:b:C" = some ⟨"a:b", "C"⟩ ∧ parse? "a:" = none ∧ parse? "a" = none := by
  decide +kernel

end Contract

/-- What may stand for a contract. -/
inductive ContractReference where
  | contract (c : Contract)
  /-- A path and a name that are not both texts. -/
  | pair (path name : Document)
  /-- What names no contract at all. -/
  | other (given : Document)
  deriving Inhabited

namespace ContractReference

def text : ContractReference → String
  | contract c => c.text
  | pair path name => path.plain ++ ":" ++ name.plain
  | other d => d.plain

def ofParts : Document → Document → ContractReference
  | .text path, .text name => contract ⟨path, name⟩
  | path, name => pair path name

/-- An object gives its path and its name; other values stand for themselves. -/
def ofDocument (d : Document) : Except Defect ContractReference :=
  match d with
  | .object _ => return ofParts (← d.member "path") (← d.member "name")
  | d => .ok (other d)

/-- The path of the source. -/
def path : ContractReference → Except Defect Document
  | contract c => .ok (.text c.path)
  | pair path _ => .ok path
  | other d => .error (.lacksMember d.kind "path")

end ContractReference

end Attest
