import Attest.Text.Blank

/-! Finding the version that a source file asks for. -/

namespace Attest.Solidity

/-- What follows a word, if the text begins with it. -/
def afterWord? (word cs : List Char) : Option (List Char) :=
  if word.isPrefixOf cs then some (cs.drop word.length) else none

/-- What follows blanks, of which there must be one at least, and the last of them. -/
def afterBlanks? (cs : List Char) : Option (List Char × List Char) :=
  let blanks := cs.takeWhile Text.isBlank
  if blanks.isEmpty then none else some (blanks, cs.dropWhile Text.isBlank)

/-- The text up to a semicolon, if it has any. -/
def upToSemicolon? (cs : List Char) : Option (List Char) :=
  let body := cs.takeWhile (· ≠ ';')
  if body.isEmpty || body.length = cs.length then none else some body

/-- The constraint of a directive that the text begins with. A blank stands for a constraint when
nothing but blanks is there. -/
def directive? (cs : List Char) : Option (List Char) := do
  let rest ← afterWord? "pragma".toList cs
  let (_, rest) ← afterBlanks? rest
  let rest ← afterWord? "solidity".toList rest
  let (blanks, rest) ← afterBlanks? rest
  if rest.head? = some ';' then blanks.tail.getLast?.map ([·]) else upToSemicolon? rest

/-- The constraint of the first directive in a source text. -/
def constraintIn : List Char → Option (List Char)
  | [] => none
  | c :: cs => (directive? (c :: cs)).or (constraintIn cs)

def constraint? (source : String) : Option String :=
  (constraintIn source.toList).map String.ofList

example : constraint? "// x\npragma solidity ^0.8.0;" = some "^0.8.0" ∧
    constraint? "pragma solidity ;" = none := by
  decide +kernel

end Attest.Solidity
