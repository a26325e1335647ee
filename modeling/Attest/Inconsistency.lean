import Attest.Defect
import Attest.Document
import Attest.Number.Numeral

/-! What keeps two codes from being compared. -/

namespace Attest

/-- An artifact and the code on a chain do not fit together. -/
inductive Inconsistency where
  /-- The constructor's arguments do not fill whole words. -/
  | unaligned (size : Nat)
  /-- The constructor's parameters cannot be understood. -/
  | unreadableParameters (cause : Defect)
  /-- The arguments end before the head does. -/
  | tooShort (size : Nat) (head : Int)
  /-- An argument's offset points outside the arguments' tail. -/
  | badOffset (label : String) (offset : Nat)
  /-- Arguments without a tail are not as long as their head. -/
  | wrongSize (size : Nat) (head : Int)
  /-- An immutable lies outside the code. -/
  | outsideCode (name offset length : String) (size : Nat)

/-- How many bytes a word has. -/
def wordSize : Nat := 32

def Inconsistency.message : Inconsistency → String
  | unaligned size => s!"Constructor arguments are {size} bytes, not a multiple of {wordSize}"
  | unreadableParameters cause => s!"Unreadable constructor ABI: {cause.message}"
  | tooShort size head => s!"Constructor arguments are {size} bytes, expected at least {head}"
  | badOffset label offset => s!"Constructor argument {label} has invalid offset {offset}"
  | wrongSize size head => s!"Constructor arguments are {size} bytes, expected exactly {head}"
  | outsideCode name offset length size =>
      s!"Immutable {name} at offset {offset} (length {length}) is outside bytecode of length {size}"

/-- Whether the message can be written: it tells no number that is too long. -/
def Inconsistency.isWritable : Inconsistency → Bool
  | tooShort _ head | wrongSize _ head => Numeral.isWritable head
  | _ => true

/-- Why there is no verdict: an inconsistency, which is reported as one, or a defect. -/
inductive Obstacle where
  | inconsistent (cause : Inconsistency)
  | defect (cause : Defect)

/-- An inconsistency is an obstacle as such if it can be written, and otherwise a defect. -/
def Obstacle.ofInconsistency (cause : Inconsistency) : Obstacle :=
  if cause.isWritable then inconsistent cause else defect (.badValue Numeral.unwritableText)

end Attest
