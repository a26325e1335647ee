import Attest.Abi.Shape
import Attest.Bytes

/-! Whether bytes look like the arguments of a constructor: whole words, a complete head, offsets
that point into the tail. Values are never looked at. -/

namespace Attest.Abi

/-- A place in bytes; a negative one counts from their end. -/
def place (size : Nat) (i : Int) : Nat :=
  if i < 0 then (size + i).toNat else i.toNat

/-- The number between two places. -/
def numberBetween (bs : Bytes) (start stop : Int) : Nat :=
  let a := place bs.length start
  Bytes.toNat (Bytes.slice bs a (place bs.length stop - a))

def headSize (slots : List Slot) : Int := slots.foldr (fun s rest => s.size + rest) 0

/-- Slots with their places in the head. -/
def placed : Int → List Slot → List (Int × Slot)
  | _, [] => []
  | i, s :: ss => (i, s) :: placed (i + s.size) ss

/-- The offset of a dynamic slot, if it is not one into the tail. -/
def badOffset? (args : Bytes) (head : Int) (p : Int × Slot) : Option Inconsistency :=
  if p.2.dynamic then
    let offset := numberBetween args p.1 (p.1 + wordSize)
    if offset % wordSize ≠ 0 ∨ (offset : Int) < head ∨ args.length < offset + wordSize then
      some (.badOffset p.2.label offset)
    else none
  else none

/-- What is wrong with arguments for the given slots. -/
def misfit? (args : Bytes) (slots : List Slot) : Option Inconsistency :=
  let head := headSize slots
  if (args.length : Int) < head then some (.tooShort args.length head)
  else
    match (placed 0 slots).findSome? (badOffset? args head) with
    | some i => some i
    | none =>
        if slots.all (!·.dynamic) && (args.length : Int) != head then
          some (.wrongSize args.length head)
        else none

/-- Faults of parameters that make them unreadable; others go on as defects. -/
def obstacleOf : Defect → Obstacle
  | .missingKey k => .inconsistent (.unreadableParameters (.missingKey k))
  | .badValue w => .inconsistent (.unreadableParameters (.badValue w))
  | d => .defect d

/-- Checks arguments against the parameters of the constructor, if these are known. -/
def checkArguments (args : Bytes) (parameters : Option (List Document)) : Except Obstacle Unit :=
  if args.length % wordSize ≠ 0 then .error (.inconsistent (.unaligned args.length))
  else
    match parameters with
    | none => .ok ()
    | some ps =>
        match ps.mapM Slot.ofDocument with
        | .error d => .error (obstacleOf d)
        | .ok slots =>
            match misfit? args slots with
            | some i => .error (.ofInconsistency i)
            | none => .ok ()

end Attest.Abi
