import Attest.Bytes
import Attest.Document.Access
import Attest.Inconsistency

/-! Immutable variables: places in runtime code that are filled in at deployment. -/

namespace Attest

/-- The bytes of one place. A compiler may report what is no pair of integers; it is shown as it is,
and blanked only if it comes to one. -/
inductive Range where
  | span (offset length : Int)
  | irregular (given : Document)
  deriving Inhabited

/-- A variable and the places that hold it. -/
structure Immutable where
  name : Document
  ranges : List Range

namespace Range

def ofDocument : Document → Range
  | .list [.int offset, .int length] => span offset length
  | d => irregular d

def toDocument : Range → Document
  | span offset length => .list [.int offset, .int length]
  | irregular d => d

/-- Whether a place lies within code of the given size. -/
def Fits (offset length : Int) (size : Nat) : Prop :=
  0 ≤ offset ∧ 0 ≤ length ∧ offset + length ≤ size

instance (offset length : Int) (size : Nat) : Decidable (Fits offset length size) := by
  unfold Fits; infer_instance

/-- Code with zeros in place of `length` bytes from `offset` on. -/
def blank (code : Bytes) (offset length : Nat) : Bytes :=
  code.take offset ++ Bytes.zeros length ++ code.drop (offset + length)

/-- The two parts of what is reported as a range. -/
def parts (d : Document) : Except Defect (Document × Document) :=
  match d.elements with
  | .error _ => .error (.wrongKind s!"cannot unpack non-iterable {d.kind} object")
  | .ok [offset, length] => .ok (offset, length)
  | .ok ds =>
      if ds.length < 2 then
        .error (.badValue s!"not enough values to unpack (expected 2, got {ds.length})")
      else .error (.badValue "too many values to unpack (expected 2)")

/-- Whether a place that may be given in doubles lies outside code of the given size. -/
def strays (offset length : Document) (size : Nat) : Except Defect Bool := do
  if ← offset.isNegative then return true
  else if ← length.isNegative then return true
  else
    match offset.integral?, length.integral? with
    | some i, some n => return decide ((size : Int) < i + n)
    | _, _ => return ((← offset.double).add (← length.double)).isAbove size

/-- Blanks a place given by any two values. Only integers and truth values have places. -/
def maskBetween (name : Document) (code : Bytes) (offset length : Document) :
    Except Obstacle Bytes := do
  if ← (strays offset length code.length).mapError .defect then
    throw (.inconsistent (.outsideCode name.plain offset.plain length.plain code.length))
  else
    match offset.integral?, length.integral? with
    | some i, some n => return blank code i.toNat n.toNat
    | _, none => throw (.defect (.wrongKind s!"cannot convert '{length.kind}' object to bytes"))
    | none, _ => throw (.defect (.wrongKind
        "slice indices must be integers or None or have an __index__ method"))

/-- Blanks the place of a variable. -/
def mask (name : Document) (code : Bytes) : Range → Except Obstacle Bytes
  | span offset length =>
      if Fits offset length code.length then .ok (blank code offset.toNat length.toNat)
      else
        .error (.inconsistent
          (.outsideCode name.plain (toString offset) (toString length) code.length))
  | irregular d => do
      let (offset, length) ← (parts d).mapError .defect
      maskBetween name code offset length

theorem length_blank {code : Bytes} {offset length : Nat} (h : offset + length ≤ code.length) :
    (blank code offset length).length = code.length := by
  simp [blank, Bytes.zeros]; omega

end Range

namespace Immutable

/-- Blanks every place of a variable. -/
def mask (code : Bytes) (v : Immutable) : Except Obstacle Bytes :=
  v.ranges.foldlM (Range.mask v.name) code

/-- Blanks every place of every variable. -/
def maskAll (code : Bytes) (vs : List Immutable) : Except Obstacle Bytes :=
  vs.foldlM mask code

/-- Puts a variable in the place of the one of its name, or at the end. -/
def put : List Immutable → Immutable → List Immutable
  | [], v => [v]
  | w :: ws, v => if w.name.isSameKey v.name then { v with name := w.name } :: ws else w :: put ws v

/-- One variable a name: the first place and the last ranges. Lists and objects are no names. -/
def resolve (vs : List Immutable) : Except Defect (List Immutable) := do
  let _ ← vs.mapM fun v => v.name.asKey
  return vs.foldl put []

end Immutable

end Attest
