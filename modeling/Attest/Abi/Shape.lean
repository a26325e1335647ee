import Attest.Document.Access
import Attest.Inconsistency
import Attest.Nesting

/-! The shapes of encoded values: which types fill their words in place, and how many. -/

namespace Attest.Abi

/-- How a type is laid out. -/
inductive Shape where
  /-- One word in place. -/
  | word
  /-- Bytes of any number, elsewhere. -/
  | blob
  | tuple (parts : List Shape)
  /-- Items of any number, elsewhere. -/
  | array (item : Shape)
  | fixedArray (size : Int) (item : Shape)
  /-- A type that could not be understood. -/
  | faulty (cause : Defect)
  deriving Inhabited

namespace Shape

/-- The shape of a type without array brackets; `parts` are the components of a tuple. -/
def ofName (parts : Except Defect (List Shape)) (name : List Char) : Shape :=
  if name = "string".toList ∨ name = "bytes".toList then blob
  else if name = "tuple".toList then
    match parts with
    | .ok ps => tuple ps
    | .error d => faulty d
  else word

/-- The shape of a type, whose name is given in reverse: the last brackets are the outermost array. -/
def ofReversed (parts : Except Defect (List Shape)) : List Char → Shape
  | ']' :: rest =>
      match h : rest.dropWhile (· ≠ '[') with
      | [] => faulty (.badValue "substring not found")
      | _ :: base =>
          have : base.length < rest.length := by
            have hs := (List.dropWhile_suffix (fun c => decide (c ≠ '[')) (l := rest)).length_le
            rw [h] at hs
            exact hs
          let size := String.ofList (rest.takeWhile (· ≠ '[')).reverse
          if size.isEmpty then array (ofReversed parts base)
          else
            match Document.integerIn size with
            | .ok k => fixedArray k (ofReversed parts base)
            | .error d => faulty d
  | name => ofName parts name.reverse
  termination_by name => name.length
  decreasing_by all_goals simp; omega

def ofType (parts : Except Defect (List Shape)) : Option Document → Shape
  | none => faulty (.missingKey (Text.quoted "type"))
  | some (.text s) => ofReversed parts s.toList.reverse
  | some d => faulty (.lacksMember d.kind "endswith")

/-- What stands for a parameter that is no object. -/
def ofOther (d : Document) : Shape :=
  match d.member "type" with
  | .ok _ => word
  | .error e => faulty e

mutual
/-- The shape of a parameter. -/
def ofDocument : Document → Shape
  | .object ms => ofType ((componentsIn ms).getD (.ok [])) (Members.get? ms "type")
  | d => ofOther d

/-- The parts that members give to a tuple. -/
def componentsIn : List (String × Document) → Option (Except Defect (List Shape))
  | [] => none
  | m :: ms => (componentsOf m).or (componentsIn ms)

def componentsOf : String × Document → Option (Except Defect (List Shape))
  | (name, d) => if name = "components" then some (partsOf d) else none

def partsOf : Document → Except Defect (List Shape)
  | .list xs => .ok (ofDocuments xs)
  | d => d.elements.map (·.map ofOther)

def ofDocuments : List Document → List Shape
  | [] => []
  | d :: ds => ofDocument d :: ofDocuments ds
end

/-- The room that a level of brackets takes, and that one of components takes. -/
def arrayCost : Nat := 1
def tupleCost : Nat := 3

/-- What a shape that is nested too deep is found at. -/
def nestingActivity : String := "calling a Python object"

mutual
/-- Whether the value stands elsewhere, with its offset in its place; there is `room` for levels. -/
def dynamic (room : Nat) : Shape → Except Defect Bool
  | word => .ok false
  | blob => .ok true
  | tuple parts => do anyDynamic (← Nesting.enter tupleCost room nestingActivity) parts
  | array _ => .ok true
  | fixedArray _ item => do item.dynamic (← Nesting.enter arrayCost room nestingActivity)
  | faulty d => .error d

/-- Looks no further than the first dynamic one. -/
def anyDynamic (room : Nat) : List Shape → Except Defect Bool
  | [] => .ok false
  | s :: ss => do if ← s.dynamic room then return true else anyDynamic room ss
end

mutual
/-- How many bytes a value without dynamic parts takes. -/
def staticSize : Shape → Int
  | tuple parts => staticSizes parts
  | fixedArray size item => size * item.staticSize
  | _ => wordSize

def staticSizes : List Shape → Int
  | [] => 0
  | s :: ss => s.staticSize + staticSizes ss
end

end Shape

/-- A place in the head: a value, or the offset of one. -/
structure Slot where
  label : String
  dynamic : Bool
  size : Int
  deriving DecidableEq, Repr

namespace Slot

/-- What messages call a parameter: its name if it has one, else its type. -/
def labelOf (d : Document) : String :=
  match d with
  | .object ms =>
      let name := (Members.get? ms "name").getD .null
      (if name.isGiven then name else (Members.get? ms "type").getD .null).plain
  | d => d.plain

def ofDocument (d : Document) : Except Defect Slot := do
  let shape := Shape.ofDocument d
  let dynamic ← shape.dynamic Nesting.room
  return ⟨labelOf d, dynamic, if dynamic then wordSize else shape.staticSize⟩

end Slot

end Attest.Abi
