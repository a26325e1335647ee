import Attest.Bytes.Hex
import Attest.Cbor.Reader
import Attest.Defect

/-! The metadata trailer that compilers append to code: a map, then its length in two bytes. -/

namespace Attest.Trailer

/-- What a trailer's map holds, in order. -/
abbrev Fields := List (String × Cbor.Item)

/-- The entries of a map, provided every key is a text. -/
def textEntries? : List (Cbor.Item × Cbor.Item) → Option Fields
  | [] => some []
  | (.text key, value) :: rest => (textEntries? rest).map ((key, value) :: ·)
  | _ :: _ => none

/-- The fields of bytes that are exactly one map, which has entries and whose keys are texts. A map
under a tag does not count. -/
def fields? (region : Bytes) : Option Fields :=
  match Cbor.read? region with
  | some (.map false (e :: es), []) => textEntries? (e :: es)
  | _ => none

/-- How many bytes the length takes. -/
def lengthSize : Nat := 2

/-- Code in two parts. -/
structure Split where
  core : Bytes
  trailer : Bytes
  deriving DecidableEq, Repr

/-- Where the trailer of a code begins, if it ends in one. -/
def start? (code : Bytes) : Option Nat :=
  if code.length ≤ lengthSize then none
  else
    let body := code.length - lengthSize
    let length := Bytes.toNat (code.drop body)
    if length = 0 ∨ body < length then none
    else if (fields? (Bytes.slice code (body - length) length)).isSome then some (body - length)
    else none

/-- The code before its trailer and the trailer, which is empty when the code ends in none. -/
def split (code : Bytes) : Split :=
  match start? code with
  | some i => ⟨code.take i, code.drop i⟩
  | none => ⟨code, []⟩

/-- A map of fields followed by its length. -/
def ofRegion (region : Bytes) : Bytes := region ++ Bytes.ofNat lengthSize region.length

/-- The name of the field that holds the compiler's version. -/
def versionField : String := "solc"

/-- A field as text: a version of three bytes with points between, other bytes in hexadecimal. An
integer may be too long to be written. -/
def showField (name : String) : Cbor.Item → Except Defect String
  | .bytes b =>
      .ok <|
        if name = versionField ∧ b.length = 3 then
          ".".intercalate (b.map fun x => toString x.toNat)
        else Hex.encodePrefixed b
  | item => if item.isWritable then .ok item.plain else .error (.badValue Numeral.unwritableText)

/-- The fields of a trailer as text. -/
def decode (trailer : Bytes) : Except Defect (Option (List (String × String))) :=
  if trailer.length ≤ lengthSize then .ok none
  else
    match fields? (trailer.take (trailer.length - lengthSize)) with
    | none => .ok none
    | some fs => do return some (← fs.mapM fun f => do return (f.1, ← showField f.1 f.2))

theorem split_append (code : Bytes) : (split code).core ++ (split code).trailer = code := by
  unfold split
  split <;> simp

example : split [0xfe, 0xa1, 0x61, 0x61, 0x01, 0x00, 0x04] =
    ⟨[0xfe], [0xa1, 0x61, 0x61, 0x01, 0x00, 0x04]⟩ := by
  decide +kernel

example : (decode [0xa1, 0x61, 0x61, 0x01, 0x00, 0x04]).toOption = some (some [("a", "1")]) := by
  decide +kernel

end Attest.Trailer
