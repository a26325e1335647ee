import Attest.Bytes.Hex
import Attest.Evm.Opcode
import Attest.Trailer

/-! Code as a list of instructions, and the function selectors that its dispatcher compares with. -/

namespace Attest.Evm

/-- An opcode and the bytes that belong to it. -/
structure Instruction where
  opcode : UInt8
  operand : Bytes
  deriving DecidableEq, Repr

namespace Instruction

/-- How many bytes the instruction takes. -/
def size (i : Instruction) : Nat := 1 + i.operand.length

/-- An operand cut off by the end of the code leaves no valid instruction. -/
def name (i : Instruction) : String :=
  if i.operand.length < pushSize i.opcode then "INVALID_0x" ++ Text.hexDigits 1 i.opcode.toNat
  else mnemonic i.opcode

def bytes (i : Instruction) : Bytes := i.opcode :: i.operand

end Instruction

/-- The instructions of a code, one after the other. Decoding is taken to be linear: a push has the bytes
that follow it for its operand, and any other byte is an instruction by itself. -/
def instructions : Bytes → List Instruction
  | [] => []
  | b :: rest => ⟨b, rest.take (pushSize b)⟩ :: instructions (rest.drop (pushSize b))
  termination_by bs => bs.length
  decreasing_by
    rw [List.length_drop, List.length_cons]
    omega

/-- A line of a listing: where, what, and the operand in hexadecimal. -/
structure Line where
  pc : Nat
  name : String
  operand : String
  deriving DecidableEq, Repr

/-- An operand as an engine writes it, in lower case and without a mark. -/
def plainOperand (written : String) : String :=
  String.ofList (Hex.dropMark (written.toList.map Char.toLower))

/-- Instructions as lines, the first of them at `pc`. Where the next one begins is counted from the
digits of the operand. -/
def linesFrom : (pc : Nat) → List Instruction → List Line
  | _, [] => []
  | pc, i :: is =>
      let operand := plainOperand (Hex.encode i.operand)
      ⟨pc, i.name, operand⟩ :: linesFrom (pc + 1 + operand.length / 2) is

/-- The listing of a code without its metadata trailer. -/
def listing (code : Bytes) : List Line :=
  linesFrom 0 (instructions (Trailer.split code).core)

/-- How many instructions after the selector the comparison may stand. -/
def dispatchWindow : Nat := 3

/-- Whether a line pushes four bytes that a line soon after compares. -/
def isDispatch (l : Line) (after : List Line) : Bool :=
  l.name == "PUSH4" && l.operand.length == 8 && (after.take dispatchWindow).any (·.name == "EQ")

/-- The operands of all lines that dispatch. -/
def dispatched : List Line → List String
  | [] => []
  | l :: after => if isDispatch l after then l.operand :: dispatched after else dispatched after

/-- The selectors in the order of their first dispatch, each once. -/
def selectors (ls : List Line) : List String := (dispatched ls).eraseDups

theorem flatMap_bytes_instructions (code : Bytes) :
    (instructions code).flatMap Instruction.bytes = code := by
  fun_induction instructions code with
  | case1 => rfl
  | case2 b rest ih => simp [Instruction.bytes, ih]

example : instructions [0x61, 0x01, 0x02, 0x00, 0x60] =
    [⟨0x61, [0x01, 0x02]⟩, ⟨0x00, []⟩, ⟨0x60, []⟩] := by
  decide +kernel

end Attest.Evm
