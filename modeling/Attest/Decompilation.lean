import Attest.Document
import Attest.Evm.Listing
import Attest.Text.Blank

/-! Readable accounts of code whose source is not known. -/

namespace Attest

/-- An interface and source text as some engine recovered them. -/
structure Decompilation where
  engine : String
  abi : List Document
  source : String

namespace Decompilation

def toDocument (d : Decompilation) : Document :=
  .object [("engine", .text d.engine), ("abi", .list d.abi), ("pseudo_source", .text d.source)]

/-- A function as its selector tells it. -/
structure Function where
  selector : String
  name : String
  inputs : List String

/-- Functions common enough to be known by their selectors. -/
def knownFunctions : List Function := [
  ⟨"01ffc9a7", "supportsInterface", ["bytes4"]⟩,
  ⟨"06fdde03", "name", []⟩,
  ⟨"095ea7b3", "approve", ["address", "uint256"]⟩,
  ⟨"18160ddd", "totalSupply", []⟩,
  ⟨"23b872dd", "transferFrom", ["address", "address", "uint256"]⟩,
  ⟨"313ce567", "decimals", []⟩,
  ⟨"3fb5c1cb", "setNumber", ["uint256"]⟩,
  ⟨"42842e0e", "safeTransferFrom", ["address", "address", "uint256"]⟩,
  ⟨"6352211e", "ownerOf", ["uint256"]⟩,
  ⟨"70a08231", "balanceOf", ["address"]⟩,
  ⟨"715018a6", "renounceOwnership", []⟩,
  ⟨"8381f58a", "number", []⟩,
  ⟨"8da5cb5b", "owner", []⟩,
  ⟨"95d89b41", "symbol", []⟩,
  ⟨"a9059cbb", "transfer", ["address", "uint256"]⟩,
  ⟨"d09de08a", "increment", []⟩,
  ⟨"dd62ed3e", "allowance", ["address", "address"]⟩,
  ⟨"f2fde38b", "transferOwnership", ["address"]⟩]

namespace Function

/-- The function of a selector; one that is not known is named after it. -/
def ofSelector (selector : String) : Function :=
  (knownFunctions.find? (·.selector == selector)).getD ⟨selector, "selector_0x" ++ selector, []⟩

def toDocument (f : Function) : Document :=
  .object [
    ("type", .text "function"),
    ("name", .text f.name),
    ("selector", .text ("0x" ++ f.selector)),
    ("inputs", .list (f.inputs.map fun t => .object [("name", .text ""), ("type", .text t)])),
    ("outputs", .list []),
    ("stateMutability", .text "nonpayable")]

def declaration (f : Function) : String :=
  s!"    function {f.name}(" ++ ", ".intercalate f.inputs ++ s!") external; // 0x{f.selector}"

end Function

def lineText (l : Evm.Line) : String :=
  Text.trimRight s!"{Text.hexDigits 6 l.pc}: {l.name} {l.operand}"

def opening (count : Nat) : List String := [
  "// Decompiled by coverify with evmdasm. Best effort, not verified source.",
  s!"// {count} function selector(s) recovered from the dispatcher",
  "contract Decompiled \x7b"]

/-- The functions that a dispatcher tells apart, over the listing of the code. -/
def sourceText (functions : List Function) (listing : List Evm.Line) : String :=
  "\n".intercalate <|
    opening functions.length ++ functions.map Function.declaration ++
      ["\x7d", "", "/* disassembly"] ++ listing.map lineText ++ ["*/"]

/-- What the listing of a code tells by itself. -/
def ofCode (code : Bytes) : Decompilation :=
  let listing := Evm.listing code
  let functions := (Evm.selectors listing).map Function.ofSelector
  ⟨"evmdasm", functions.map Function.toDocument, sourceText functions listing⟩

end Decompilation

end Attest
