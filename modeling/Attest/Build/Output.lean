import Attest.Contract
import Attest.Document.Access
import Attest.Project.Path

/-! Compiled contracts by source path and name, and finding one of them. -/

namespace Attest.Build

/-- Entries by key. -/
abbrev Output := Members

namespace Output

def key (source name : String) : String := source ++ ":" ++ name

/-- The source path and the name in a key; a key without a colon is all name. -/
def splitKey (key : String) : String × String :=
  (Contract.splitLastColon key).getD ("", key)

/-- Whether a key may stand for a contract by its file's name alone. -/
def resembles (c : Contract) (key : String) : Bool :=
  let (source, name) := splitKey key
  name == c.name && (Path.ofText source).name == (Path.ofText c.path).name

/-- The entry of a contract: the one of its key, else the only one that resembles it. -/
def entryFor? (o : Output) (c : Contract) : Option (String × Document) :=
  match List.find? (fun e => e.1 == c.text) o with
  | some e => some e
  | none =>
      match List.filter (fun e => resembles c e.1) o with
      | [e] => some e
      | _ => none

/-- The entry that a reference finds. Without an entry of its very text, a path that is no text has
no file name, and a name that is no text resembles nothing. -/
def entryOf? (o : Output) : ContractReference → Except Defect (Option (String × Document))
  | .contract c => .ok (entryFor? o c)
  | r => do
      match List.find? (fun e => e.1 == r.text) o with
      | some e => return some e
      | none =>
          match ← r.path with
          | .text _ => return none
          | d => throw (.wrongKind s!"expected str, bytes or os.PathLike object, not {d.kind}")

end Output

end Attest.Build
