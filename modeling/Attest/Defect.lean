import Attest.Text.Quoted

/-! Defects: failures no stage is prepared for. They end the operation, or the chain, they strike. -/

namespace Attest

/-- A failure outside the program's own kinds. -/
inductive Defect where
  /-- A value of this kind was asked for a member that only other kinds have. -/
  | lacksMember (kind member : String)
  /-- A value of the wrong kind was used. -/
  | wrongKind (what : String)
  /-- A table lacks an entry that is taken for granted. -/
  | missingKey (key : String)
  /-- A text or number has no acceptable form. -/
  | badValue (what : String)
  /-- A number without an integer part was to be made an integer. -/
  | infiniteNumber
  /-- An integer is too large for a double. -/
  | hugeNumber
  /-- A directory was to be read as a file. -/
  | directory (path : String)
  /-- Something is nested too deep for what was done with it. -/
  | tooDeep (activity : String)
  /-- An outside program or connection failed in its own way. -/
  | foreign (kind message : String)
  deriving DecidableEq, Repr

namespace Defect

/-- What reports call the defect. -/
def label : Defect → String
  | lacksMember .. => "AttributeError"
  | wrongKind _ => "TypeError"
  | missingKey _ => "KeyError"
  | badValue _ => "ValueError"
  | infiniteNumber | hugeNumber => "OverflowError"
  | directory _ => "IsADirectoryError"
  | tooDeep _ => "RecursionError"
  | foreign kind _ => kind

def message : Defect → String
  | lacksMember kind member => s!"'{kind}' object has no attribute '{member}'"
  | wrongKind what => what
  | missingKey key => key
  | badValue what => what
  | infiniteNumber => "cannot convert float infinity to integer"
  | hugeNumber => "int too large to convert to float"
  | directory path => "[Errno 21] Is a directory: " ++ Text.quoted path
  | tooDeep activity => "maximum recursion depth exceeded while " ++ activity
  | foreign _ message => message

def describe (d : Defect) : String := d.label ++ ": " ++ d.message

end Defect

end Attest
