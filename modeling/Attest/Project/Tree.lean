import Attest.Defect
import Attest.Project.Path
import Attest.Text.Blank

/-! The files of a directory. -/

namespace Attest

/-- Files by path. A directory is there when a file is below it. All files are texts; what reading does
to bytes that spell none is left out. -/
structure Tree where
  files : List (Path × String) := []

namespace Tree

/-- Puts a file in the place of the one of its path, or at the end. -/
def putFile : List (Path × String) → Path × String → List (Path × String)
  | [], f => [f]
  | g :: gs, f => if g.1 = f.1 then f :: gs else g :: putFile gs f

def ofFiles (files : List (String × String)) : Tree :=
  ⟨files.foldl (fun fs f => putFile fs (Path.ofText f.1, f.2)) []⟩

def isDirectory (t : Tree) (p : Path) : Bool :=
  p.isEmpty || t.files.any fun f => p.isPrefixOf f.1 && decide (p.length < f.1.length)

/-- Follows a path from a directory, up again where it says so. There is no way up from what is no
directory, nor above the tree: a clone stands in a directory of its own, and a path that goes there and
comes back is not followed. -/
def follow (t : Tree) : Path → Path → Option Path
  | here, [] => some here
  | here, c :: cs =>
      if c = Path.up then
        if !here.isEmpty && t.isDirectory here then follow t here.dropLast cs else none
      else follow t (here ++ [c]) cs

/-- The place that a path leads to. -/
def place? (t : Tree) (p : Path) : Option Path := t.follow [] p

def file? (t : Tree) (p : Path) : Option String := (t.place? p).bind fun q => t.files.lookup q

def isFile (t : Tree) (p : Path) : Bool := (t.file? p).isSome

/-- The text of a file with line feeds for all line ends. -/
def text? (t : Tree) (p : Path) : Option String :=
  (t.file? p).map fun s => String.ofList (Text.unifyNewlines s.toList)

/-- The text of what is listed at a path; a directory has none. `name` is what the tree itself is
called. -/
def read (t : Tree) (name : String) (p : Path) : Except Defect String :=
  match t.text? p with
  | some s => .ok s
  | none => .error (.directory (name ++ "/" ++ p.text))

/-- A path and the directories above it, down from a directory. -/
def stepsBelow (dir p : Path) : List Path :=
  if dir.isPrefixOf p then (List.range' (dir.length + 1) (p.length - dir.length)).map (p.take ·)
  else []

/-- All files and directories below a directory, in order, as paths that begin like its own. -/
def below (t : Tree) (dir : Path) : List Path :=
  match t.place? dir with
  | none => []
  | some place =>
      (Path.sort (t.files.flatMap fun f => stepsBelow place f.1).eraseDups).map fun p =>
        dir ++ p.drop place.length

/-- Those of them whose name is of a class. -/
def find (t : Tree) (dir : Path) (p : String → Bool) : List Path :=
  (t.below dir).filter fun q => p q.name

end Tree

end Attest
