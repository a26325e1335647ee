import Attest.Build.Fault
import Attest.Project.Tree
import Attest.Tool

/-! The place where a build happens: a clock, the programs it may run, given by the answers they will
give, and a record of what was run. -/

namespace Attest.Build

open Tool

/-- A compiler that turned its input down. -/
structure Refusal where
  message : String := "An error occurred during execution"
  command : List String := []
  code : Document := .null
  stdout : Document := .null
  stderr : Document := .null

def Refusal.text (r : Refusal) : String :=
  Text.trim <|
    r.message ++ "\n> command: `" ++ " ".intercalate r.command ++ "`\n> return code: `" ++
      r.code.plain ++ "`\n> stdout:\n" ++ r.stdout.plain ++ "\n> stderr:\n" ++ r.stderr.plain

/-- What the compiler library will do. -/
structure Compiler where
  /-- The version that a constraint is resolved to. -/
  resolved : Document := .text "0.8.24"
  /-- Why no version can be installed. -/
  installError : Option String := none
  output : Document := .object []
  refusal : Option Refusal := none
  delay : Seconds := 0

structure Workshop where
  clock : Seconds := 0
  git : List Step := []
  forge : List Step := []
  compiler : Compiler := {}
  /-- What a clone contains. -/
  repository : Tree := {}
  /-- Commands run so far. -/
  commands : List Command := []
  /-- Calls of the compiler library so far. -/
  compilerCalls : List Document := []
  /-- Scratch directories that exist. -/
  scratch : Nat := 0

/-- Work in a workshop; a failure keeps what was done before it. -/
abbrev Work (α : Type) := ExceptT Failure (StateM Workshop) α

namespace Work

def fail (f : Fault) : Work α := throw (.fault f)

def ofExcept (r : Except Failure α) : Work α := ExceptT.mk (pure r)

def ofDefect (r : Except Defect α) : Work α := ofExcept (lift r)

/-- Whatever comes of the work is undone by `after`. -/
def andThen (work : Work α) (after : Workshop → Workshop) : Work α :=
  fun w => let (r, w) := work.run w; (r, after w)

/-- Work with a scratch directory of its own. -/
def withScratch (work : Work α) : Work α := do
  modify fun w => { w with scratch := w.scratch + 1 }
  andThen work fun w => { w with scratch := w.scratch - 1 }

/-- Lets time pass. -/
def pass (span : Seconds) : Work Unit := modify fun w => { w with clock := w.clock.after span }

/-- Records a command and lets its step take place. -/
def perform (c : Command) (s : Step) : Work Outcome := do
  let (elapsed, outcome) := s.perform c
  pass elapsed
  modify fun w => { w with commands := w.commands ++ [c] }
  return outcome

def runGit (c : Command) : Work Outcome := do
  let steps := (← get).git
  modify fun w => { w with git := steps.tail }
  perform c (steps.head?.getD {})

def runForge (c : Command) : Work Outcome := do
  let steps := (← get).forge
  modify fun w => { w with forge := steps.tail }
  perform c (steps.head?.getD {})

/-- Records a call of the compiler library. -/
def callCompiler (call : List Document) : Work Unit :=
  modify fun w => { w with compilerCalls := w.compilerCalls ++ [.list call] }

end Work

end Attest.Build
