import Attest.Build.Workshop

/-! Getting a repository at a commit, with the submodules it pins. -/

namespace Attest.Build.Checkout

open Tool

/-- The longest that one call may take. -/
def longest : Limit := .whole 600

/-- A caller's limit can only shorten the longest one. -/
def limitFor (longest : Limit) : Option Limit → Limit
  | none => longest
  | some l => if l.isLonger longest then longest else l

/-- Runs a command; `unavailable` and `failed` say what it means when it cannot run or fails. -/
def run (c : Command) (unavailable failed : String → Fault) : Work Unit := do
  match ← Work.runGit c with
  | .unavailable details => Work.fail (unavailable details)
  | .broken d => throw (.defect d)
  | .exited code _ stderr => if code ≠ 0 then Work.fail (failed (Text.trim stderr))

/-- Clones a repository into a directory. -/
def clone (longest : Limit) (url directory : String) (limit : Option Limit) : Work Unit :=
  run ⟨["git", "clone", "--quiet", url, directory], limitFor longest limit, none, none⟩
    (.clone url) (.clone url)

/-- Checks out a commit and then its submodules. -/
def checkout (longest : Limit) (directory commit : String) (limit : Option Limit) : Work Unit := do
  let limit := limitFor longest limit
  run ⟨["git", "checkout", "--quiet", commit], limit, some directory, none⟩
    (.checkout commit) (.unknownCommit commit)
  let submodules := ["git", "submodule", "update", "--init", "--recursive", "--quiet"]
  run ⟨submodules, limit, some directory, none⟩ .submodules .submodules

end Attest.Build.Checkout
