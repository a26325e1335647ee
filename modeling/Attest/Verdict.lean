/-! Verdicts on one side of a contract on one chain. -/

namespace Attest

inductive Verdict where
  | exact
  /-- All but the metadata trailer is the same. -/
  | upToTrailer
  | different
  /-- There was nothing to compare. -/
  | absent
  deriving DecidableEq, Repr

namespace Verdict

def label : Verdict → String
  | exact => "ExactMatch"
  | upToTrailer => "PartialMatch"
  | different => "NoMatch"
  | absent => "Absent"

def ofLabel? (s : String) : Option Verdict :=
  [exact, upToTrailer, different, absent].find? (·.label == s)

def isMatch : Verdict → Bool
  | exact | upToTrailer => true
  | different | absent => false

end Verdict

end Attest
