import Attest.Document

/-! Durations: points of time as clocks keep them, and the limits that settings and callers put on
spans of time. -/

namespace Attest

/-- Points and spans of time, in seconds. Clocks keep them as doubles. -/
abbrev Seconds := Rat

namespace Seconds

/-- A span of time that is not negative: itself, or no time at all. -/
def clamp (s : Seconds) : Seconds := if s < 0 then 0 else s

/-- The nearest time that a clock can keep. -/
def nearest (s : Seconds) : Seconds := (Binary64.ofRat s).toRat?.getD s

/-- The time a span after a start. -/
def after (start span : Seconds) : Seconds := nearest (start + span)

/-- A point of time that is not in the past: the present instead of an earlier one. -/
def notBefore (now t : Seconds) : Seconds := if t < now then now else t

/-- The span since a start. -/
def since (now start : Seconds) : Seconds := nearest (now - start)

/-- Points of time that are no further apart count as one. -/
def resolution : Seconds := 1 / 1000000000

end Seconds

/-- A limit as it is written: a whole number of seconds, or a double. -/
inductive Limit where
  | whole (seconds : Int)
  | span (seconds : Binary64)
  deriving DecidableEq, Repr

namespace Limit

/-- A limit as a document. -/
def toDocument : Limit → Document
  | whole n => .int n
  | span x => .float x

def text (l : Limit) : String := l.toDocument.plain

def ofDocument? : Document → Option Limit
  | .int n => some (whole n)
  | .float x => some (span x)
  | _ => none

/-- The seconds of a limit that is a number. -/
def seconds? : Limit → Option Seconds
  | whole n => some n
  | span x => x.toRat?

/-- Whether a span of time is longer than the limit. No span is longer than what is no number. -/
def isExceededBy (l : Limit) (elapsed : Seconds) : Bool :=
  match l with
  | span (.infinite negative) => negative
  | l => l.seconds?.any fun s => decide (s < elapsed)

/-- Whether one limit is longer than another; what is no number is neither longer nor shorter. -/
def isLonger (l m : Limit) : Bool :=
  match l, m with
  | span .undefined, _ => false
  | _, span .undefined => false
  | _, span (.infinite true) => match l with
      | span (.infinite true) => false
      | _ => true
  | span (.infinite false), m => match m with
      | span (.infinite false) => false
      | _ => true
  | l, m =>
      match l.seconds?, m.seconds? with
      | some a, some b => decide (b < a)
      | _, _ => false

/-- The shorter of two limits, the first if neither is. -/
def shorter (l m : Limit) : Limit := if l.isLonger m then m else l

end Limit

/-- When patience is at its end. -/
inductive Expiry where
  | at (time : Seconds)
  /-- As soon as time has to pass at all. -/
  | atOnce
  | never
  deriving DecidableEq, Repr

/-- The end of a timeout that begins at a start. What is no number leaves no time here, although a list
of timers in order need not see it that way. -/
def Expiry.after (start : Seconds) : Binary64 → Expiry
  | .infinite false => never
  | .infinite true | .undefined => atOnce
  | timeout => .at (start.after (timeout.toRat?.getD 0))

/-- Whether a number of seconds has passed before it began. -/
def Binary64.isOver : Binary64 → Bool
  | .infinite negative => negative
  | x => x.toRat?.any fun s => decide (s ≤ 0)

end Attest
