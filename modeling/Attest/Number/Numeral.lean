import Attest.Number.Binary64
import Attest.Text.Blank
import Attest.Text.Digit
import Attest.Text.Quoted

/-! Reading integers and doubles from text: blanks around, a sign, digits of any script, and single
underscores between digits. -/

namespace Attest.Numeral

/-- Blanks beyond ASCII become spaces and digits of other scripts ASCII digits; what is ASCII stays. -/
def normalize (cs : List Char) : List Char :=
  cs.map fun c =>
    if c.toNat < 0x80 then c
    else if Text.isBlank c then ' '
    else match Text.decimalValue? c with
      | some d => Nat.digitChar d
      | none => c

def trimmed (s : String) : List Char :=
  Text.trimBy Text.isAsciiBlank (normalize s.toList)

/-- The sign of a numeral, `true` for minus, and the rest. -/
def splitSign : List Char → Bool × List Char
  | '-' :: rest => (true, rest)
  | '+' :: rest => (false, rest)
  | cs => (false, cs)

def digitValue? (base : Nat) (c : Char) : Option Nat :=
  let v :=
    if c.isDigit then some (c.toNat - 48)
    else if 'a' ≤ c && c ≤ 'z' then some (c.toNat - 87)
    else if 'A' ≤ c && c ≤ 'Z' then some (c.toNat - 55)
    else none
  v.filter (· < base)

/-- The digits after the first one, each with at most one underscore before it. -/
def digitsAfter (base : Nat) : Nat → List Char → Option Nat
  | acc, [] => some acc
  | acc, '_' :: c :: rest => do digitsAfter base (acc * base + (← digitValue? base c)) rest
  | acc, c :: rest => do digitsAfter base (acc * base + (← digitValue? base c)) rest

def natural? (base : Nat) : List Char → Option Nat
  | [] => none
  | c :: rest => do digitsAfter base (← digitValue? base c) rest

/-- How many digits a decimal numeral may have, to be read or to be written. -/
def digitLimit : Nat := 4300

/-- The least number that is too long to be written. -/
def writableBound : Nat := Nat.pow 10 digitLimit

/-- Whether an integer has no more digits than can be written. -/
def isWritable (i : Int) : Bool := decide (i.natAbs < writableBound)

/-- Why a text is no integer. -/
inductive Fault where
  | malformed (given : String)
  | tooLong (digits : Nat)
  deriving DecidableEq, Repr

/-- How much of a malformed text is shown. -/
def shownLength : Nat := 200

/-- What a number with too many digits meets. -/
def limitText : String := s!"Exceeds the limit ({digitLimit} digits) for integer string conversion"

def adviceText : String := "use sys.set_int_max_str_digits() to increase the limit"

def Fault.message : Fault → String
  | malformed given =>
      "invalid literal for int() with base 10: " ++
        String.ofList ((Text.quoted given).toList.take shownLength)
  | tooLong digits => s!"{limitText}: value has {digits} digits; {adviceText}"

/-- What is said of an integer that is too long to be written. -/
def unwritableText : String := s!"{limitText}; {adviceText}"

/-- Whether underscores stand singly and not at the end. -/
def underscoresFit : List Char → Bool
  | [] => true
  | ['_'] => false
  | '_' :: '_' :: _ => false
  | _ :: cs => underscoresFit cs

/-- An integer in base ten. Its length is judged before what follows its digits. -/
def readInt (s : String) : Except Fault Int :=
  let (negative, digits) := splitSign (trimmed s)
  let run := digits.takeWhile fun c => c.isDigit || c == '_'
  let count := run.countP Char.isDigit
  if run.head? ≠ some '_' ∧ underscoresFit run ∧ digitLimit < count then .error (.tooLong count)
  else
    match natural? 10 digits with
    | some n => .ok (if negative then -n else n)
    | none => .error (.malformed s)

def int? (s : String) : Option Int := (readInt s).toOption

/-- An integer in base sixteen, with or without `0x`, after which an underscore may stand. -/
def hexInt? (s : String) : Option Int := do
  let (negative, digits) := splitSign (trimmed s)
  let digits := match digits with
    | '0' :: x :: '_' :: rest => if x = 'x' ∨ x = 'X' then rest else digits
    | '0' :: x :: rest => if x = 'x' ∨ x = 'X' then rest else digits
    | _ => digits
  let n ← natural? 16 digits
  some (if negative then -n else n)

/-- Without the underscores, provided each stands between two digits. -/
def dropUnderscores : Option Char → List Char → Option (List Char)
  | _, [] => some []
  | before, '_' :: rest => do
      let d ← before
      let next ← rest.head?
      if d.isDigit && next.isDigit then dropUnderscores (some '_') rest else none
  | _, c :: rest => (dropUnderscores (some c) rest).map (c :: ·)

def lowerAscii (cs : List Char) : String := String.ofList (cs.map Char.toLower)

def naturalOf (ds : List Char) : Nat :=
  ds.foldl (fun n d => n * 10 + (d.toNat - 48)) 0

/-- An exponent: nothing, or `e`, a sign and digits. -/
def exponent? : List Char → Option Int
  | [] => some 0
  | c :: rest =>
      if c = 'e' ∨ c = 'E' then
        let (negative, ds) := splitSign rest
        if ds.isEmpty || !ds.all Char.isDigit then none
        else some (if negative then -(naturalOf ds : Int) else naturalOf ds)
      else none

/-- Digits with a point somewhere and an exponent, as significand and power of ten. -/
def decimal? (cs : List Char) : Option (Nat × Int) := do
  let whole := cs.takeWhile Char.isDigit
  let rest := cs.dropWhile Char.isDigit
  let (fraction, rest) := match rest with
    | '.' :: rest => (rest.takeWhile Char.isDigit, rest.dropWhile Char.isDigit)
    | _ => ([], rest)
  if whole.isEmpty && fraction.isEmpty then none
  else
    let e ← exponent? rest
    some (naturalOf (whole ++ fraction), e - fraction.length)

/-- A double: a decimal numeral, `inf`, `infinity` or `nan` in any letter case. -/
def double? (s : String) : Option Binary64 := do
  let cs ← dropUnderscores none (trimmed s)
  let (negative, body) := splitSign cs
  let word := lowerAscii body
  if word = "inf" ∨ word = "infinity" then some (.infinite negative)
  else if word = "nan" then some .undefined
  else
    let (m, e) ← decimal? body
    some (.ofDecimal negative m e)

example : int? " 1_0 " = some 10 ∧ int? "٣٥" = some 35 ∧ int? "²" = none ∧ int? "1__0" = none := by
  decide +kernel

example : hexInt? "0x_10" = some 16 ∧ hexInt? "-F" = some (-15) ∧ hexInt? "0x" = none := by
  decide +kernel

example : double? "1_0.5e1" = some (.ofInt 105) ∧ double? "." = none ∧
    double? "-Infinity" = some (.infinite true) := by
  decide +kernel

end Attest.Numeral
