/-! Double-precision numbers, held as sign, significand and binary exponent, so that every value and
every rounding is plain arithmetic. -/

namespace Attest

/-- A double. `finite negative m e` is `m * 2 ^ e` with that sign; rounding keeps
`2 ^ 52 ≤ m < 2 ^ 53`, or `m < 2 ^ 52` at the least exponent. -/
inductive Binary64 where
  | finite (negative : Bool) (significand : Nat) (exponent : Int)
  | infinite (negative : Bool)
  | undefined
  deriving DecidableEq, Repr

namespace Binary64

def precision : Nat := 53
def leastExponent : Int := -1074
def greatestExponent : Int := 971

/-- The quotient rounded to the nearest integer, a half to the even one. -/
def roundQuotient (num den : Nat) : Nat :=
  let q := num / den
  let r := num % den
  if 2 * r < den then q else if den < 2 * r then q + 1 else if q % 2 = 0 then q else q + 1

/-- `num / den` over `2 ^ e`, as a fraction again. -/
def scale (num den : Nat) (e : Int) : Nat × Nat :=
  if 0 ≤ e then (num, den * Nat.pow 2 e.toNat) else (num * Nat.pow 2 (-e).toNat, den)

/-- The exponent at which a positive fraction has its full precision. -/
def fittingExponent (num den : Nat) : Int :=
  let e := (num.log2 : Int) - den.log2 - precision
  let (n, d) := scale num den e
  max leastExponent (if Nat.pow 2 precision ≤ n / d then e + 1 else e)

/-- The double nearest to `num / den` with the given sign. -/
def ofRatio (negative : Bool) (num den : Nat) : Binary64 :=
  if num = 0 then finite negative 0 leastExponent
  else
    let e := fittingExponent num den
    let (n, d) := scale num den e
    let m := roundQuotient n d
    let (m, e) := if m = Nat.pow 2 precision then (Nat.pow 2 (precision - 1), e + 1) else (m, e)
    if greatestExponent < e then infinite negative else finite negative m e

def ofRat (q : Rat) : Binary64 :=
  ofRatio (q < 0) q.num.natAbs q.den

def ofInt (i : Int) : Binary64 :=
  ofRatio (i < 0) i.natAbs 1

/-- The exact value of a finite double. -/
def toRat? : Binary64 → Option Rat
  | finite negative m e =>
      let (num, den) := scale m 1 (-e)
      let q := mkRat num den
      some (if negative then -q else q)
  | _ => none

/-- Beyond this decimal order of magnitude every double is infinite, below its negative zero. -/
def decimalReach : Int := 400

/-- The double nearest to `m * 10 ^ e`. -/
def ofDecimal (negative : Bool) (m : Nat) (e : Int) : Binary64 :=
  let order : Int := m.log2 * 3 / 10 + e
  if m = 0 ∨ order < -decimalReach then finite negative 0 leastExponent
  else if decimalReach < order then infinite negative
  else if 0 ≤ e then ofRatio negative (m * Nat.pow 10 e.toNat) 1
  else ofRatio negative m (Nat.pow 10 (-e).toNat)

/-- Twice the number. -/
def double : Binary64 → Binary64
  | finite negative m e =>
      if e = greatestExponent ∧ Nat.pow 2 (precision - 1) ≤ m then infinite negative
      else if m < Nat.pow 2 (precision - 1) then finite negative (2 * m) e
      else finite negative m (e + 1)
  | x => x

/-- The sum, rounded. Opposite infinities have none. -/
def add : Binary64 → Binary64 → Binary64
  | undefined, _ | _, undefined => undefined
  | infinite a, infinite b => if a = b then infinite a else undefined
  | infinite a, _ | _, infinite a => infinite a
  | finite true 0 _, finite true 0 e => finite true 0 e
  | x, y => ofRat (x.toRat?.getD 0 + y.toRat?.getD 0)

/-- Whether the number is greater than an integer. -/
def isAbove (x : Binary64) (i : Int) : Bool :=
  match x with
  | infinite negative => !negative
  | x => x.toRat?.any fun q => decide ((i : Rat) < q)

/-- Whether the number is less than zero. -/
def isNegative : Binary64 → Bool
  | finite negative m _ => negative && m != 0
  | infinite negative => negative
  | undefined => false

/-- Zero of either sign. -/
def isZero : Binary64 → Bool
  | finite _ m _ => m == 0
  | _ => false

/-- The integer toward zero, of a finite double. -/
def truncate? (x : Binary64) : Option Int :=
  x.toRat?.map fun q => Int.tdiv q.num q.den

example : ofDecimal false 1 (-1) = finite false 0x1999999999999a (-56) := by decide +kernel

example : ofDecimal true 25 (-1) = finite true (5 * 0x4000000000000) (-51) := by decide +kernel

example : ofDecimal false 1 400 = infinite false ∧
    ofDecimal false 5 (-324) = finite false 1 (-1074) := by
  decide +kernel

end Attest.Binary64
