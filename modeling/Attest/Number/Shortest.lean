import Attest.Number.Binary64

/-! The fewest decimal digits that read back as a given double, and their layout as text. -/

namespace Attest.Binary64

/-- `digits * 10 ^ exponent`. -/
structure Decimal where
  digits : Nat
  exponent : Int
  deriving DecidableEq, Repr

def decimalLength (n : Nat) : Nat := (Nat.toDigits 10 n).length

/-- The place of the first digit of a positive fraction: `10 ^ (k - 1) ≤ num / den < 10 ^ k`. -/
def decimalPlace (num den : Nat) : Int :=
  if den ≤ num then decimalLength (num / den)
  else 1 - (decimalLength ((den + num - 1) / num - 1) : Nat)

/-- The reals that round to `m * 2 ^ e`, in quarters of `2 ^ e`: from `lower` to `upper`, both ends
included exactly when `m` is even. -/
structure Interval where
  lower : Nat
  upper : Nat
  closed : Bool

def roundingInterval (m : Nat) (e : Int) : Interval where
  lower := if m = Nat.pow 2 (precision - 1) ∧ e ≠ leastExponent then 4 * m - 1 else 4 * m - 2
  upper := 4 * m + 2
  closed := m % 2 == 0

/-- `num / den` against an integer bound of the interval. -/
def Interval.contains (i : Interval) (num den : Nat) : Bool :=
  if i.closed then i.lower * den ≤ num && num ≤ i.upper * den
  else i.lower * den < num && num < i.upper * den

/-- The point `digits * 10 ^ exponent` in quarters of `2 ^ e`. -/
def Decimal.quarters (d : Decimal) (e : Int) : Nat × Nat :=
  let (num, den) :=
    if 0 ≤ d.exponent then (d.digits * Nat.pow 10 d.exponent.toNat, 1)
    else (d.digits, Nat.pow 10 (-d.exponent).toNat)
  scale num den (e - 2)

/-- Of the two neighbours of `m * 2 ^ e` on the grid of `count` digits, the nearer one that rounds to
it; a tie goes to the even digit. -/
def onGrid? (m : Nat) (e : Int) (place : Int) (count : Nat) : Option Decimal :=
  let grid := place - count
  let (num, den) := if 0 ≤ e then (m * Nat.pow 2 e.toNat, 1) else (m, Nat.pow 2 (-e).toNat)
  let (num, den) :=
    if 0 ≤ grid then (num, den * Nat.pow 10 grid.toNat) else (num * Nat.pow 10 (-grid).toNat, den)
  let below : Decimal := ⟨num / den, grid⟩
  let above : Decimal := ⟨num / den + 1, grid⟩
  let fits (d : Decimal) : Bool :=
    let (n, k) := d.quarters e
    (roundingInterval m e).contains n k
  let r := num % den
  match fits below, fits above with
  | true, true =>
      if 2 * r < den then some below
      else if den < 2 * r then some above
      else if below.digits % 2 = 0 then some below else some above
  | true, false => some below
  | false, true => some above
  | false, false => none

/-- The first grid with a hit; seventeen digits always hit. -/
def shortest (m : Nat) (e : Int) : Decimal :=
  let (num, den) := if 0 ≤ e then (m * Nat.pow 2 e.toNat, 1) else (m, Nat.pow 2 (-e).toNat)
  let place := decimalPlace num den
  ((List.range' 1 17).findSome? (onGrid? m e place)).getD ⟨m, e⟩

/-- Decimal exponents from this one on are written with positional digits. -/
def leastPositional : Int := -4

/-- Decimal exponents from this one on are written with an exponent again. -/
def endPositional : Int := 16

def zeros (n : Nat) : String := String.ofList (List.replicate n '0')

def dropTrailingZeros (cs : List Char) : List Char :=
  match (cs.reverse.dropWhile (· = '0')).reverse with
  | [] => ['0']
  | ds => ds

/-- Digits with the point after the first `point` of them: positional with at least one digit on
either side, or with a signed exponent of at least two digits. -/
def layout (ds : List Char) (point : Int) : String :=
  let exponent := point - 1
  let count : Int := ds.length
  if leastPositional ≤ exponent ∧ exponent < endPositional then
    if point ≤ 0 then "0." ++ zeros (-point).toNat ++ String.ofList ds
    else if count ≤ point then String.ofList ds ++ zeros (point - count).toNat ++ ".0"
    else String.ofList (ds.take point.toNat) ++ "." ++ String.ofList (ds.drop point.toNat)
  else
    let head := String.ofList (ds.take 1)
    let tail := if ds.length ≤ 1 then "" else "." ++ String.ofList (ds.drop 1)
    let size := toString exponent.natAbs
    let size := if size.length < 2 then "0" ++ size else size
    head ++ tail ++ "e" ++ (if exponent < 0 then "-" else "+") ++ size

/-- A double as text, with the fewest digits that read back. -/
def text : Binary64 → String
  | undefined => "nan"
  | infinite negative => if negative then "-inf" else "inf"
  | finite negative m e =>
      let body :=
        if m = 0 then "0.0"
        else
          let d := shortest m e
          let all := Nat.toDigits 10 d.digits
          layout (dropTrailingZeros all) (all.length + d.exponent)
      if negative then "-" ++ body else body

example : (ofDecimal false 1 (-1)).text = "0.1" := by decide +kernel

example : (ofDecimal false 1 16).text = "1e+16" ∧
    (ofDecimal false 1 15).text = "1000000000000000.0" := by
  decide +kernel

example : (ofDecimal true 1 (-5)).text = "-1e-05" ∧ (ofDecimal false 5 (-324)).text = "5e-324" := by
  decide +kernel

end Attest.Binary64
