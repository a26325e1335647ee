import Attest.Bytes

/-! Bytes as pairs of hexadecimal digits. -/

namespace Attest.Hex

def digit (n : Nat) : Char :=
  if n < 10 then Char.ofNat (48 + n) else Char.ofNat (87 + n)

def value? (c : Char) : Option Nat :=
  if '0' ≤ c && c ≤ '9' then some (c.toNat - 48)
  else if 'a' ≤ c && c ≤ 'f' then some (c.toNat - 87)
  else if 'A' ≤ c && c ≤ 'F' then some (c.toNat - 55)
  else none

def digits (bs : Bytes) : List Char :=
  bs.flatMap fun b => [digit (b.toNat / 16), digit (b.toNat % 16)]

/-- Two digits a byte, in lower case. -/
def encode (bs : Bytes) : String := String.ofList (digits bs)

/-- The same with the usual `0x` in front. -/
def encodePrefixed (bs : Bytes) : String := "0x" ++ encode bs

/-- The blanks that may stand between two bytes. -/
def isGap (c : Char) : Bool :=
  c == ' ' || (0x09 ≤ c.toNat && c.toNat ≤ 0x0d)

/-- A text that is no hexadecimal byte string. -/
structure Fault where
  /-- The place of the first character that does not fit. -/
  position : Nat
  deriving DecidableEq, Repr

def Fault.message (f : Fault) : String :=
  s!"non-hexadecimal number found in fromhex() arg at position {f.position}"

/-- Pairs of digits, `position` characters into the text. -/
def pairs (position : Nat) : List Char → Except Fault Bytes
  | [] => .ok []
  | c :: rest =>
      if isGap c then pairs (position + 1) rest
      else
        match value? c, rest with
        | none, _ => .error ⟨position⟩
        | some _, [] => .error ⟨position + 1⟩
        | some high, d :: rest =>
            match value? d with
            | none => .error ⟨position + 1⟩
            | some low => (pairs (position + 2) rest).map (UInt8.ofNat (16 * high + low) :: ·)

/-- Without one leading `0x` or `0X`. -/
def dropMark : List Char → List Char
  | '0' :: 'x' :: rest => rest
  | '0' :: 'X' :: rest => rest
  | cs => cs

/-- A character beyond ASCII is at fault before any other. -/
def decodeChars (cs : List Char) : Except Fault Bytes :=
  match cs.findIdx? fun c => 0x80 ≤ c.toNat with
  | some i => .error ⟨i⟩
  | none => pairs 0 cs

/-- The bytes of a text, with or without `0x` in front. Places count from after the mark. -/
def decode (s : String) : Except Fault Bytes := decodeChars (dropMark s.toList)

theorem value?_digit {n : Nat} (h : n < 16) : value? (digit n) = some n := by
  revert h; revert n; decide

theorem not_isGap_digit {n : Nat} (h : n < 16) : isGap (digit n) = false := by
  revert h; revert n; decide

theorem pairs_digits (position : Nat) (bs : Bytes) : pairs position (digits bs) = .ok bs := by
  induction bs generalizing position with
  | nil => rfl
  | cons b bs ih =>
      have hb : b.toNat < 256 := b.toNat_lt
      have hh : b.toNat / 16 < 16 := by omega
      have hl : b.toNat % 16 < 16 := by omega
      have he : 16 * (b.toNat / 16) + b.toNat % 16 = b.toNat := by omega
      have ih' : pairs (position + 2) (digits bs) = .ok bs := ih _
      simp only [digits, List.flatMap_cons, List.cons_append, List.nil_append] at ih' ⊢
      simp [pairs, not_isGap_digit hh, value?_digit hh, value?_digit hl, he, ih', Except.map]

end Attest.Hex
