import Attest.Cbor.Item

/-! Reading one data item from the front of a byte string, in the standard way that trailers are assumed
to be read in. Whatever is no well-formed item is refused without a reason; what follows the item is
left. -/

namespace Attest.Cbor

/-- An item and the bytes after it. -/
abbrev Taken (α : Type) := α × Bytes

/-- The first `count` bytes, if there are so many. -/
def take? (count : Nat) (bs : Bytes) : Option (Taken Bytes) :=
  if bs.length < count then none else some (bs.take count, bs.drop count)

/-- What the low five bits of an initial byte announce. -/
inductive Size where
  | definite (value : Nat)
  | indefinite

/-- The size that follows an initial byte: a small number itself, or one, two, four or eight bytes
of it; any width is accepted. -/
def size? (info : Nat) (bs : Bytes) : Option (Taken Size) :=
  if info < 24 then some (.definite info, bs)
  else if info < 28 then
    (take? (Nat.pow 2 (info - 24)) bs).map fun (v, rest) => (.definite (Bytes.toNat v), rest)
  else if info = 31 then some (.indefinite, bs)
  else none

/-- The size that must be there. -/
def definite? (info : Nat) (bs : Bytes) : Option (Taken Nat) := do
  match ← size? info bs with
  | (.definite n, rest) => some (n, rest)
  | (.indefinite, _) => none

def major (b : UInt8) : Nat := b.toNat / 32

def info (b : UInt8) : Nat := b.toNat % 32

/-- The byte that ends an item of indefinite length. -/
def breakByte : UInt8 := 0xff

/-- The double that a sign, an exponent field and a fraction field stand for. -/
def doubleOf (exponentBits fractionBits n : Nat) : Binary64 :=
  let negative := n / Nat.pow 2 (exponentBits + fractionBits) % 2 == 1
  let exponent := n / Nat.pow 2 fractionBits % Nat.pow 2 exponentBits
  let fraction := n % Nat.pow 2 fractionBits
  let bias := Nat.pow 2 (exponentBits - 1) - 1
  if exponent = Nat.pow 2 exponentBits - 1 then
    if fraction = 0 then .infinite negative else .undefined
  else
    let m := if exponent = 0 then fraction else Nat.pow 2 fractionBits + fraction
    let up := if exponent = 0 then 1 else exponent
    .ofRatio negative (m * Nat.pow 2 up) (Nat.pow 2 (bias + fractionBits))

def utf8? (bs : Bytes) : Option String := String.fromUTF8? (ByteArray.mk bs.toArray)

/-- Chunks of one kind, each of definite length, up to the break. -/
def chunks? (kind : Nat) : (fuel : Nat) → Bytes → Option (Taken (List Bytes))
  | 0, _ => none
  | _ + 1, [] => none
  | fuel + 1, b :: rest =>
      if b = breakByte then some ([], rest)
      else if major b = kind then do
        let (count, rest) ← definite? (info b) rest
        let (chunk, rest) ← take? count rest
        let (more, rest) ← chunks? kind fuel rest
        some (chunk :: more, rest)
      else none

def utf8Chunks? : List Bytes → Option String
  | [] => some ""
  | c :: cs => do
      let head ← utf8? c
      let tail ← utf8Chunks? cs
      some (head ++ tail)

/-- A byte or text string. -/
def string? (kind lead : Nat) (bs : Bytes) : Option (Taken (List Bytes)) := do
  match ← size? lead bs with
  | (.definite count, rest) => do
      let (body, rest) ← take? count rest
      some ([body], rest)
  | (.indefinite, rest) => chunks? kind (rest.length + 1) rest

/-- A floating-point number of `count` bytes. -/
def float? (count : Nat) (value : Nat → Binary64) (bs : Bytes) : Option (Taken Item) :=
  (take? count bs).map fun (v, rest) => (.float (value (Bytes.toNat v)), rest)

/-- Simple values and floating-point numbers. -/
def simple? (lead : Nat) (bs : Bytes) : Option (Taken Item) :=
  if lead < 20 then some (.simple lead, bs)
  else if lead = 20 then some (.bool false, bs)
  else if lead = 21 then some (.bool true, bs)
  else if lead = 22 then some (.null, bs)
  else if lead = 23 then some (.undefined, bs)
  else if lead = 24 then
    match bs with
    | b :: rest => if b.toNat < 32 then none else some (.simple b.toNat, rest)
    | [] => none
  else if lead = 25 then float? 2 (doubleOf 5 10) bs
  else if lead = 26 then float? 4 (doubleOf 8 23) bs
  else if lead = 27 then float? 8 (doubleOf 11 52) bs
  else none

/-- The tag that says of an item only that it is one. -/
def selfDescribed : Nat := 55799

/-- A tagged item: tags 2 and 3 make integers of byte strings, and the one that says nothing leaves
the content as it is. All others are kept, also those that a decoder might make dates, fractions or
references of. -/
def tagged? (tag : Nat) (content : Item) : Option Item :=
  match tag, content with
  | 2, .bytes b => some (.int (Bytes.toNat b))
  | 3, .bytes b => some (.int (-1 - Bytes.toNat b))
  | 2, _ | 3, _ => none
  | _, _ => some (if tag = selfDescribed then content else .tagged tag content)

/-- How deep lists, maps and tags may be nested. -/
def depthLimit : Nat := 400

mutual
/-- One item inside `depth` lists, maps and tags. Its lists and maps are fixed if it is told so, and
those in keys and under tags in any case. -/
def item? : (fuel depth : Nat) → (fixed : Bool) → Bytes → Option (Taken Item)
  | 0, _, _, _ => none
  | _, _, _, [] => none
  | fuel + 1, depth, fixed, b :: rest =>
      match major b with
      | 0 => do
          let (n, rest) ← definite? (info b) rest
          some (.int n, rest)
      | 1 => do
          let (n, rest) ← definite? (info b) rest
          some (.int (-1 - n), rest)
      | 2 => do
          let (parts, rest) ← string? 2 (info b) rest
          some (.bytes parts.flatten, rest)
      | 3 => do
          let (parts, rest) ← string? 3 (info b) rest
          some (.text (← utf8Chunks? parts), rest)
      | 4 =>
          if depthLimit ≤ depth then none
          else do
            match ← size? (info b) rest with
            | (.definite count, rest) => do
                let (xs, rest) ← items? fuel (depth + 1) fixed count rest
                some (.list fixed xs, rest)
            | (.indefinite, rest) => do
                let (xs, rest) ← openItems? fuel (depth + 1) fixed rest
                some (.list fixed xs, rest)
      | 5 =>
          if depthLimit ≤ depth then none
          else do
            match ← size? (info b) rest with
            | (.definite count, rest) => do
                let (es, rest) ← entries? fuel (depth + 1) fixed count rest
                some (.map fixed (Item.entriesOf es), rest)
            | (.indefinite, rest) => do
                let (es, rest) ← openEntries? fuel (depth + 1) fixed rest
                some (.map fixed (Item.entriesOf es), rest)
      | 6 =>
          if depthLimit ≤ depth then none
          else do
            let (tag, rest) ← definite? (info b) rest
            let (content, rest) ← item? fuel (depth + 1) true rest
            some (← tagged? tag content, rest)
      | _ => simple? (info b) rest

/-- `count` items. -/
def items? : (fuel depth : Nat) → (fixed : Bool) → (count : Nat) → Bytes →
    Option (Taken (List Item))
  | 0, _, _, _, _ => none
  | _, _, _, 0, bs => some ([], bs)
  | fuel + 1, depth, fixed, count + 1, bs => do
      let (x, rest) ← item? fuel depth fixed bs
      let (xs, rest) ← items? fuel depth fixed count rest
      some (x :: xs, rest)

/-- Items up to the break. -/
def openItems? : (fuel depth : Nat) → (fixed : Bool) → Bytes → Option (Taken (List Item))
  | 0, _, _, _ => none
  | _, _, _, [] => none
  | fuel + 1, depth, fixed, b :: rest =>
      if b = breakByte then some ([], rest)
      else do
        let (x, rest) ← item? fuel depth fixed (b :: rest)
        let (xs, rest) ← openItems? fuel depth fixed rest
        some (x :: xs, rest)

/-- `count` keys with their values. -/
def entries? : (fuel depth : Nat) → (fixed : Bool) → (count : Nat) → Bytes →
    Option (Taken (List (Item × Item)))
  | 0, _, _, _, _ => none
  | _, _, _, 0, bs => some ([], bs)
  | fuel + 1, depth, fixed, count + 1, bs => do
      let (k, rest) ← item? fuel depth true bs
      let (v, rest) ← item? fuel depth fixed rest
      let (es, rest) ← entries? fuel depth fixed count rest
      some ((k, v) :: es, rest)

/-- Keys with their values up to a break in the place of a key. -/
def openEntries? : (fuel depth : Nat) → (fixed : Bool) → Bytes →
    Option (Taken (List (Item × Item)))
  | 0, _, _, _ => none
  | _, _, _, [] => none
  | fuel + 1, depth, fixed, b :: rest =>
      if b = breakByte then some ([], rest)
      else do
        let (k, rest) ← item? fuel depth true (b :: rest)
        let (v, rest) ← item? fuel depth fixed rest
        let (es, rest) ← openEntries? fuel depth fixed rest
        some ((k, v) :: es, rest)
end

/-- The item at the front of a byte string and what follows it. -/
def read? (bs : Bytes) : Option (Taken Item) := item? (2 * bs.length + 2) 0 false bs

end Attest.Cbor
