/-! Byte strings and the numbers they hold, most significant byte first. -/

namespace Attest

/-- Code, calldata, metadata. -/
abbrev Bytes := List UInt8

namespace Bytes

def toNat (bs : Bytes) : Nat :=
  bs.foldl (fun n b => n * 256 + b.toNat) 0

/-- The lowest `count` bytes of a number. -/
def ofNat : (count n : Nat) → Bytes
  | 0, _ => []
  | count + 1, n => ofNat count (n / 256) ++ [UInt8.ofNat n]

/-- The `count` bytes from `start` on, or those of them that are there. -/
def slice (bs : Bytes) (start count : Nat) : Bytes :=
  (bs.drop start).take count

def zeros (count : Nat) : Bytes := List.replicate count 0

@[simp] theorem length_ofNat (count n : Nat) : (ofNat count n).length = count := by
  induction count generalizing n with
  | zero => rfl
  | succ count ih => simp [ofNat, ih]

theorem toNat_append_singleton (bs : Bytes) (b : UInt8) :
    toNat (bs ++ [b]) = toNat bs * 256 + b.toNat := by
  simp [toNat]

theorem toNat_ofNat (count n : Nat) : toNat (ofNat count n) = n % Nat.pow 256 count := by
  induction count generalizing n with
  | zero => simp [ofNat, toNat, Nat.mod_one]
  | succ count ih =>
      have hb : (UInt8.ofNat n).toNat = n % 256 := UInt8.toNat_ofNat'
      have hp : Nat.pow 256 (count + 1) = 256 * Nat.pow 256 count := Nat.mul_comm _ _
      rw [ofNat, toNat_append_singleton, ih, hb, hp, Nat.mod_mul, Nat.mul_comm, Nat.add_comm]

theorem length_slice (bs : Bytes) (start count : Nat) :
    (slice bs start count).length = min count (bs.length - start) := by
  simp [slice]

end Bytes

end Attest
