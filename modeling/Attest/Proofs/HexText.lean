import Attest.Bytes.Hex
import Attest.Proofs.Outcome
import Mathlib.Data.Bool.AllAny
import Mathlib.Tactic.ByContra

/-! # Texts of hexadecimal digits

Bytes are written with two digits each. They are read from the digits in either letter case, with or
without a mark in front and with blanks around the pairs, and from no other text. -/

namespace Attest.Hex

/-! ## What is written -/

theorem digits_cons (b : UInt8) (bs : Bytes) :
    digits (b :: bs) = digit (b.toNat / 16) :: digit (b.toNat % 16) :: digits bs := rfl

theorem length_encode (bs : Bytes) : (encode bs).length = 2 * bs.length := by
  rw [encode, String.length_ofList]
  induction bs with
  | nil => rfl
  | cons b bs ih =>
    simp only [digits_cons, List.length_cons, ih]
    omega

/-- Each digit of a byte string is one of the sixteen. -/
theorem forall_mem_digits {p : Char → Prop} (hp : ∀ n < 16, p (digit n)) (bs : Bytes) :
    ∀ c ∈ digits bs, p c := by
  intro c hc
  obtain ⟨b, -, hc⟩ := List.mem_flatMap.mp hc
  have hb : b.toNat < 256 := b.toNat_lt
  simp only [List.mem_cons, List.not_mem_nil, or_false] at hc
  obtain rfl | rfl := hc
  · exact hp (b.toNat / 16) (by omega)
  · exact hp (b.toNat % 16) (by omega)

theorem map_toLower_digits (bs : Bytes) : (digits bs).map Char.toLower = digits bs := by
  have hlower : ∀ c ∈ digits bs, c.toLower = c := forall_mem_digits (by decide) bs
  exact (List.map_congr_left hlower).trans (List.map_id _)

/-! ## Digits and blanks -/

def allDigits : List Char := "0123456789abcdefABCDEF".toList

/-- Space, tab, line feed, vertical tab, form feed and carriage return. -/
def allGaps : List Char := " \t\n\x0b\x0c\r".toList

theorem toNat_lt_of_value? {c : Char} {n : Nat} (h : value? c = some n) : c.toNat < 128 := by
  have hc : c.toNat = c.val.toNat := rfl
  have hnine : ('9' : Char).val.toNat = 57 := rfl
  have hsmall : ('f' : Char).val.toNat = 102 := rfl
  have hlarge : ('F' : Char).val.toNat = 70 := rfl
  unfold value? at h
  simp only [Bool.and_eq_true, decide_eq_true_eq, Char.le_def, UInt32.le_iff_toNat_le] at h
  split at h
  · omega
  · split at h
    · omega
    · split at h
      · omega
      · cases h

theorem toLower_of_le {c : Char} (h : 128 ≤ c.toNat) : c.toLower = c := by
  have hc : c.toNat = c.val.toNat := rfl
  have hlast : ('Z' : Char).val.toNat = 90 := rfl
  unfold Char.toLower
  split
  · rename_i hupper
    have hle := UInt32.le_iff_toNat_le.mp hupper.2
    omega
  · rfl

/-- The characters of a value are its digit in either letter case. -/
theorem value?_eq_some_iff {c : Char} {n : Nat} :
    value? c = some n ↔ n < 16 ∧ c.toLower = digit n := by
  constructor
  · intro h
    have hascii : ∀ k < 128, ∀ v ∈ value? (Char.ofNat k),
        v < 16 ∧ (Char.ofNat k).toLower = digit v := by decide +kernel
    have hc := hascii c.toNat (toNat_lt_of_value? h)
    rw [Char.ofNat_toNat] at hc
    exact hc n h
  · rintro ⟨hn, h⟩
    have hdigit : ∀ k < 16, (digit k).toNat < 128 := by decide
    have hsmall : c.toNat < 128 := by
      by_contra hlarge
      rw [toLower_of_le (by omega)] at h
      exact hlarge (h ▸ hdigit n hn)
    have hascii : ∀ k < 128, ∀ n < 16, (Char.ofNat k).toLower = digit n →
        value? (Char.ofNat k) = some n := by decide +kernel
    have hc := hascii c.toNat hsmall
    rw [Char.ofNat_toNat] at hc
    exact hc n hn h

theorem mem_allDigits_iff {c : Char} : c ∈ allDigits ↔ ∃ n, value? c = some n := by
  constructor
  · intro h
    have hall : ∀ d ∈ allDigits, (value? d).isSome := List.all_iff_forall_prop.mp (by decide)
    exact Option.isSome_iff_exists.mp (hall c h)
  · rintro ⟨n, h⟩
    have hascii : ∀ k < 128, (value? (Char.ofNat k)).isSome → Char.ofNat k ∈ allDigits := by
      decide +kernel
    have hc := hascii c.toNat (toNat_lt_of_value? h)
    rw [Char.ofNat_toNat, h] at hc
    exact hc rfl

theorem isGap_iff {c : Char} : isGap c = true ↔ c ∈ allGaps := by
  constructor
  · intro h
    have hsmall : c.toNat < 33 := by
      simp only [isGap, Bool.or_eq_true, beq_iff_eq, Bool.and_eq_true, decide_eq_true_eq] at h
      rcases h with rfl | h
      · decide
      · omega
    have hascii : ∀ k < 33, isGap (Char.ofNat k) = true → Char.ofNat k ∈ allGaps := by
      decide +kernel
    have hc := hascii c.toNat hsmall
    rw [Char.ofNat_toNat] at hc
    exact hc h
  · intro h
    have hall : ∀ d ∈ allGaps, isGap d = true := List.all_iff_forall_prop.mp (by decide)
    exact hall c h

theorem not_mem_allGaps_of_value? {c : Char} {n : Nat} (h : value? c = some n) : c ∉ allGaps := by
  have hall : ∀ d ∈ allDigits, d ∉ allGaps := List.all_iff_forall_prop.mp (by decide)
  exact hall c (mem_allDigits_iff.mpr ⟨n, h⟩)

theorem isGap_eq_false_of_value? {c : Char} {n : Nat} (h : value? c = some n) : isGap c = false := by
  rw [← Bool.not_eq_true, isGap_iff]
  exact not_mem_allGaps_of_value? h

/-! ## Pairs of digits -/

/-- Pairs of digits in either letter case, with any blanks before, between and after them. -/
inductive Paired : List Char → Prop
  | done : Paired []
  | gap {c : Char} {cs : List Char} (hc : c ∈ allGaps) (h : Paired cs) : Paired (c :: cs)
  | pair {c d : Char} {cs : List Char} (hc : c ∈ allDigits) (hd : d ∈ allDigits) (h : Paired cs) :
      Paired (c :: d :: cs)

/-- The characters in lower case, without the blanks. -/
def condensed (cs : List Char) : List Char := (cs.filter fun c => c ∉ allGaps).map Char.toLower

theorem toNat_lt_of_paired {cs : List Char} (h : Paired cs) : ∀ c ∈ cs, c.toNat < 128 := by
  have hgaps : ∀ c ∈ allGaps, c.toNat < 128 := List.all_iff_forall_prop.mp (by decide)
  have hdigits : ∀ c ∈ allDigits, c.toNat < 128 := List.all_iff_forall_prop.mp (by decide)
  induction h with
  | done => simp
  | gap hc _ ih => exact List.forall_mem_cons.mpr ⟨hgaps _ hc, ih⟩
  | pair hc hd _ ih =>
    exact List.forall_mem_cons.mpr ⟨hdigits _ hc, List.forall_mem_cons.mpr ⟨hdigits _ hd, ih⟩⟩

theorem exists_pairs_of_paired {cs : List Char} (h : Paired cs) (position : Nat) :
    ∃ bs, pairs position cs = .ok bs := by
  induction h generalizing position with
  | done => exact ⟨[], rfl⟩
  | gap hc _ ih =>
    obtain ⟨bs, hbs⟩ := ih (position + 1)
    refine ⟨bs, ?_⟩
    unfold pairs
    simp [isGap_iff.mpr hc, hbs]
  | pair hc hd _ ih =>
    obtain ⟨high, hhigh⟩ := mem_allDigits_iff.mp hc
    obtain ⟨low, hlow⟩ := mem_allDigits_iff.mp hd
    obtain ⟨bs, hbs⟩ := ih (position + 2)
    refine ⟨UInt8.ofNat (16 * high + low) :: bs, ?_⟩
    simp [pairs, isGap_eq_false_of_value? hhigh, hhigh, hlow, hbs, Except.map]

/-- What is read is pairs, and it is what the bytes are written as but for blanks and letter case. -/
theorem paired_of_pairs {position : Nat} {cs : List Char} {bs : Bytes}
    (h : pairs position cs = .ok bs) : Paired cs ∧ digits bs = condensed cs := by
  fun_induction pairs position cs generalizing bs with
  | case1 position =>
    cases h
    exact ⟨.done, rfl⟩
  | case2 position c rest hgap ih =>
    obtain ⟨hpaired, hdigits⟩ := ih h
    have hc := isGap_iff.mp hgap
    refine ⟨.gap hc hpaired, ?_⟩
    simp [hdigits, condensed, hc]
  | case3 => cases h
  | case4 => cases h
  | case5 => cases h
  | case6 position c _ high d rest hc low hd ih =>
    obtain ⟨tail, htail, rfl⟩ := Except.map_eq_ok_iff.mp h
    obtain ⟨hpaired, hdigits⟩ := ih htail
    refine ⟨.pair (mem_allDigits_iff.mpr ⟨high, hc⟩) (mem_allDigits_iff.mpr ⟨low, hd⟩) hpaired, ?_⟩
    obtain ⟨hhigh, hlowerc⟩ := value?_eq_some_iff.mp hc
    obtain ⟨hlow, hlowerd⟩ := value?_eq_some_iff.mp hd
    have hbyte : (UInt8.ofNat (16 * high + low)).toNat = 16 * high + low := by
      rw [UInt8.toNat_ofNat']
      omega
    have hdiv : (16 * high + low) / 16 = high := by omega
    have hmod : (16 * high + low) % 16 = low := by omega
    rw [digits_cons, hbyte, hdiv, hmod, hdigits]
    simp [condensed, not_mem_allGaps_of_value? hc, not_mem_allGaps_of_value? hd, hlowerc, hlowerd]

/-- The digits of bytes are read in either letter case. -/
theorem pairs_of_map_toLower {cs : List Char} {bs : Bytes} (h : cs.map Char.toLower = digits bs)
    (position : Nat) : pairs position cs = .ok bs := by
  induction bs generalizing cs position with
  | nil =>
    obtain rfl := List.map_eq_nil_iff.mp h
    rfl
  | cons b bs ih =>
    rw [digits_cons] at h
    obtain ⟨c, rest, rfl, hc, h⟩ := List.map_eq_cons_iff.mp h
    obtain ⟨d, rest, rfl, hd, h⟩ := List.map_eq_cons_iff.mp h
    have hb : b.toNat < 256 := b.toNat_lt
    have hhigh : value? c = some (b.toNat / 16) := value?_eq_some_iff.mpr ⟨by omega, hc⟩
    have hlow : value? d = some (b.toNat % 16) := value?_eq_some_iff.mpr ⟨by omega, hd⟩
    have hsum : 16 * (b.toNat / 16) + b.toNat % 16 = b.toNat := by omega
    simp [pairs, isGap_eq_false_of_value? hhigh, hhigh, hlow, hsum, ih h, Except.map]

/-! ## Texts -/

/-- No character beyond ASCII is part of a pair or stands around one. -/
theorem decodeChars_eq_ok_iff {cs : List Char} {bs : Bytes} :
    decodeChars cs = .ok bs ↔ pairs 0 cs = .ok bs := by
  constructor
  · intro h
    unfold decodeChars at h
    split at h
    · cases h
    · exact h
  · intro h
    have hfind : cs.findIdx? (fun c => 0x80 ≤ c.toNat) = none := by
      rw [List.findIdx?_eq_none_iff]
      intro c hc
      have hsmall := toNat_lt_of_paired (paired_of_pairs h).1 c hc
      simpa using hsmall
    simp [decodeChars, hfind, h]

theorem exists_decodeChars_iff {cs : List Char} : (∃ bs, decodeChars cs = .ok bs) ↔ Paired cs := by
  simp only [decodeChars_eq_ok_iff]
  constructor
  · rintro ⟨bs, h⟩
    exact (paired_of_pairs h).1
  · intro h
    exact exists_pairs_of_paired h 0

/-- Digits begin with no mark, in whatever letter case. -/
theorem dropMark_of_map_toLower {cs : List Char} {bs : Bytes}
    (h : cs.map Char.toLower = digits bs) : dropMark cs = cs := by
  have hplain : ∀ c ∈ cs, c.toLower ≠ 'x' := by
    intro c hc
    have hall : ∀ d ∈ digits bs, d ≠ 'x' := forall_mem_digits (by decide) bs
    apply hall
    rw [← h]
    exact List.mem_map_of_mem hc
  unfold dropMark
  split
  · exact absurd rfl (hplain 'x' (by simp))
  · exact absurd rfl (hplain 'X' (by simp))
  · rfl

theorem dropMark_digits (bs : Bytes) : dropMark (digits bs) = digits bs :=
  dropMark_of_map_toLower (map_toLower_digits bs)

theorem decode_encode (bs : Bytes) : decode (encode bs) = .ok bs := by
  rw [decode, encode, String.toList_ofList, dropMark_digits, decodeChars_eq_ok_iff]
  exact pairs_digits 0 bs

theorem decode_encodePrefixed (bs : Bytes) : decode (encodePrefixed bs) = .ok bs := by
  have hmark : dropMark (encodePrefixed bs).toList = digits bs := by
    simp [encodePrefixed, encode, dropMark]
  rw [decode, hmark, decodeChars_eq_ok_iff]
  exact pairs_digits 0 bs

/-- Bytes are read back from what they are written as, with either mark or none and in either letter case.
A text is read just when it is pairs of digits and blanks behind its mark, if it has one, and then the
bytes are written as these digits in lower case. -/
theorem decode_texts :
    (∀ bs : Bytes, decode (encodePrefixed bs) = .ok bs) ∧
    (∀ (bs : Bytes) (s : String), s.map Char.toLower = encode bs →
      decode s = .ok bs ∧ decode ("0x" ++ s) = .ok bs ∧ decode ("0X" ++ s) = .ok bs) ∧
    ∀ s : String, ((∃ bs, decode s = .ok bs) ↔ Paired (dropMark s.toList)) ∧
      ∀ bs : Bytes, decode s = .ok bs →
        encodePrefixed bs = "0x" ++ String.ofList (condensed (dropMark s.toList)) := by
  refine ⟨decode_encodePrefixed, ?_, ?_⟩
  · intro bs s hs
    have hlower : s.toList.map Char.toLower = digits bs := by
      simpa [encode] using congrArg String.toList hs
    have hread : decodeChars s.toList = .ok bs :=
      decodeChars_eq_ok_iff.mpr (pairs_of_map_toLower hlower 0)
    refine ⟨?_, ?_, ?_⟩
    · rw [decode, dropMark_of_map_toLower hlower, hread]
    · simpa [decode, dropMark] using hread
    · simpa [decode, dropMark] using hread
  · intro s
    refine ⟨exists_decodeChars_iff, ?_⟩
    intro bs hs
    have hdigits := (paired_of_pairs (decodeChars_eq_ok_iff.mp hs)).2
    rw [encodePrefixed, encode, hdigits]

theorem decode_texts_mixedCase :
    "0aB1".map Char.toLower = encode [0x0a, 0xb1] ∧ decode "0X0aB1" = .ok [0x0a, 0xb1] ∧
      ∃ bs, decode "0x 0A\tb1\n" = .ok bs := by
  obtain ⟨-, hcase, htext⟩ := decode_texts
  have hlower : "0aB1".map Char.toLower = encode [0x0a, 0xb1] := by decide +kernel
  have hpaired : Paired (dropMark "0x 0A\tb1\n".toList) := by
    apply Paired.gap (by decide)
    apply Paired.pair (by decide) (by decide)
    apply Paired.gap (by decide)
    apply Paired.pair (by decide) (by decide)
    exact .gap (by decide) .done
  exact ⟨hlower, (hcase _ "0aB1" hlower).2.2, (htext _).1.mpr hpaired⟩

end Attest.Hex
