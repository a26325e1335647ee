import Attest.Number.Numeral
import Mathlib.Data.List.TakeWhile

/-! # Numerals that are digits only

Text that is nothing but digits is read as the number that it spells, and a number that was written is
read as itself, as long as there are not too many digits. -/

namespace Attest.Numeral

theorem toNat_of_isDigit {c : Char} (h : c.isDigit) : 48 ≤ c.toNat ∧ c.toNat ≤ 57 := by
  simp only [Char.isDigit, Bool.and_eq_true, decide_eq_true_eq] at h
  exact ⟨UInt32.le_iff_toNat_le.mp h.1, UInt32.le_iff_toNat_le.mp h.2⟩

theorem ne_of_isDigit {c d : Char} (hc : c.isDigit) (hd : d.isDigit = false) : c ≠ d := by
  rintro rfl
  simp [hc] at hd

theorem not_isAsciiBlank {c : Char} (h : c.isDigit) : Text.isAsciiBlank c = false := by
  have hrange := toNat_of_isDigit h
  have hspace : c ≠ ' ' := ne_of_isDigit h rfl
  simp only [Text.isAsciiBlank, beq_false_of_ne hspace, Bool.false_or, Bool.and_eq_false_imp,
    decide_eq_true_eq, decide_eq_false_iff_not]
  omega

section

variable {cs : List Char}

theorem normalize_digits (h : ∀ c ∈ cs, c.isDigit) : normalize cs = cs := by
  induction cs with
  | nil => rfl
  | cons c cs ih =>
    have hrange := toNat_of_isDigit (h c (by simp))
    have hrest := ih fun d hd => h d (by simp [hd])
    rw [normalize] at hrest ⊢
    rw [List.map_cons, hrest, if_pos (by omega)]

theorem dropWhile_digits (h : ∀ c ∈ cs, c.isDigit) : cs.dropWhile Text.isAsciiBlank = cs := by
  rw [List.dropWhile_eq_self_iff]
  intro hne
  simp [not_isAsciiBlank (h cs[0] (by simp))]

theorem trimBy_digits (h : ∀ c ∈ cs, c.isDigit) : Text.trimBy Text.isAsciiBlank cs = cs := by
  have hreverse : ∀ c ∈ cs.reverse, c.isDigit := fun c hc => h c (List.mem_reverse.mp hc)
  rw [Text.trimBy, dropWhile_digits h, Text.dropRightWhile, dropWhile_digits hreverse,
    List.reverse_reverse]

theorem splitSign_digits (h : ∀ c ∈ cs, c.isDigit) : splitSign cs = (false, cs) := by
  cases cs with
  | nil => rfl
  | cons c cs =>
    have hminus : c ≠ '-' := ne_of_isDigit (h c (by simp)) rfl
    have hplus : c ≠ '+' := ne_of_isDigit (h c (by simp)) rfl
    unfold splitSign
    split <;> simp_all

theorem digitValue?_of_isDigit {c : Char} (h : c.isDigit) :
    digitValue? 10 c = some (c.toNat - 48) := by
  have hrange := toNat_of_isDigit h
  simp only [digitValue?, h, if_true, Option.filter_some, decide_eq_true_eq]
  rw [if_pos (by omega)]

theorem digitsAfter_digits (acc : Nat) (h : ∀ c ∈ cs, c.isDigit) :
    digitsAfter 10 acc cs = some (Nat.ofDigitChars 10 cs acc) := by
  induction cs generalizing acc with
  | nil => rfl
  | cons c cs ih =>
    have hc : c.isDigit := h c (by simp)
    have hplain : c ≠ '_' := ne_of_isDigit hc rfl
    have hrest := ih (acc * 10 + (c.toNat - 48)) fun d hd => h d (by simp [hd])
    rw [digitsAfter, digitValue?_of_isDigit hc]
    · simp [hrest, Nat.ofDigitChars, Nat.mul_comm]
    · rintro d rest rfl
      exact absurd rfl hplain

theorem natural?_digits (hne : cs ≠ []) (h : ∀ c ∈ cs, c.isDigit) :
    natural? 10 cs = some (Nat.ofDigitChars 10 cs 0) := by
  cases cs with
  | nil => exact absurd rfl hne
  | cons c cs =>
    have hrest := digitsAfter_digits (c.toNat - 48) fun d hd => h d (List.mem_cons_of_mem c hd)
    simp [natural?, digitValue?_of_isDigit (h c (by simp)), hrest, Nat.ofDigitChars]

end

theorem length_toDigits_le {n k : Nat} (hk : 0 < k) (h : n < Nat.pow 10 k) :
    (Nat.toDigits 10 n).length ≤ k :=
  (Nat.length_toDigits_le_iff (by decide) hk).mpr h

theorem underscoresFit_digits {cs : List Char} (h : ∀ c ∈ cs, c.isDigit) :
    underscoresFit cs = true := by
  induction cs with
  | nil => rfl
  | cons c cs ih =>
    have hplain : c ≠ '_' := ne_of_isDigit (h c (by simp)) rfl
    rw [underscoresFit]
    · exact ih fun d hd => h d (List.mem_cons_of_mem c hd)
    · rintro rfl
      exact absurd rfl hplain
    · rintro rest rfl
      exact absurd rfl hplain

/-- Digits are read as the number that they spell, unless there are too many of them. -/
theorem readInt_digits {s : String} (hne : s.toList ≠ []) (h : ∀ c ∈ s.toList, c.isDigit) :
    readInt s = if digitLimit < s.length then .error (.tooLong s.length)
      else .ok (Nat.ofDigitChars 10 s.toList 0 : Nat) := by
  have htrimmed : trimmed s = s.toList := by
    rw [trimmed, normalize_digits h, trimBy_digits h]
  have hrun : s.toList.takeWhile (fun c => c.isDigit || c == '_') = s.toList := by
    rw [List.takeWhile_eq_self_iff]
    intro c hc
    simp [h c hc]
  have hcount : s.toList.countP Char.isDigit = s.length :=
    (List.countP_eq_length.mpr h).trans String.length_toList
  have hhead : s.toList.head? ≠ some '_' := fun hhead =>
    absurd (h '_' (List.mem_of_mem_head? hhead)) (by decide)
  simp only [readInt, htrimmed, splitSign_digits h, hrun, hcount, hhead, underscoresFit_digits h,
    natural?_digits hne h, not_false_eq_true, ne_eq, true_and, Bool.false_eq_true, if_false]

theorem ofDigitChars_repr (n : Nat) : Nat.ofDigitChars 10 n.repr.toList 0 = n := by
  rw [Nat.toList_repr]
  exact Nat.ofDigitChars_toDigits (by decide) (by decide)

theorem repr_inj {m n : Nat} : m.repr = n.repr ↔ m = n := by
  constructor
  · intro h
    rw [← ofDigitChars_repr m, h, ofDigitChars_repr]
  · rintro rfl
    rfl

/-- What is written of a number that is not too long is read as that number. -/
theorem readInt_repr {n : Nat} (h : n < writableBound) : readInt n.repr = .ok (n : Int) := by
  have hdigits : ∀ c ∈ n.repr.toList, c.isDigit := by
    rw [Nat.toList_repr]
    exact fun c hc => Nat.isDigit_of_mem_toDigits (by decide) (by decide) hc
  have hlength : n.repr.length ≤ digitLimit := by
    rw [← String.length_toList, Nat.toList_repr]
    apply length_toDigits_le (by decide)
    unfold writableBound at h
    exact h
  have hne : n.repr.toList ≠ [] := by
    rw [Nat.toList_repr]
    exact List.ne_nil_of_length_pos Nat.length_toDigits_pos
  rw [readInt_digits hne hdigits, if_neg (Nat.not_lt.mpr hlength), ofDigitChars_repr]

end Attest.Numeral
