import Attest.Proofs.EntryFlaws
import Attest.Proofs.Numerals
import Mathlib.Data.List.Nodup

/-! # Numerals as ids, and their order

Ids that are numerals can be put in order, which is that of their numbers. No two of them change places
in it when they are given in another order, unless they are numerals of the same number. -/

namespace Attest.Build

/-- Digits, not more than can be read. -/
structure IsNumeral (s : String) : Prop where
  nonempty : s.toList ≠ []
  digits : ∀ c ∈ s.toList, c.isDigit
  readable : s.length ≤ Numeral.digitLimit

/-- The number that digits spell. -/
def number (s : String) : Nat := Nat.ofDigitChars 10 s.toList 0

variable {s : String} {ids ids' : List String}

theorem isNumbered_of_digits (hne : s.toList ≠ []) (h : ∀ c ∈ s.toList, c.isDigit) :
    isNumbered (.text s) = true := by
  have hall : ∀ c ∈ s.toList, Text.isDigitChar c = true := fun c hc => by
    rw [Text.isDigitChar, Text.decimalValue?_of_isDigit (h c hc)]
    rfl
  rw [isNumbered, Document.plain, Text.isDigits, List.all_eq_true.mpr hall]
  simpa using hne

/-- An id of digits is ranked by its number, unless it has more digits than can be read. -/
theorem rank_of_digits (hne : s.toList ≠ []) (h : ∀ c ∈ s.toList, c.isDigit) :
    rank (.text s) = if Numeral.digitLimit < s.length then
      .error (.badValue (Numeral.Fault.tooLong s.length).message) else .ok (.number (number s)) := by
  have hdigits : Text.isDigits s.toList = true := isNumbered_of_digits hne h
  rw [rank, Document.plain, if_pos hdigits, Document.integerIn, Numeral.readInt_digits hne h]
  by_cases hlong : Numeral.digitLimit < s.length
  · rw [if_pos hlong, if_pos hlong]
    rfl
  · rw [if_neg hlong, if_neg hlong]
    rfl

namespace IsNumeral

theorem isNumbered (h : IsNumeral s) : isNumbered (.text s) = true :=
  isNumbered_of_digits h.nonempty h.digits

theorem rank_eq (h : IsNumeral s) : rank (.text s) = .ok (.number (number s)) := by
  rw [rank_of_digits h.nonempty h.digits, if_neg (Nat.not_lt.mpr h.readable)]

end IsNumeral

/-- Ids in the order of their numbers. -/
def inOrder (ids : List String) : List String :=
  ids.mergeSort fun a b => decide (number a ≤ number b)

theorem inOrder_perm (ids : List String) : (inOrder ids).Perm ids := List.mergeSort_perm ids _

theorem pairwise_inOrder (ids : List String) :
    (inOrder ids).Pairwise fun a b => number a ≤ number b := by
  have hsorted : (inOrder ids).Pairwise fun a b => decide (number a ≤ number b) = true :=
    List.pairwise_mergeSort (fun a b c => by simpa using Nat.le_trans)
      (fun a b => by simpa using Nat.le_total _ _) ids
  exact hsorted.imp of_decide_eq_true

/-- The order in which ids of different numbers are given makes no difference. -/
theorem inOrder_eq_of_perm (h : ids.Perm ids') (hnumbers : (ids.map number).Nodup) :
    inOrder ids = inOrder ids' := by
  have hperm : (inOrder ids).Perm (inOrder ids') :=
    (inOrder_perm ids).trans (h.trans (inOrder_perm ids').symm)
  refine hperm.eq_of_pairwise (fun a b ha hb hab hba => ?_) (pairwise_inOrder ids)
    (pairwise_inOrder ids')
  have ha : a ∈ ids := (inOrder_perm ids).mem_iff.mp ha
  have hb : b ∈ ids := h.mem_iff.mpr ((inOrder_perm ids').mem_iff.mp hb)
  exact List.inj_on_of_nodup_map hnumbers ha hb (Nat.le_antisymm hab hba)

/-- Numerals are put in order. The order of ranks is not transitive between numbers and texts, so it is
compared with that of the numbers before anything is said of it. -/
theorem sortIds_numerals (h : ∀ s ∈ ids, IsNumeral s) :
    sortIds (ids.map .text) = .ok ((inOrder ids).map .text) := by
  have hranks : ∀ id ∈ ids.map Document.text, rank id = .ok (.number (number id.plain)) := by
    rintro id hid
    obtain ⟨s, hs, rfl⟩ := List.mem_map.mp hid
    exact (h s hs).rank_eq
  have hnumbered : (ids.map Document.text).any (!isNumbered ·) = false := by
    rw [List.any_eq_false]
    rintro id hid
    obtain ⟨s, hs, rfl⟩ := List.mem_map.mp hid
    simp [(h s hs).isNumbered]
  have hsorted : (inOrder ids).map (fun s => (Rank.number (number s), Document.text s)) =
      (ids.map fun s => (Rank.number (number s), Document.text s)).mergeSort
        fun a b => a.1.before b.1 :=
    List.map_mergeSort fun a _ b _ => by simp [Rank.before]
  rw [sortIds_eq hranks, hnumbered, Bool.and_false, if_neg Bool.false_ne_true, List.map_map]
  have hplain : ((fun id => (Rank.number (number id.plain), id)) ∘ Document.text) =
      fun s => (Rank.number (number s), Document.text s) := rfl
  rw [hplain, ← hsorted, List.map_map]
  rfl

end Attest.Build
