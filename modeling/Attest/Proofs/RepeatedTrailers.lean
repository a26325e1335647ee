import Attest.Proofs.TrailerSplit
import Mathlib.Logic.Function.Iterate
import Mathlib.Tactic.Push

/-! # Codes that end in several trailers

Code that has other code inside, together with the trailer of that, may end in one trailer after the
other. Only the last of them is split off. So a core is its own core just when the code did not end in
two trailers, and a code with several trailers loses one of them each time it is split. -/

namespace Attest.Trailer

variable {code core t t' : Bytes} {ts : List Bytes}

/-- Code that ends in no trailer. -/
def IsBare (code : Bytes) : Prop := ∀ core t, IsTrailer t → code ≠ core ++ t

/-- Code without its trailer. -/
def strip (code : Bytes) : Bytes := (split code).core

/-! ### One step -/

theorem split_of_trailer_eq_nil (h : (split code).trailer = []) : split code = ⟨code, []⟩ := by
  have hcore : (split code).core = code := by simpa [h] using split_append code
  calc split code = ⟨(split code).core, (split code).trailer⟩ := rfl
    _ = ⟨code, []⟩ := by rw [hcore, h]

theorem split_eq_self_iff : split code = ⟨code, []⟩ ↔ IsBare code := by
  constructor
  · rintro h core t ht rfl
    rw [split_append_of_isTrailer ht] at h
    exact ht.ne_nil (congrArg Split.trailer h)
  · intro hbare
    obtain ⟨-, hnone⟩ | htrailer := split_cases code
    · exact split_of_trailer_eq_nil hnone
    · exact absurd (split_append code).symm (hbare _ _ htrailer)

theorem strip_of_isBare (h : IsBare code) : strip code = code :=
  congrArg Split.core (split_eq_self_iff.mpr h)

theorem strip_append (ht : IsTrailer t) : strip (core ++ t) = core :=
  congrArg Split.core (split_append_of_isTrailer ht core)

/-- A code ends in no trailer, or in one after what is left of it without. -/
theorem bare_or_trailed (code : Bytes) : IsBare code ∨ ∃ t, IsTrailer t ∧ code = strip code ++ t := by
  obtain ⟨-, hnone⟩ | htrailer := split_cases code
  · exact .inl (split_eq_self_iff.mp (split_of_trailer_eq_nil hnone))
  · exact .inr ⟨_, htrailer, (split_append code).symm⟩

/-- What is left of a code ends in a trailer just when the code ended in two. -/
theorem isBare_strip_iff :
    IsBare (strip code) ↔ ¬ ∃ core t t', IsTrailer t ∧ IsTrailer t' ∧ code = core ++ t ++ t' := by
  constructor
  · rintro hbare ⟨core, t, t', ht, ht', rfl⟩
    exact hbare core t ht (strip_append ht')
  · intro h
    obtain hbare | ⟨t', ht', hcode⟩ := bare_or_trailed code
    · rwa [strip_of_isBare hbare]
    · intro core t ht hstrip
      exact h ⟨core, t, t', ht, ht', hstrip ▸ hcode⟩

/-! ### Many steps -/

/-- Every step takes the last trailer off that is left. -/
theorem iterate_strip (hcore : IsBare core) (hts : ∀ t ∈ ts, IsTrailer t) (n : Nat) :
    strip^[n] (core ++ ts.flatten) = core ++ (ts.take (ts.length - n)).flatten := by
  induction n with
  | zero => simp
  | succ n ih =>
    rw [Function.iterate_succ_apply', ih]
    by_cases hn : n < ts.length
    · have hlength : ts.length - n = ts.length - (n + 1) + 1 := by omega
      have hlast : ts.length - (n + 1) < ts.length := by omega
      rw [hlength, List.take_succ_eq_append_getElem hlast, List.flatten_append,
        List.flatten_singleton, ← List.append_assoc]
      exact strip_append (hts _ (List.getElem_mem hlast))
    · have hnone : ts.length - n = 0 := by omega
      have hnone' : ts.length - (n + 1) = 0 := by omega
      simp [hnone, hnone', strip_of_isBare hcore]

/-- Every code is a core that ends in no trailer and after it any number of trailers. -/
theorem exists_trailers (code : Bytes) :
    ∃ (core : Bytes) (ts : List Bytes), IsBare core ∧ (∀ t ∈ ts, IsTrailer t) ∧
      code = core ++ ts.flatten := by
  induction hlength : code.length using Nat.strongRecOn generalizing code with
  | ind n ih =>
    obtain hbare | ⟨t, ht, hcode⟩ := bare_or_trailed code
    · exact ⟨code, [], hbare, by simp, by simp⟩
    · have hshorter : (strip code).length < n := by
        have hpos : 0 < t.length := List.length_pos_iff.mpr ht.ne_nil
        have hsum := congrArg List.length hcode
        rw [List.length_append] at hsum
        omega
      obtain ⟨core, ts, hcore, hts, hstrip⟩ := ih _ hshorter (strip code) rfl
      refine ⟨core, ts ++ [t], hcore, ?_, ?_⟩
      · simpa [or_imp, forall_and, ht] using hts
      · rw [hcode, hstrip]
        simp

/-- Splitting a core again changes nothing if and only if the code did not end in two trailers, one after
the other; where it did, the inner one comes off as well. A code is a core that ends in no trailer and
trailers after it, and each time one of them comes off, from the last to the first. -/
theorem split_core_iff (code : Bytes) :
    (split (split code).core = ⟨(split code).core, []⟩ ↔
      ¬ ∃ core t t', IsTrailer t ∧ IsTrailer t' ∧ code = core ++ t ++ t') ∧
    (∀ core t t', IsTrailer t → IsTrailer t' → code = core ++ t ++ t' →
      split code = ⟨core ++ t, t'⟩ ∧ split (split code).core = ⟨core, t⟩) ∧
    ∃ (core : Bytes) (ts : List Bytes), IsBare core ∧ (∀ t ∈ ts, IsTrailer t) ∧
      code = core ++ ts.flatten ∧ ∀ n, strip^[n] code = core ++ (ts.take (ts.length - n)).flatten := by
  refine ⟨split_eq_self_iff.trans isBare_strip_iff, ?_, ?_⟩
  · rintro core t t' ht ht' rfl
    have houter := split_append_of_isTrailer ht' (core ++ t)
    refine ⟨houter, ?_⟩
    rw [houter]
    exact split_append_of_isTrailer ht core
  · obtain ⟨core, ts, hcore, hts, rfl⟩ := exists_trailers code
    exact ⟨core, ts, hcore, hts, rfl, iterate_strip hcore hts⟩

/-- A code with the trailer of a code inside it before its own. -/
theorem inner_trailer_comes_off :
    split (split [0x60, 0xa1, 0x61, 0x61, 0x01, 0x00, 0x04, 0xa1, 0x61, 0x61, 0x02, 0x00, 0x04]).core =
      ⟨[0x60], [0xa1, 0x61, 0x61, 0x01, 0x00, 0x04]⟩ ∧
    split (split [0x60, 0xa1, 0x61, 0x61, 0x01, 0x00, 0x04, 0xa1, 0x61, 0x61, 0x02, 0x00, 0x04]).core ≠
      ⟨(split [0x60, 0xa1, 0x61, 0x61, 0x01, 0x00, 0x04, 0xa1, 0x61, 0x61, 0x02, 0x00, 0x04]).core,
        []⟩ := by
  decide +kernel

end Attest.Trailer
