import Attest.Proofs.MoreImmutables

/-! # Runtime matching is symmetric

Which of two codes is called the compiled one makes no difference to the verdict. The codes are masked in
the order in which they are given, so that a place outside of one of them is met before or after the other
one was masked; it is refused in either order. -/

namespace Attest

namespace Immutable

variable {m : List Immutable}

/-- Where all places come to integers, masking succeeds or refuses one of them that strays. -/
theorem maskAll_cases (hm : ∀ r, HasPlace m r → r.extent?.isSome) (code : Bytes) :
    ¬ Strays m code.length ∧ (∃ out, maskAll code m = .ok out) ∨
      Strays m code.length ∧ ∃ cause, maskAll code m = .error (.inconsistent cause) := by
  by_cases hstray : Strays m code.length
  · obtain ⟨v, -, r, -, -, first, count, hrefused⟩ := maskAll_of_strays hm hstray
    exact .inr ⟨hstray, _, hrefused⟩
  · have hin : LieIn m code.length := by
      by_contra hout
      exact hstray ((strays_iff_not_lieIn hm).mpr hout)
    obtain ⟨out, hout⟩ := IsMask.exists_mask (Covered m) code
    exact .inl ⟨hstray, out, (maskAll_eq_ok_iff _ _ _).mpr ⟨hin, hout⟩⟩

theorem Strays.ne_nil {size : Nat} (h : Strays m size) : m ≠ [] := by
  rintro rfl
  obtain ⟨r, -, -, ⟨v, hv, -⟩, -⟩ := h
  simp at hv

end Immutable

namespace Matching

open Immutable (HasPlace Strays maskAll)

variable {a b : Bytes} {m : List Immutable} {v : Verdict}

/-! ### What decides -/

theorem byCores_self (a : Bytes) : byCores a a = some .exact := by
  simp [byCores]

/-- The tiers of two codes, neither of them empty: their cores decide if they can, next whether there is
anything to mask, and last the masked codes. -/
theorem runtime_eq (ha : a ≠ []) (hb : b ≠ []) (m : List Immutable) :
    runtime a b m =
      match byCores a b with
      | some v => .ok v
      | none =>
          if m = [] then .ok .different
          else do return maskedVerdict (← maskAll a m) (← maskAll b m) := by
  by_cases hab : a = b
  · subst hab
    simp [runtime, ha, byCores_self]
  · cases hcores : byCores a b with
    | some v => simp [runtime, ha, hb, hab, hcores]
    | none =>
      by_cases hm : m = []
      · simp [runtime, ha, hb, hab, hcores, hm]
      · simp only [runtime, List.isEmpty_iff, ha, hb, hab, hcores, hm, if_false]
        cases maskAll a m with
        | error e => rfl
        | ok x =>
          cases maskAll b m with
          | error e => rfl
          | ok y =>
            by_cases hxy : x = y <;>
              simp [maskedVerdict, hxy, bind, Except.bind, pure, Except.pure]

/-- A verdict comes of the cores, of there being nothing to mask, or of the masked codes. -/
theorem runtime_eq_ok_iff (ha : a ≠ []) (hb : b ≠ []) (m : List Immutable) (v : Verdict) :
    runtime a b m = .ok v ↔
      byCores a b = some v ∨
        byCores a b = none ∧
          (m = [] ∧ v = .different ∨
            m ≠ [] ∧ ∃ x y, maskAll a m = .ok x ∧ maskAll b m = .ok y ∧ v = maskedVerdict x y) := by
  rw [runtime_eq ha hb]
  cases byCores a b with
  | some w => simp
  | none =>
    by_cases hm : m = []
    · simp [hm, eq_comm]
    · simp [hm, Except.bind_eq_ok_iff, pure, Except.pure, eq_comm (a := v)]

/-- An error comes of masking the first code, or of masking the second one after it. -/
theorem runtime_eq_error_iff (ha : a ≠ []) (hb : b ≠ []) (m : List Immutable) (e : Obstacle) :
    runtime a b m = .error e ↔
      byCores a b = none ∧ m ≠ [] ∧
        (maskAll a m = .error e ∨ (∃ x, maskAll a m = .ok x) ∧ maskAll b m = .error e) := by
  rw [runtime_eq ha hb]
  cases byCores a b with
  | some w => simp
  | none =>
    by_cases hm : m = []
    · simp [hm]
    · simp [hm, Except.bind_eq_error_iff, pure, Except.pure]

/-! ### Either order -/

theorem runtime_eq_ok_swap (ha : a ≠ []) (hb : b ≠ []) (h : runtime a b m = .ok v) :
    runtime b a m = .ok v := by
  rw [runtime_eq_ok_iff hb ha, byCores_comm]
  obtain hcores | ⟨hcores, hm | ⟨hm, x, y, hx, hy, hv⟩⟩ := (runtime_eq_ok_iff ha hb m v).mp h
  · exact .inl hcores
  · exact .inr ⟨hcores, .inl hm⟩
  · exact .inr ⟨hcores, .inr ⟨hm, y, x, hy, hx, hv.trans (maskedVerdict_comm x y)⟩⟩

/-- Two codes are refused exactly if their cores differ and some place strays from one of them, be it the
one that is masked first or the other. -/
theorem runtime_inconsistent_iff (ha : a ≠ []) (hb : b ≠ [])
    (hm : ∀ r, HasPlace m r → r.extent?.isSome) :
    (∃ cause, runtime a b m = .error (.inconsistent cause)) ↔
      byCores a b = none ∧ (Strays m a.length ∨ Strays m b.length) := by
  simp only [runtime_eq_error_iff ha hb]
  obtain ⟨hina, x, hx⟩ | ⟨houta, cause, hx⟩ := Immutable.maskAll_cases hm a
  · obtain ⟨hinb, y, hy⟩ | ⟨houtb, cause, hy⟩ := Immutable.maskAll_cases hm b
    · simp [hx, hy, hina, hinb]
    · simp [hx, hy, houtb, houtb.ne_nil]
  · simp [hx, houta, houta.ne_nil]

/-- There is no other refusal of places that come to integers. -/
theorem inconsistent_of_runtime (ha : a ≠ []) (hb : b ≠ [])
    (hm : ∀ r, HasPlace m r → r.extent?.isSome) {e : Obstacle} (h : runtime a b m = .error e) :
    ∃ cause, e = .inconsistent cause := by
  have hrefused (code : Bytes) (h : maskAll code m = .error e) : ∃ cause, e = .inconsistent cause := by
    obtain ⟨-, out, hout⟩ | ⟨-, cause, hcause⟩ := Immutable.maskAll_cases hm code
    · cases h.symm.trans hout
    · exact ⟨cause, Except.error.inj (h.symm.trans hcause)⟩
  obtain ⟨-, -, h | ⟨-, h⟩⟩ := (runtime_eq_error_iff ha hb m e).mp h
  · exact hrefused a h
  · exact hrefused b h

/-- Runtime matching is symmetric. Of two codes that are not empty, each verdict is that of the codes the
other way round, whatever places are given. Where all places come to integers, the one order is refused as
inconsistent exactly if the other one is, and neither fails in another way. -/
theorem runtime_symmetric (ha : a ≠ []) (hb : b ≠ []) (m : List Immutable) :
    (∀ v, runtime a b m = .ok v ↔ runtime b a m = .ok v) ∧
    ((∀ r, HasPlace m r → r.extent?.isSome) →
      ((∃ cause, runtime a b m = .error (.inconsistent cause)) ↔
        ∃ cause, runtime b a m = .error (.inconsistent cause)) ∧
      ∀ e, runtime a b m = .error e → ∃ cause, e = .inconsistent cause) := by
  refine ⟨?_, ?_⟩
  · intro v
    exact ⟨runtime_eq_ok_swap ha hb, runtime_eq_ok_swap hb ha⟩
  · intro hm
    refine ⟨?_, fun e => inconsistent_of_runtime ha hb hm⟩
    rw [runtime_inconsistent_iff ha hb hm, runtime_inconsistent_iff hb ha hm, byCores_comm a b,
      or_comm]

/-- A place in the longer one of two codes and outside of the shorter one, which is masked first in one
order and last in the other; and codes of one core, only one of which has a trailer. -/
theorem runtime_symmetric_oneSided :
    (∃ cause, runtime [0x60, 0x01] [0x60, 0x02, 0x03] [⟨.text "x", [.span 1 2]⟩] =
      .error (.inconsistent cause)) ∧
    (∃ cause, runtime [0x60, 0x02, 0x03] [0x60, 0x01] [⟨.text "x", [.span 1 2]⟩] =
      .error (.inconsistent cause)) ∧
    runtime [0x60, 0x00, 0xa1, 0x61, 0x61, 0x01, 0x00, 0x04] [0x60, 0x07]
      [⟨.text "x", [.span 1 1]⟩] = .ok .upToTrailer ∧
    runtime [0x60, 0x07] [0x60, 0x00, 0xa1, 0x61, 0x61, 0x01, 0x00, 0x04]
      [⟨.text "x", [.span 1 1]⟩] = .ok .upToTrailer := by
  have hm : ∀ r, HasPlace [⟨.text "x", [.span 1 2]⟩] r → r.extent?.isSome := by
    rintro r ⟨v, hv, hr⟩
    obtain rfl : v = ⟨.text "x", [.span 1 2]⟩ := by simpa using hv
    obtain rfl : r = .span 1 2 := by simpa using hr
    rfl
  have hrefused : ∃ cause, runtime [0x60, 0x01] [0x60, 0x02, 0x03] [⟨.text "x", [.span 1 2]⟩] =
      .error (.inconsistent cause) :=
    (runtime_inconsistent_iff (by simp) (by simp) hm).mpr
      ⟨by decide +kernel, .inl ⟨.span 1 2, 1, 2, ⟨⟨.text "x", [.span 1 2]⟩, by simp, by simp⟩, rfl,
        by simp⟩⟩
  have hmatch : runtime [0x60, 0x00, 0xa1, 0x61, 0x61, 0x01, 0x00, 0x04] [0x60, 0x07]
      [⟨.text "x", [.span 1 1]⟩] = .ok .upToTrailer := Except.eq_ok_of_toOption (by decide +kernel)
  refine ⟨hrefused, ?_, hmatch, ?_⟩
  · exact ((runtime_symmetric (by simp) (by simp) _).2 hm).1.mp hrefused
  · exact ((runtime_symmetric (by simp) (by simp) _).1 _).mp hmatch

/-- A place that is given in doubles strays from the shorter code and is no place of the longer one. -/
example : let m : List Immutable := [⟨.text "x", [.irregular (.list [.int 0, .float (.ofInt 2)])]⟩]
    (runtime [0x60] [0x61, 0x62, 0x63] m matches .error (.inconsistent _)) ∧
      (runtime [0x61, 0x62, 0x63] [0x60] m matches .error (.defect _)) := by
  decide +kernel

end Matching

end Attest
