import Attest.Trailer
import Mathlib.Data.List.Induction

/-! Where code ends and its trailer begins. Only the bytes of a trailer tell that it is one: whatever
stands in front of it is the core. -/

namespace Attest

/-! ### Numbers in bytes -/

namespace Bytes

theorem toNat_lt (bs : Bytes) : toNat bs < Nat.pow 256 bs.length := by
  induction bs using List.reverseRecOn with
  | nil => decide
  | append_singleton bs b ih =>
      have hb : b.toNat < 256 := b.toNat_lt
      have hpow : Nat.pow 256 (bs.length + 1) = Nat.pow 256 bs.length * 256 := rfl
      rw [toNat_append_singleton, List.length_append, List.length_singleton, hpow]
      omega

/-- A byte string is the number it holds, written with as many bytes. -/
theorem ofNat_toNat (bs : Bytes) : ofNat bs.length (toNat bs) = bs := by
  induction bs using List.reverseRecOn with
  | nil => rfl
  | append_singleton bs b ih =>
      have hb : b.toNat < 256 := b.toNat_lt
      have hdiv : (toNat bs * 256 + b.toNat) / 256 = toNat bs := by omega
      have hmod : UInt8.ofNat (toNat bs * 256 + b.toNat) = b := by
        apply UInt8.toNat.inj
        rw [UInt8.toNat_ofNat']
        omega
      rw [List.length_append, List.length_singleton, ofNat, toNat_append_singleton, hdiv, hmod, ih]

end Bytes

namespace Trailer

/-! ### Regions -/

theorem textEntries?_isSome_iff (es : List (Cbor.Item × Cbor.Item)) :
    (textEntries? es).isSome ↔ ∀ e ∈ es, ∃ key, e.1 = .text key := by
  induction es with
  | nil => simp [textEntries?]
  | cons e es ih =>
      obtain ⟨key, value⟩ := e
      cases key <;> simp [textEntries?, ih]

/-- A region is exactly one map, not a fixed one, that has entries and only texts as keys. -/
def IsRegion (region : Bytes) : Prop :=
  ∃ entries, Cbor.read? region = some (.map false entries, []) ∧ entries ≠ [] ∧
    ∀ e ∈ entries, ∃ key, e.1 = .text key

theorem fields?_isSome_iff (region : Bytes) : (fields? region).isSome ↔ IsRegion region := by
  unfold fields? IsRegion
  constructor
  · intro h
    split at h
    · rename_i e es hread
      exact ⟨e :: es, hread, by simp, (textEntries?_isSome_iff _).mp h⟩
    · simp at h
  · rintro ⟨entries, hread, hne, htext⟩
    obtain ⟨e, es, rfl⟩ := List.exists_cons_of_ne_nil hne
    rw [hread]
    exact (textEntries?_isSome_iff _).mpr htext

theorem IsRegion.ne_nil {region : Bytes} (h : IsRegion region) : region ≠ [] := by
  rintro rfl
  obtain ⟨entries, hread, -⟩ := h
  simp [Cbor.read?, Cbor.item?] at hread

/-! ### Trailers -/

/-- A trailer is a region and its length in two bytes. -/
def IsTrailer (t : Bytes) : Prop :=
  ∃ region, IsRegion region ∧ region.length < Nat.pow 256 lengthSize ∧ t = ofRegion region

theorem IsTrailer.ne_nil {t : Bytes} (h : IsTrailer t) : t ≠ [] := by
  obtain ⟨region, hregion, -, rfl⟩ := h
  simp [ofRegion, hregion.ne_nil]

theorem start?_append (core : Bytes) {region : Bytes} (hregion : IsRegion region)
    (hlength : region.length < Nat.pow 256 lengthSize) :
    start? (core ++ ofRegion region) = some core.length := by
  have hsize : (core ++ ofRegion region).length - lengthSize = core.length + region.length := by
    simp [ofRegion]
    omega
  have hdrop : (core ++ ofRegion region).drop (core.length + region.length) =
      Bytes.ofNat lengthSize region.length := by
    rw [ofRegion, ← List.append_assoc, ← List.length_append, List.drop_left]
  have hnumber : Bytes.toNat (Bytes.ofNat lengthSize region.length) = region.length := by
    rw [Bytes.toNat_ofNat, Nat.mod_eq_of_lt hlength]
  have hslice : Bytes.slice (core ++ ofRegion region) core.length region.length = region := by
    rw [Bytes.slice, List.drop_left, ofRegion, List.take_left]
  have hpos : 0 < region.length := List.length_pos_iff.mpr hregion.ne_nil
  have hlong : ¬ (core ++ ofRegion region).length ≤ lengthSize := by
    simp [ofRegion]
    omega
  have hfields : (fields? region).isSome := (fields?_isSome_iff region).mpr hregion
  have hfit : ¬ (region.length = 0 ∨ core.length + region.length < region.length) := by omega
  simp only [start?, hlong, if_false, hsize, hdrop, hnumber, hfit, Nat.add_sub_cancel, hslice,
    hfields, if_true]

theorem isTrailer_of_start? {code : Bytes} {i : Nat} (h : start? code = some i) :
    i ≤ code.length ∧ IsTrailer (code.drop i) := by
  unfold start? at h
  split at h
  · simp at h
  · rename_i hlong
    dsimp only at h
    generalize hbody : code.length - lengthSize = body at h
    have hcode : body + lengthSize = code.length := by omega
    generalize hlength : Bytes.toNat (code.drop body) = length at h
    split at h
    · simp at h
    · rename_i hfit
      split at h
      · rename_i hfields
        obtain rfl := Option.some.inj h
        have hlast : (code.drop body).length = lengthSize := by simp; omega
        have hregion : (Bytes.slice code (body - length) length).length = length := by
          rw [Bytes.length_slice]
          omega
        refine ⟨by omega, _, (fields?_isSome_iff _).mp hfields, ?_, ?_⟩
        · rw [hregion, ← hlength, ← hlast]
          exact Bytes.toNat_lt _
        · have hrest : (code.drop (body - length)).drop length = code.drop body := by
            rw [List.drop_drop]
            congr 1
            omega
          calc
            code.drop (body - length) =
                Bytes.slice code (body - length) length ++ code.drop body := by
              rw [← hrest, Bytes.slice, List.take_append_drop]
            _ = ofRegion (Bytes.slice code (body - length) length) := by
              rw [ofRegion, hregion, ← hlast, ← hlength, Bytes.ofNat_toNat]
      · simp at h

/-- A code ends in a trailer from some place on if and only if that is where it is split. -/
theorem start?_eq_some_iff (code : Bytes) (i : Nat) :
    start? code = some i ↔ i ≤ code.length ∧ IsTrailer (code.drop i) := by
  refine ⟨isTrailer_of_start?, ?_⟩
  rintro ⟨hi, region, hregion, hlength, hdrop⟩
  have hstart := start?_append (code.take i) hregion hlength
  rwa [← hdrop, List.take_append_drop, List.length_take_of_le hi] at hstart

theorem split_append_of_isTrailer {t : Bytes} (h : IsTrailer t) (core : Bytes) :
    split (core ++ t) = ⟨core, t⟩ := by
  have hstart : start? (core ++ t) = some core.length :=
    (start?_eq_some_iff _ _).mpr ⟨by simp, by simpa using h⟩
  simp [split, hstart]

theorem take_core_length (code : Bytes) : code.take (split code).core.length = (split code).core := by
  have h : ((split code).core ++ (split code).trailer).take (split code).core.length =
      (split code).core := List.take_left
  rwa [split_append] at h

theorem drop_core_length (code : Bytes) :
    code.drop (split code).core.length = (split code).trailer := by
  have h : ((split code).core ++ (split code).trailer).drop (split code).core.length =
      (split code).trailer := List.drop_left
  rwa [split_append] at h

theorem core_length_le (code : Bytes) : (split code).core.length ≤ code.length := by
  rw [← take_core_length code]
  exact List.length_take_le' _ _

/-- What is split off is a trailer, or nothing at all. -/
theorem split_cases (code : Bytes) :
    (split code).core = code ∧ (split code).trailer = [] ∨ IsTrailer (split code).trailer := by
  unfold split
  cases h : start? code with
  | none => exact .inl ⟨rfl, rfl⟩
  | some i => exact .inr ((start?_eq_some_iff code i).mp h).2

end Trailer

end Attest
