import Attest.Proofs.Masking
import Mathlib.Tactic.ByContra
import Mathlib.Tactic.Push

/-! # Masking depends on the places alone

A mask is told by which bytes the places cover. Under which names the places are given, in which order
and how often makes no difference to it, and places that are masked one after the other come to the same
as all of them together. One place outside the code is enough to refuse them all, however much of the
code was masked before it. -/

namespace Attest

namespace Range

/-! ### One place -/

/-- A place that comes to two integers and does not lie in the code is refused under its name. -/
theorem mask_of_not_fits {r : Range} {offset length : Int} (he : r.extent? = some (offset, length))
    {code : Bytes} (h : ¬ Fits offset length code.length) (name : Document) :
    ∃ first count : String, mask name code r =
      .error (.inconsistent (.outsideCode name.plain first count code.length)) := by
  cases r with
  | span o n =>
    obtain ⟨rfl, rfl⟩ := Prod.mk.inj (Option.some.inj he)
    exact ⟨toString o, toString n, by simp [mask, h]⟩
  | irregular d =>
    cases hp : parts d with
    | error e => simp [extent?, hp] at he
    | ok p =>
      obtain ⟨o, n⟩ := p
      cases hi : o.integral? with
      | none => simp [extent?, hp, hi] at he
      | some i =>
        cases hn : n.integral? with
        | none => simp [extent?, hp, hi, hn] at he
        | some k =>
          obtain ⟨rfl, rfl⟩ : i = offset ∧ k = length := by simpa [extent?, hp, hi, hn] using he
          refine ⟨o.plain, n.plain, ?_⟩
          simp [mask, hp, maskBetween, strays_of_integral? hi hn, h, bind, Except.bind, throw,
            throwThe, MonadExceptOf.throw]

end Range

namespace Immutable

variable {m m' both : List Immutable} {code out : Bytes}

/-! ### The places of variables -/

/-- Whether a place is one of those of the variables. -/
def HasPlace (vs : List Immutable) (r : Range) : Prop := ∃ v ∈ vs, r ∈ v.ranges

/-- Whether some variables have the places of two groups of variables and no others. -/
def Joins (m m' both : List Immutable) : Prop := ∀ r, HasPlace both r ↔ HasPlace m r ∨ HasPlace m' r

/-- Whether some place starts before the code, has less than no bytes, or ends after the code. -/
def Strays (vs : List Immutable) (size : Nat) : Prop :=
  ∃ r offset length, HasPlace vs r ∧ r.extent? = some (offset, length) ∧
    (offset < 0 ∨ length < 0 ∨ (size : Int) < offset + length)

theorem covered_iff {i : Nat} : Covered m i ↔ ∃ r, HasPlace m r ∧ r.Covers i := by
  constructor
  · rintro ⟨v, hv, r, hr, hc⟩
    exact ⟨r, ⟨v, hv, hr⟩, hc⟩
  · rintro ⟨r, ⟨v, hv, hr⟩, hc⟩
    exact ⟨v, hv, r, hr, hc⟩

theorem lieIn_iff {size : Nat} : LieIn m size ↔ ∀ r, HasPlace m r → r.LiesIn size := by
  constructor
  · rintro h r ⟨v, hv, hr⟩
    exact h v hv r hr
  · intro h v hv r hr
    exact h r ⟨v, hv, hr⟩

theorem joins_append (m m' : List Immutable) : Joins m m' (m ++ m') := by
  intro r
  simp [HasPlace, or_and_right, exists_or]

theorem Joins.covered_iff (h : Joins m m' both) {i : Nat} :
    Covered both i ↔ Covered m i ∨ Covered m' i := by
  simp only [Immutable.covered_iff, h _, or_and_right, exists_or]

theorem Joins.lieIn_iff (h : Joins m m' both) {size : Nat} :
    LieIn both size ↔ LieIn m size ∧ LieIn m' size := by
  simp only [Immutable.lieIn_iff, h _, or_imp, forall_and]

/-- Where all places come to integers, they either lie in the code or one of them strays. -/
theorem strays_iff_not_lieIn (hm : ∀ r, HasPlace m r → r.extent?.isSome) {size : Nat} :
    Strays m size ↔ ¬ LieIn m size := by
  rw [lieIn_iff]
  constructor
  · rintro ⟨r, offset, length, hr, he, hstray⟩ h
    obtain ⟨o, n, he', h0, h1, h2⟩ := h r hr
    obtain ⟨rfl, rfl⟩ : offset = o ∧ length = n := by simpa using he.symm.trans he'
    omega
  · intro h
    push Not at h
    obtain ⟨r, hr, hout⟩ := h
    obtain ⟨⟨offset, length⟩, he⟩ := Option.isSome_iff_exists.mp (hm r hr)
    refine ⟨r, offset, length, hr, he, ?_⟩
    by_contra hin
    exact hout ⟨offset, length, he, by unfold Range.Fits; omega⟩

/-! ### Places that are refused -/

/-- The first place that does not lie in the code is refused under its name, with the size that the code
had before anything of it was masked. -/
theorem maskPlaces_of_stray {before : List (Document × Range)} {p : Document × Range}
    (hbefore : ∀ q ∈ before, q.2.LiesIn code.length) {offset length : Int}
    (he : p.2.extent? = some (offset, length)) (hp : ¬ Range.Fits offset length code.length)
    (after : List (Document × Range)) :
    ∃ first count : String, maskPlaces code (before ++ p :: after) =
      .error (.inconsistent (.outsideCode p.1.plain first count code.length)) := by
  obtain ⟨mid, hmask⟩ := IsMask.exists_mask (fun i => ∃ q ∈ before, q.2.Covers i) code
  have hmid : maskPlaces code before = .ok mid := (maskPlaces_eq_ok_iff _ _ _).mpr ⟨hbefore, hmask⟩
  rw [← hmask.length_eq] at hp ⊢
  obtain ⟨first, count, hrefused⟩ := Range.mask_of_not_fits he hp p.1
  refine ⟨first, count, ?_⟩
  unfold maskPlaces at hmid ⊢
  rw [List.foldlM_append, hmid, Except.ok_bind, List.foldlM_cons, hrefused]
  rfl

theorem mem_places_iff {p : Document × Range} :
    p ∈ places m ↔ ∃ v ∈ m, ∃ r ∈ v.ranges, (v.name, r) = p := by
  simp [places]

/-- Among places that do not all lie in the code there is a first one that does not. -/
theorem exists_first_stray {ps : List (Document × Range)} {size : Nat}
    (h : ∃ p ∈ ps, ¬ p.2.LiesIn size) :
    ∃ before p after, ps = before ++ p :: after ∧ (∀ q ∈ before, q.2.LiesIn size) ∧
      ¬ p.2.LiesIn size := by
  induction ps with
  | nil => simp at h
  | cons q ps ih =>
    by_cases hq : q.2.LiesIn size
    · obtain ⟨before, p, after, rfl, hbefore, hp⟩ := ih (by simpa [hq] using h)
      exact ⟨q :: before, p, after, rfl, by simpa [hq] using hbefore, hp⟩
    · exact ⟨[], q, ps, rfl, by simp, hq⟩

/-- Where some place strays, masking is refused, and the refusal names a variable with such a place. -/
theorem maskAll_of_strays (hm : ∀ r, HasPlace m r → r.extent?.isSome) (h : Strays m code.length) :
    ∃ v ∈ m, ∃ r ∈ v.ranges, ¬ r.LiesIn code.length ∧ ∃ first count : String, maskAll code m =
      .error (.inconsistent (.outsideCode v.name.plain first count code.length)) := by
  have hout : ∃ p ∈ places m, ¬ p.2.LiesIn code.length := by
    obtain ⟨v, hv, r, hr, hout⟩ : ∃ v ∈ m, ∃ r ∈ v.ranges, ¬ r.LiesIn code.length := by
      have h := (strays_iff_not_lieIn hm).mp h
      unfold LieIn at h
      push Not at h
      exact h
    exact ⟨(v.name, r), mem_places_iff.mpr ⟨v, hv, r, hr, rfl⟩, hout⟩
  obtain ⟨before, p, after, hsplit, hbefore, hp⟩ := exists_first_stray hout
  obtain ⟨v, hv, r, hr, rfl⟩ := mem_places_iff.mp (hsplit ▸ List.mem_append_cons_self)
  obtain ⟨⟨offset, length⟩, he⟩ := Option.isSome_iff_exists.mp (hm r ⟨v, hv, hr⟩)
  have hfits : ¬ Range.Fits offset length code.length := fun hfits => hp ⟨offset, length, he, hfits⟩
  obtain ⟨first, count, hrefused⟩ := maskPlaces_of_stray (p := (v.name, r)) hbefore he hfits after
  refine ⟨v, hv, r, hr, hp, first, count, ?_⟩
  rw [maskAll_eq_maskPlaces, hsplit, hrefused]

/-! ### Places that are masked -/

/-- Variables with the same places are masked alike. -/
theorem maskAll_eq_ok_congr (h : ∀ r, HasPlace m' r ↔ HasPlace m r) :
    maskAll code m' = .ok out ↔ maskAll code m = .ok out := by
  have hcovered : Covered m' = Covered m := by
    funext i
    simp only [covered_iff, h]
  have hin : LieIn m' code.length ↔ LieIn m code.length := by simp only [lieIn_iff, h]
  rw [maskAll_eq_ok_iff, maskAll_eq_ok_iff, hcovered, hin]

/-- Masking one group of variables after the other is masking both of them at once. -/
theorem maskAll_bind_eq_ok_iff (h : Joins m m' both) :
    (maskAll code m >>= (maskAll · m')) = .ok out ↔ maskAll code both = .ok out := by
  have hcovered : Covered both = fun i => Covered m i ∨ Covered m' i :=
    funext fun i => propext h.covered_iff
  rw [Except.bind_eq_ok_iff]
  simp only [maskAll_eq_ok_iff, hcovered, h.lieIn_iff]
  constructor
  · rintro ⟨mid, ⟨hin, hmid⟩, hin', hout⟩
    exact ⟨⟨hin, hmid.length_eq ▸ hin'⟩, hmid.trans hout⟩
  · rintro ⟨⟨hin, hin'⟩, hout⟩
    obtain ⟨mid, hmid⟩ := IsMask.exists_mask (Covered m) code
    exact ⟨mid, ⟨hin, hmid⟩, hmid.length_eq ▸ hin', hmid.of_part hout⟩

theorem toOption_eq_of_ok_iff {x y : Except Obstacle Bytes} (h : ∀ out, x = .ok out ↔ y = .ok out) :
    x.toOption = y.toOption := by
  cases y with
  | ok out =>
    rw [(h out).mpr rfl]
  | error e =>
    cases x with
    | ok out => cases (h out).mp rfl
    | error e' => rfl

/-- Masking is pointwise. Of places that come to integers, one that strays from the code is refused, and
there is no other refusal; otherwise the masked code is zero where a place covers it and the same
everywhere else. So it masks to itself, the names and the order of the places do not matter, and masking
one group of places after the other is masking all of them. -/
theorem maskAll_pointwise (hm : ∀ r, HasPlace m r → r.extent?.isSome) (code : Bytes) :
    ((∃ cause, maskAll code m = .error (.inconsistent cause)) ↔ Strays m code.length) ∧
    (¬ Strays m code.length → ∃ out, maskAll code m = .ok out ∧ out.length = code.length ∧
      (∀ i < code.length, Covered m i → out[i]? = some 0) ∧
      (∀ i, ¬ Covered m i → out[i]? = code[i]?) ∧ maskAll out m = .ok out) ∧
    (∀ m', (∀ r, HasPlace m' r ↔ HasPlace m r) →
      (maskAll code m').toOption = (maskAll code m).toOption) ∧
    ∀ m' both, Joins m m' both →
      (maskAll code m >>= (maskAll · m')).toOption = (maskAll code both).toOption := by
  have hmasked (hin : ¬ Strays m code.length) : ∃ out, LieIn m code.length ∧
      IsMask (Covered m) code out ∧ maskAll code m = .ok out := by
    have hin : LieIn m code.length := by
      by_contra hout
      exact hin ((strays_iff_not_lieIn hm).mpr hout)
    obtain ⟨out, hout⟩ := IsMask.exists_mask (Covered m) code
    exact ⟨out, hin, hout, (maskAll_eq_ok_iff _ _ _).mpr ⟨hin, hout⟩⟩
  refine ⟨⟨?_, ?_⟩, ?_, ?_, ?_⟩
  · rintro ⟨cause, hrefused⟩
    by_contra hin
    obtain ⟨out, -, -, hok⟩ := hmasked hin
    cases hrefused.symm.trans hok
  · intro hstray
    obtain ⟨v, -, r, -, -, first, count, hrefused⟩ := maskAll_of_strays hm hstray
    exact ⟨_, hrefused⟩
  · intro hin
    obtain ⟨out, hin, hout, hok⟩ := hmasked hin
    have hself : Joins m m m := fun r => (or_self_iff).symm
    have hagain := (maskAll_bind_eq_ok_iff hself).mpr hok
    rw [hok, Except.ok_bind] at hagain
    exact ⟨out, hok, hout.length_eq, hout.zero, hout.kept, hagain⟩
  · intro m' hsame
    exact toOption_eq_of_ok_iff fun out => maskAll_eq_ok_congr hsame
  · intro m' both hboth
    exact toOption_eq_of_ok_iff fun out => maskAll_bind_eq_ok_iff hboth

/-- Places that overlap, an empty one at the end of the code and one that is given in truth values, in
either order of the names. -/
theorem maskAll_pointwise_overlapping :
    maskAll [0x60, 0x61, 0x62, 0x63] [⟨.text "x", [.span 1 2, .span 4 0]⟩,
        ⟨.text "y", [.span 2 1, .irregular (.list [.bool false, .bool true])]⟩] =
      .ok [0x00, 0x00, 0x00, 0x63] ∧
    (maskAll [0x60, 0x61, 0x62, 0x63] [
        ⟨.text "y", [.span 2 1, .irregular (.list [.bool false, .bool true])]⟩,
        ⟨.text "x", [.span 1 2, .span 4 0]⟩]).toOption = some [0x00, 0x00, 0x00, 0x63] := by
  have hm : ∀ r, HasPlace [⟨.text "x", [.span 1 2, .span 4 0]⟩,
      ⟨.text "y", [.span 2 1, .irregular (.list [.bool false, .bool true])]⟩] r →
      r.extent?.isSome := by
    rintro r ⟨v, hv, hr⟩
    simp only [List.mem_cons, List.not_mem_nil, or_false] at hv
    rcases hv with rfl | rfl <;> simp only [List.mem_cons, List.not_mem_nil, or_false] at hr <;>
      rcases hr with rfl | rfl <;> rfl
  have hmasked : maskAll [0x60, 0x61, 0x62, 0x63] [⟨.text "x", [.span 1 2, .span 4 0]⟩,
      ⟨.text "y", [.span 2 1, .irregular (.list [.bool false, .bool true])]⟩] =
      .ok [0x00, 0x00, 0x00, 0x63] := Except.eq_ok_of_toOption (by decide +kernel)
  refine ⟨hmasked, ?_⟩
  rw [(maskAll_pointwise hm [0x60, 0x61, 0x62, 0x63]).2.2.1 _ fun r => ?_, hmasked]
  · rfl
  · simp [HasPlace, or_comm]

end Immutable

end Attest
