import Attest.Immutable
import Attest.Proofs.Outcome

/-! Masking by position: a masked code is zero wherever a place of the immutables covers it, and what
it was before everywhere else. -/

namespace Attest

namespace Range

/-! ### Places -/

/-- The offset and the length of a place, if it comes to two integers. -/
def extent? : Range → Option (Int × Int)
  | span offset length => some (offset, length)
  | irregular d =>
      match parts d with
      | .ok (offset, length) =>
          match offset.integral?, length.integral? with
          | some i, some n => some (i, n)
          | _, _ => none
      | .error _ => none

/-- Whether the byte at an index belongs to a place. -/
def Covers (r : Range) (i : Nat) : Prop :=
  ∃ offset length, r.extent? = some (offset, length) ∧ offset ≤ i ∧ (i : Int) < offset + length

/-- Whether a place comes to integers and lies within code of the given size. -/
def LiesIn (r : Range) (size : Nat) : Prop :=
  ∃ offset length, r.extent? = some (offset, length) ∧ Fits offset length size

theorem covers_iff {r : Range} {offset length : Int} (h : r.extent? = some (offset, length))
    (i : Nat) : r.Covers i ↔ offset ≤ i ∧ (i : Int) < offset + length := by
  simp [Covers, h, and_assoc]

theorem Covers.lt_size {r : Range} {i size : Nat} (hc : r.Covers i) (hl : r.LiesIn size) :
    i < size := by
  obtain ⟨offset, length, he, hfits⟩ := hl
  have hi := (covers_iff he i).mp hc
  have := hfits.2.2
  omega

theorem LiesIn.mono {r : Range} {m n : Nat} (h : r.LiesIn m) (hmn : m ≤ n) : r.LiesIn n := by
  obtain ⟨offset, length, he, h0, h1, h2⟩ := h
  exact ⟨offset, length, he, h0, h1, by omega⟩

theorem isNegative_of_integral? {d : Document} {i : Int} (h : d.integral? = some i) :
    d.isNegative = .ok (decide (i < 0)) := by
  cases d <;> simp_all [Document.integral?, Document.isNegative]

/-- Between integers, to stray is not to fit. -/
theorem strays_of_integral? {offset length : Document} {i n : Int} (hi : offset.integral? = some i)
    (hn : length.integral? = some n) (size : Nat) :
    strays offset length size = .ok (decide (¬ Fits i n size)) := by
  unfold strays
  rw [isNegative_of_integral? hi, isNegative_of_integral? hn]
  by_cases h0 : i < 0
  · have : ¬ Fits i n size := fun h => absurd h.1 (by omega)
    simp [bind, Except.bind, h0, this, pure, Except.pure]
  · by_cases h1 : n < 0
    · have : ¬ Fits i n size := fun h => absurd h.2.1 (by omega)
      simp [bind, Except.bind, h0, h1, this, pure, Except.pure]
    · have : ¬ Fits i n size ↔ (size : Int) < i + n := by
        unfold Fits
        omega
      simp [bind, Except.bind, h0, h1, hi, hn, this, pure, Except.pure]

/-- Places that lie outside the code are refused, and so are those that are no integers. -/
theorem maskBetween_eq_ok_iff (name : Document) (code : Bytes) (offset length : Document)
    (out : Bytes) :
    maskBetween name code offset length = .ok out ↔
      ∃ i n, offset.integral? = some i ∧ length.integral? = some n ∧ Fits i n code.length ∧
        out = blank code i.toNat n.toNat := by
  unfold maskBetween
  cases hi : offset.integral? with
  | none =>
      simp only [Except.bind_eq_ok_iff]
      constructor
      · rintro ⟨stray, _, h⟩
        cases stray <;> cases hn : length.integral? <;> simp_all
      · rintro ⟨i, n, h, _⟩
        simp at h
  | some i =>
      cases hn : length.integral? with
      | none =>
          simp only [Except.bind_eq_ok_iff]
          constructor
          · rintro ⟨stray, _, h⟩
            cases stray <;> simp_all
          · rintro ⟨i, n, _, h, _⟩
            simp at h
      | some n =>
          rw [strays_of_integral? hi hn]
          by_cases hfits : Fits i n code.length
          · simp [bind, Except.bind, hfits, pure, Except.pure, eq_comm]
          · simp [bind, Except.bind, hfits, throw, throwThe, MonadExceptOf.throw]

/-- A place is masked if and only if it lies in the code. -/
theorem mask_eq_ok_iff (name : Document) (code : Bytes) (r : Range) (out : Bytes) :
    mask name code r = .ok out ↔
      ∃ offset length, r.extent? = some (offset, length) ∧ Fits offset length code.length ∧
        out = blank code offset.toNat length.toNat := by
  cases r with
  | span offset length =>
      by_cases h : Fits offset length code.length
      · simp [mask, extent?, h, and_assoc, eq_comm]
      · simp [mask, extent?, h, and_assoc]
  | irregular d =>
      simp only [mask, Except.bind_eq_ok_iff, Except.mapError_eq_ok_iff]
      cases hp : parts d with
      | error e => simp [extent?, hp]
      | ok p =>
          obtain ⟨offset, length⟩ := p
          simp only [Except.ok.injEq, exists_eq_left', maskBetween_eq_ok_iff, extent?, hp]
          cases offset.integral? <;> cases length.integral? <;> simp [and_assoc]

end Range

/-! ### Masks -/

/-- A code is a mask of another one where it is zero on some positions and the same on all others. -/
structure IsMask (covered : Nat → Prop) (code out : Bytes) : Prop where
  length_eq : out.length = code.length
  zero : ∀ i < code.length, covered i → out[i]? = some 0
  kept : ∀ i, ¬ covered i → out[i]? = code[i]?

namespace IsMask

variable {p q : Nat → Prop} {a b c : Bytes}

theorem trans (hab : IsMask p a b) (hbc : IsMask q b c) : IsMask (fun i => p i ∨ q i) a c := by
  refine ⟨hbc.length_eq.trans hab.length_eq, ?_, ?_⟩
  · intro i hi hcovered
    by_cases hq : q i
    · exact hbc.zero i (hab.length_eq ▸ hi) hq
    · rw [hbc.kept i hq]
      exact hab.zero i hi (hcovered.resolve_right hq)
  · intro i hcovered
    rw [hbc.kept i (fun hq => hcovered (.inr hq)), hab.kept i (fun hp => hcovered (.inl hp))]

/-- What a mask still covers after a part of it was masked. -/
theorem of_part (hab : IsMask p a b) (hac : IsMask (fun i => p i ∨ q i) a c) : IsMask q b c := by
  refine ⟨hac.length_eq.trans hab.length_eq.symm, ?_, ?_⟩
  · intro i hi hq
    exact hac.zero i (hab.length_eq ▸ hi) (.inr hq)
  · intro i hq
    by_cases hp : p i
    · by_cases hi : i < a.length
      · rw [hac.zero i hi (.inl hp), hab.zero i hi hp]
      · rw [List.getElem?_eq_none (by have := hac.length_eq; omega),
          List.getElem?_eq_none (by have := hab.length_eq; omega)]
    · rw [hac.kept i (by simp [hp, hq]), hab.kept i hp]

theorem unique (hb : IsMask p a b) (hc : IsMask p a c) : b = c := by
  apply List.ext_getElem?
  intro i
  by_cases hp : p i
  · by_cases hi : i < a.length
    · rw [hb.zero i hi hp, hc.zero i hi hp]
    · rw [List.getElem?_eq_none (by have := hb.length_eq; omega),
        List.getElem?_eq_none (by have := hc.length_eq; omega)]
  · rw [hb.kept i hp, hc.kept i hp]

theorem congr (h : IsMask p a b) (hpq : ∀ i, p i ↔ q i) : IsMask q a b := by
  have : p = q := funext fun i => propext (hpq i)
  exact this ▸ h

theorem refl (h : ∀ i, ¬ p i) : IsMask p a a :=
  ⟨rfl, fun i _ hp => absurd hp (h i), fun _ _ => rfl⟩

/-- Masks of codes that agree outside of what is covered are the same. -/
theorem eq_of_agree {a' b' : Bytes} (h : IsMask p a b) (h' : IsMask p a' b')
    (hlength : a.length = a'.length) (hagree : ∀ i, ¬ p i → a[i]? = a'[i]?) : b = b' := by
  apply h.unique
  refine ⟨h'.length_eq.trans hlength.symm, ?_, ?_⟩
  · intro i hi hp
    exact h'.zero i (hlength ▸ hi) hp
  · intro i hp
    rw [h'.kept i hp, hagree i hp]

theorem exists_mask (p : Nat → Prop) (code : Bytes) : ∃ out, IsMask p code out := by
  classical
  refine ⟨code.mapIdx fun i b => if p i then 0 else b, by simp, ?_, ?_⟩
  · intro i hi hp
    simp [hp, hi]
  · intro i hp
    simp [hp]

theorem append (h : IsMask p a b) (hp : ∀ i, p i → i < a.length) (rest : Bytes) :
    IsMask p (a ++ rest) (b ++ rest) := by
  refine ⟨by simp [h.length_eq], ?_, ?_⟩
  · intro i _ hc
    have hi := hp i hc
    rw [List.getElem?_append_left (h.length_eq ▸ hi)]
    exact h.zero i hi hc
  · intro i hc
    by_cases hi : i < a.length
    · rw [List.getElem?_append_left (h.length_eq ▸ hi), List.getElem?_append_left hi, h.kept i hc]
    · rw [List.getElem?_append_right (by have := h.length_eq; omega),
        List.getElem?_append_right (by omega), h.length_eq]

end IsMask

theorem Range.blank_isMask {code : Bytes} {offset length : Int}
    (h : Fits offset length code.length) :
    IsMask (fun i => offset ≤ i ∧ (i : Int) < offset + length) code
      (blank code offset.toNat length.toNat) := by
  obtain ⟨h0, h1, h2⟩ := h
  refine ⟨length_blank (by omega), ?_, ?_⟩
  · intro i hi hc
    have htake : (code.take offset.toNat).length = offset.toNat := by simp; omega
    rw [blank, List.getElem?_append_left (by simp [Bytes.zeros]; omega),
      List.getElem?_append_right (by omega), htake, Bytes.zeros,
      List.getElem?_replicate_of_lt (by omega)]
  · intro i hc
    have htake : (code.take offset.toNat).length = offset.toNat := by simp; omega
    by_cases hi : i < offset.toNat
    · rw [blank, List.append_assoc, List.getElem?_append_left (by omega),
        List.getElem?_take_of_lt hi]
    · rw [blank, List.getElem?_append_right (by simp [Bytes.zeros]; omega), List.getElem?_drop]
      congr 1
      simp [Bytes.zeros]
      omega

namespace Immutable

/-- Whether the byte at an index belongs to a place of one of the variables. -/
def Covered (vs : List Immutable) (i : Nat) : Prop := ∃ v ∈ vs, ∃ r ∈ v.ranges, r.Covers i

/-- Whether all places of all variables lie within code of the given size. -/
def LieIn (vs : List Immutable) (size : Nat) : Prop := ∀ v ∈ vs, ∀ r ∈ v.ranges, r.LiesIn size

/-- The places of all variables, each with the name of its variable. -/
def places (vs : List Immutable) : List (Document × Range) :=
  vs.flatMap fun v => v.ranges.map fun r => (v.name, r)

/-- Masks one place after the other. -/
def maskPlaces (code : Bytes) (ps : List (Document × Range)) : Except Obstacle Bytes :=
  ps.foldlM (fun code p => p.2.mask p.1 code) code

theorem maskAll_eq_maskPlaces (code : Bytes) (vs : List Immutable) :
    maskAll code vs = maskPlaces code (places vs) := by
  induction vs generalizing code with
  | nil => rfl
  | cons v vs ih =>
      have hrest : (fun code => maskAll code vs) = fun code => maskPlaces code (places vs) :=
        funext ih
      simp only [places, List.flatMap_cons, maskPlaces, List.foldlM_append, List.foldlM_map]
      exact congrArg (mask code v >>= ·) hrest

/-- Masking place by place comes to a result if and only if every place lies in the code, and the
result is zero just where one of the places is. -/
theorem maskPlaces_eq_ok_iff (code : Bytes) (ps : List (Document × Range)) (out : Bytes) :
    maskPlaces code ps = .ok out ↔
      (∀ p ∈ ps, p.2.LiesIn code.length) ∧ IsMask (fun i => ∃ p ∈ ps, p.2.Covers i) code out := by
  induction ps generalizing code with
  | nil =>
      constructor
      · intro h
        obtain rfl := Except.ok.inj h
        exact ⟨by simp, .refl (by simp)⟩
      · rintro ⟨-, h⟩
        exact congrArg Except.ok ((IsMask.refl (by simp)).unique h)
  | cons p ps ih =>
      have hsplit : (fun i => ∃ q ∈ p :: ps, q.2.Covers i) =
          fun i => p.2.Covers i ∨ ∃ q ∈ ps, q.2.Covers i := by
        funext i
        simp
      rw [hsplit]
      simp only [maskPlaces, List.foldlM_cons, Except.bind_eq_ok_iff, Range.mask_eq_ok_iff,
        List.forall_mem_cons]
      constructor
      · rintro ⟨mid, ⟨offset, length, he, hfits, rfl⟩, hrest⟩
        obtain ⟨hin, hmask⟩ := (ih _).mp hrest
        have hmid := (Range.blank_isMask hfits).congr fun i => (Range.covers_iff he i).symm
        rw [hmid.length_eq] at hin
        exact ⟨⟨⟨offset, length, he, hfits⟩, hin⟩, hmid.trans hmask⟩
      · rintro ⟨⟨⟨offset, length, he, hfits⟩, hin⟩, hmask⟩
        have hmid := (Range.blank_isMask hfits).congr fun i => (Range.covers_iff he i).symm
        rw [← hmid.length_eq] at hin
        exact ⟨_, ⟨offset, length, he, hfits, rfl⟩, (ih _).mpr ⟨hin, hmid.of_part hmask⟩⟩

/-- Masking comes to a result if and only if every place lies in the code, and the result is zero just
where a place is. -/
theorem maskAll_eq_ok_iff (code : Bytes) (vs : List Immutable) (out : Bytes) :
    maskAll code vs = .ok out ↔ LieIn vs code.length ∧ IsMask (Covered vs) code out := by
  have hplaces (f : Range → Prop) :
      (∃ p ∈ places vs, f p.2) ↔ ∃ v ∈ vs, ∃ r ∈ v.ranges, f r := by
    simp only [places, List.mem_flatMap, List.mem_map]
    constructor
    · rintro ⟨_, ⟨v, hv, r, hr, rfl⟩, hf⟩
      exact ⟨v, hv, r, hr, hf⟩
    · rintro ⟨v, hv, r, hr, hf⟩
      exact ⟨_, ⟨v, hv, r, hr, rfl⟩, hf⟩
  have hcovered : (fun i => ∃ p ∈ places vs, p.2.Covers i) = Covered vs :=
    funext fun i => propext (hplaces (·.Covers i))
  have hin : (∀ p ∈ places vs, p.2.LiesIn code.length) ↔ LieIn vs code.length := by
    have := not_congr (hplaces fun r => ¬ r.LiesIn code.length)
    simpa [LieIn] using this
  rw [maskAll_eq_maskPlaces, maskPlaces_eq_ok_iff, hcovered, hin]

theorem Covered.lt_size {vs : List Immutable} {i size : Nat} (h : Covered vs i)
    (hin : LieIn vs size) : i < size := by
  obtain ⟨v, hv, r, hr, hc⟩ := h
  exact hc.lt_size (hin v hv r hr)

theorem LieIn.mono {vs : List Immutable} {m n : Nat} (h : LieIn vs m) (hmn : m ≤ n) :
    LieIn vs n :=
  fun v hv r hr => (h v hv r hr).mono hmn

end Immutable

end Attest
