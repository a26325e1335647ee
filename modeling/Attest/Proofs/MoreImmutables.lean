import Attest.Proofs.MaskedPlaces
import Attest.Proofs.RepeatedTrailers
import Attest.Proofs.RuntimeMatching

/-! # Masking more of codes that match

Codes that match still match, with the same verdict, when more of their cores is masked. There is one way
for it to be otherwise: of two codes with the same core, one of which has a trailer and the other none,
the one without may come to look as if it had a trailer too, and then the cores are no longer the
same. -/

namespace Attest.Matching

open Immutable (LieIn Covered HasPlace Joins maskAll)
open Trailer (split IsTrailer)

variable {compiled onchain a b a' b' : Bytes} {m m' both : List Immutable} {v : Verdict}

/-! ### Verdicts on masked codes -/

/-- What the last tiers make of two masked codes. -/
def maskedVerdict (a b : Bytes) : Verdict := if a = b then .exact else (byCores a b).getD .different

theorem byCores_comm (a b : Bytes) : byCores a b = byCores b a := by
  simp [byCores, eq_comm]

theorem maskedVerdict_comm (a b : Bytes) : maskedVerdict a b = maskedVerdict b a := by
  simp [maskedVerdict, byCores_comm a b, eq_comm]

/-- A code beside the same code with a trailer after it. -/
theorem maskedVerdict_append {core t : Bytes} (ht : IsTrailer t) :
    maskedVerdict core (core ++ t) =
      if (split core).trailer = [] then .upToTrailer else .different := by
  have hne : core ≠ core ++ t := by simpa using ht.ne_nil
  have hsplit := Trailer.split_append_of_isTrailer ht core
  rw [maskedVerdict, if_neg hne]
  by_cases hbare : (split core).trailer = []
  · have hself := Trailer.split_of_trailer_eq_nil hbare
    simp [byCores, hsplit, hself, ht.ne_nil.symm]
  · have hcore : (split core).core ≠ core := by
      intro hcore
      have hsum := Trailer.split_append core
      rw [hcore] at hsum
      exact hbare (List.append_right_eq_self.mp hsum)
    simp [byCores, hsplit, hcore, hbare]

/-- Codes that match are the same, or have the same core and different trailers. -/
theorem maskedVerdict_isMatch (h : (maskedVerdict a b).isMatch = true) :
    a = b ∧ maskedVerdict a b = .exact ∨
      (split a).core = (split b).core ∧ (split a).trailer ≠ (split b).trailer ∧
        maskedVerdict a b = .upToTrailer := by
  by_cases hab : a = b
  · exact .inl ⟨hab, by simp [maskedVerdict, hab]⟩
  · right
    rw [maskedVerdict, if_neg hab] at h ⊢
    cases hcores : byCores a b with
    | none =>
      rw [hcores] at h
      cases h
    | some w =>
      obtain ⟨hcore, hw⟩ := (byCores_eq_some_iff a b w).mp hcores
      have htrailer : (split a).trailer ≠ (split b).trailer := by
        intro htrailer
        apply hab
        rw [← Trailer.split_append a, ← Trailer.split_append b, hcore, htrailer]
      exact ⟨hcore, htrailer, by simp [hw, htrailer]⟩

/-! ### Tiers -/

/-- Codes that are the same, or have the same core, are judged without their immutables. -/
theorem runtime_eq_of_cores (h : byCores compiled onchain ≠ none) (m m' : List Immutable) :
    runtime compiled onchain m = runtime compiled onchain m' := by
  obtain ⟨w, hw⟩ := Option.ne_none_iff_exists'.mp h
  simp [runtime, hw]

/-- Where the first tiers do not decide, a match is one of the masked codes. -/
theorem runtime_of_byCores_eq_none (hcores : byCores compiled onchain = none)
    (h : runtime compiled onchain m = .ok v) (hv : v.isMatch = true)
    (ha : maskAll compiled m = .ok a) (hb : maskAll onchain m = .ok b) :
    compiled ≠ [] ∧ onchain ≠ [] ∧ compiled ≠ onchain ∧ m ≠ [] ∧ v = maskedVerdict a b := by
  have hdecided (w : Verdict) (hw : w.isMatch = false) : runtime compiled onchain m ≠ .ok w := by
    intro heq
    obtain rfl := Except.ok.inj (heq.symm.trans h)
    simp [hw] at hv
  have honchain : onchain ≠ [] := fun hnil => hdecided .absent rfl (by simp [runtime, hnil])
  have hcompiled : compiled ≠ [] := fun hnil =>
    hdecided .different rfl (by simp [runtime, hnil, honchain])
  have hne : compiled ≠ onchain := by
    rintro rfl
    simp [byCores] at hcores
  have hm : m ≠ [] := fun hnil =>
    hdecided .different rfl (by simp [runtime, hnil, honchain, hcompiled, hne, hcores])
  refine ⟨hcompiled, honchain, hne, hm, ?_⟩
  exact Except.ok.inj (h.symm.trans (runtime_of_masked hcompiled honchain hne hcores hm ha hb))

/-- Immutables without places mask nothing, so that where they are needed for a match they have some. -/
theorem ne_nil_of_joins (hcores : byCores compiled onchain = none)
    (hv : (maskedVerdict a b).isMatch = true) (ha : maskAll compiled m = .ok a)
    (hb : maskAll onchain m = .ok b) (hboth : Joins m m' both) : both ≠ [] := by
  rintro rfl
  have hnone : ∀ i, ¬ Covered m i := by
    intro i hi
    obtain ⟨r, hr, -⟩ := Immutable.covered_iff.mp hi
    obtain ⟨w, hw, -⟩ := (hboth r).mpr (.inl hr)
    simp at hw
  have hself (code out : Bytes) (h : maskAll code m = .ok out) : code = out :=
    (IsMask.refl hnone).unique ((Immutable.maskAll_eq_ok_iff _ _ _).mp h).2
  obtain rfl := hself _ _ ha
  obtain rfl := hself _ _ hb
  have hne : compiled ≠ onchain := by
    rintro rfl
    simp [byCores] at hcores
  rw [maskedVerdict, if_neg hne, hcores] at hv
  cases hv

/-! ### More places -/

/-- Of two codes, one that ends in no trailer while the other ends in one, and that ends in one as well
once it is masked. -/
structure GainsTrailer (m' : List Immutable) (a b : Bytes) : Prop where
  bare : (split a).trailer = []
  trailed : (split b).trailer ≠ []
  gained : ∃ a', maskAll a m' = .ok a' ∧ (split a').trailer ≠ []

/-- Masking the cores of two codes with one core leaves one core, and their trailers as they were. -/
theorem exists_maskAll_cores (hcore : (split a).core = (split b).core)
    (hplaces : LieIn m' (split a).core.length) :
    ∃ core, maskAll a m' = .ok (core ++ (split a).trailer) ∧
      maskAll b m' = .ok (core ++ (split b).trailer) := by
  obtain ⟨core, hmask⟩ := IsMask.exists_mask (Covered m') (split a).core
  have ha := maskAll_append hplaces hmask (split a).trailer
  have hb := maskAll_append (hcore ▸ hplaces) (hcore ▸ hmask) (split b).trailer
  rw [Trailer.split_append] at ha hb
  exact ⟨core, ha, hb⟩

theorem gainsTrailer_iff (hbare : (split a).trailer = []) (htrailed : (split b).trailer ≠ [])
    (ha : maskAll a m' = .ok a') :
    GainsTrailer m' a b ∨ GainsTrailer m' b a ↔ (split a').trailer ≠ [] := by
  constructor
  · rintro (⟨-, -, a₂, ha₂, h⟩ | h)
    · rwa [Except.ok.inj (ha.symm.trans ha₂)]
    · exact absurd h.bare htrailed
  · exact fun h => .inl ⟨hbare, htrailed, a', ha, h⟩

theorem isTrailer_of_ne_nil {code : Bytes} (h : (split code).trailer ≠ []) :
    IsTrailer (split code).trailer :=
  (Trailer.split_cases code).resolve_left fun hnone => h hnone.2

section

variable (hcore : (split a).core = (split b).core) (hplaces : LieIn m' (split a).core.length)
  (ha : maskAll a m' = .ok a') (hb : maskAll b m' = .ok b')

include hcore hplaces ha hb

theorem maskedVerdict_of_bare (hbare : (split a).trailer = []) (htrailed : (split b).trailer ≠ []) :
    (¬ (GainsTrailer m' a b ∨ GainsTrailer m' b a) → maskedVerdict a' b' = .upToTrailer) ∧
    (GainsTrailer m' a b ∨ GainsTrailer m' b a → maskedVerdict a' b' = .different) := by
  have hgains := gainsTrailer_iff hbare htrailed ha
  obtain ⟨core, ha₂, hb₂⟩ := exists_maskAll_cores hcore hplaces
  rw [hbare, List.append_nil] at ha₂
  obtain rfl := Except.ok.inj (ha.symm.trans ha₂)
  obtain rfl := Except.ok.inj (hb.symm.trans hb₂)
  rw [maskedVerdict_append (isTrailer_of_ne_nil htrailed), hgains]
  by_cases h : (split a').trailer = [] <;> simp [h]

theorem maskedVerdict_of_trailed (hne : (split a).trailer ≠ (split b).trailer)
    (hbare : (split a).trailer ≠ []) (hbare' : (split b).trailer ≠ []) :
    maskedVerdict a' b' = .upToTrailer := by
  obtain ⟨core, ha₂, hb₂⟩ := exists_maskAll_cores hcore hplaces
  obtain rfl := Except.ok.inj (ha.symm.trans ha₂)
  obtain rfl := Except.ok.inj (hb.symm.trans hb₂)
  have hverdict : maskedVerdict (core ++ (split a).trailer) (core ++ (split b).trailer) =
      if (split a).trailer = (split b).trailer then .exact else .upToTrailer :=
    verdict_append (.inr ⟨isTrailer_of_ne_nil hbare, isTrailer_of_ne_nil hbare'⟩)
  rw [hverdict, if_neg hne]

end

/-- Masking more of the cores of two codes that match keeps the verdict, unless one of them gains a
trailer. -/
theorem maskedVerdict_of_isMatch (hv : (maskedVerdict a b).isMatch = true)
    (hplaces : LieIn m' (split a).core.length)
    (ha : maskAll a m' = .ok a') (hb : maskAll b m' = .ok b') :
    (¬ (GainsTrailer m' a b ∨ GainsTrailer m' b a) → maskedVerdict a' b' = maskedVerdict a b) ∧
    (GainsTrailer m' a b ∨ GainsTrailer m' b a → maskedVerdict a' b' = .different) := by
  obtain ⟨rfl, hexact⟩ | ⟨hcore, hne, hpartial⟩ := maskedVerdict_isMatch hv
  · obtain rfl := Except.ok.inj (ha.symm.trans hb)
    refine ⟨fun _ => by simp [maskedVerdict], ?_⟩
    rintro (h | h) <;> exact absurd h.bare h.trailed
  rw [hpartial]
  by_cases hbare : (split a).trailer = []
  · exact maskedVerdict_of_bare hcore hplaces ha hb hbare fun h => hne (hbare.trans h.symm)
  by_cases hbare' : (split b).trailer = []
  · rw [maskedVerdict_comm, or_comm]
    exact maskedVerdict_of_bare hcore.symm (hcore ▸ hplaces) hb ha hbare' hbare
  · refine ⟨fun _ => maskedVerdict_of_trailed hcore hplaces ha hb hne hbare hbare', ?_⟩
    rintro (h | h)
    · exact absurd h.bare hbare
    · exact absurd h.bare hbare'

/-- More immutables never turn a match into a mismatch or change its grade, where their places lie in the
cores of the masked codes: the verdict stays the same, except where the codes have different cores and,
masked, only one of them ends in a trailer, and masking more brings forth one at the end of the other.
There they no longer match. -/
theorem runtime_more_immutables (h : runtime compiled onchain m = .ok v) (hv : v.isMatch = true)
    (ha : maskAll compiled m = .ok a) (hb : maskAll onchain m = .ok b) (hboth : Joins m m' both)
    (hplaces : LieIn m' (split a).core.length) (hplaces' : LieIn m' (split b).core.length) :
    (¬ (byCores compiled onchain = none ∧ (GainsTrailer m' a b ∨ GainsTrailer m' b a)) →
      runtime compiled onchain both = .ok v) ∧
    (byCores compiled onchain = none ∧ (GainsTrailer m' a b ∨ GainsTrailer m' b a) →
      runtime compiled onchain both = .ok .different) := by
  cases hcores : byCores compiled onchain with
  | some w =>
    have hsame := runtime_eq_of_cores (by simp [hcores] : byCores compiled onchain ≠ none) both m
    exact ⟨fun _ => hsame.trans h, fun hgains => by simp at hgains⟩
  | none =>
    obtain ⟨hcompiled, honchain, hne, -, rfl⟩ := runtime_of_byCores_eq_none hcores h hv ha hb
    have hsome := ne_nil_of_joins hcores hv ha hb hboth
    -- Masking all places at once is masking the further ones of the masked codes.
    obtain ⟨a', hmask⟩ := IsMask.exists_mask (Covered m') a
    obtain ⟨b', hmask'⟩ := IsMask.exists_mask (Covered m') b
    have ha' : maskAll a m' = .ok a' := (Immutable.maskAll_eq_ok_iff _ _ _).mpr
      ⟨hplaces.mono (Trailer.core_length_le a), hmask⟩
    have hb' : maskAll b m' = .ok b' := (Immutable.maskAll_eq_ok_iff _ _ _).mpr
      ⟨hplaces'.mono (Trailer.core_length_le b), hmask'⟩
    have hcompiled' : maskAll compiled both = .ok a' :=
      (Immutable.maskAll_bind_eq_ok_iff hboth).mp (by rw [ha, Except.ok_bind, ha'])
    have honchain' : maskAll onchain both = .ok b' :=
      (Immutable.maskAll_bind_eq_ok_iff hboth).mp (by rw [hb, Except.ok_bind, hb'])
    have hruntime : runtime compiled onchain both = .ok (maskedVerdict a' b') :=
      runtime_of_masked hcompiled honchain hne hcores hsome hcompiled' honchain'
    obtain ⟨hkept, hlost⟩ := maskedVerdict_of_isMatch hv hplaces ha' hb'
    rw [hruntime]
    exact ⟨fun hgains => by rw [hkept fun hg => hgains ⟨rfl, hg⟩], fun hgains => by rw [hlost hgains.2]⟩

/-- A second variable in codes that end in different trailers. -/
theorem runtime_more_immutables_trailed :
    runtime [0x60, 0x00, 0x01, 0xa1, 0x61, 0x61, 0x01, 0x00, 0x04]
        [0x60, 0x07, 0x01, 0xa1, 0x61, 0x61, 0x02, 0x00, 0x04] [⟨.text "x", [.span 1 1]⟩] =
      .ok .upToTrailer ∧
    runtime [0x60, 0x00, 0x01, 0xa1, 0x61, 0x61, 0x01, 0x00, 0x04]
        [0x60, 0x07, 0x01, 0xa1, 0x61, 0x61, 0x02, 0x00, 0x04]
        ([⟨.text "x", [.span 1 1]⟩] ++ [⟨.text "y", [.span 2 1, .span 1 2]⟩]) =
      .ok .upToTrailer := by
  have h : runtime [0x60, 0x00, 0x01, 0xa1, 0x61, 0x61, 0x01, 0x00, 0x04]
      [0x60, 0x07, 0x01, 0xa1, 0x61, 0x61, 0x02, 0x00, 0x04] [⟨.text "x", [.span 1 1]⟩] =
      .ok .upToTrailer := Except.eq_ok_of_toOption (by decide +kernel)
  have ha : maskAll [0x60, 0x00, 0x01, 0xa1, 0x61, 0x61, 0x01, 0x00, 0x04]
      [⟨.text "x", [.span 1 1]⟩] = .ok [0x60, 0x00, 0x01, 0xa1, 0x61, 0x61, 0x01, 0x00, 0x04] :=
    Except.eq_ok_of_toOption (by decide +kernel)
  have hb : maskAll [0x60, 0x07, 0x01, 0xa1, 0x61, 0x61, 0x02, 0x00, 0x04]
      [⟨.text "x", [.span 1 1]⟩] = .ok [0x60, 0x00, 0x01, 0xa1, 0x61, 0x61, 0x02, 0x00, 0x04] :=
    Except.eq_ok_of_toOption (by decide +kernel)
  have hsplit : split [0x60, 0x00, 0x01, 0xa1, 0x61, 0x61, 0x01, 0x00, 0x04] =
      ⟨[0x60, 0x00, 0x01], [0xa1, 0x61, 0x61, 0x01, 0x00, 0x04]⟩ := by decide +kernel
  have hsplit' : split [0x60, 0x00, 0x01, 0xa1, 0x61, 0x61, 0x02, 0x00, 0x04] =
      ⟨[0x60, 0x00, 0x01], [0xa1, 0x61, 0x61, 0x02, 0x00, 0x04]⟩ := by decide +kernel
  have hplaces : LieIn [⟨.text "y", [.span 2 1, .span 1 2]⟩] 3 := by
    simp [LieIn, Range.LiesIn, Range.extent?, Range.Fits]
  refine ⟨h, (runtime_more_immutables h rfl ha hb (Immutable.joins_append _ _) ?_ ?_).1 ?_⟩
  · rwa [hsplit]
  · rwa [hsplit']
  · rintro ⟨-, hgains | hgains⟩
    · simpa [hsplit] using hgains.bare
    · simpa [hsplit'] using hgains.bare

/-- The last two bytes of the core are no length before the second variable is masked, and are one
after. The trailer that they are the length of is found in the code that ends there, and not in the one
that goes on with a trailer of its own. -/
theorem masking_more_loses_match :
    runtime [0x00, 0xa1, 0x61, 0x61, 0x00, 0xff, 0x04]
        [0x07, 0xa1, 0x61, 0x61, 0x00, 0xff, 0x04, 0xa1, 0x61, 0x61, 0x01, 0x00, 0x04]
        [⟨.text "x", [.span 0 1]⟩] = .ok .upToTrailer ∧
    (∃ a b, maskAll [0x00, 0xa1, 0x61, 0x61, 0x00, 0xff, 0x04] [⟨.text "x", [.span 0 1]⟩] = .ok a ∧
      maskAll [0x07, 0xa1, 0x61, 0x61, 0x00, 0xff, 0x04, 0xa1, 0x61, 0x61, 0x01, 0x00, 0x04]
        [⟨.text "x", [.span 0 1]⟩] = .ok b ∧
      LieIn [⟨.text "y", [.span 5 1]⟩] (split a).core.length ∧
      LieIn [⟨.text "y", [.span 5 1]⟩] (split b).core.length) ∧
    runtime [0x00, 0xa1, 0x61, 0x61, 0x00, 0xff, 0x04]
        [0x07, 0xa1, 0x61, 0x61, 0x00, 0xff, 0x04, 0xa1, 0x61, 0x61, 0x01, 0x00, 0x04]
        ([⟨.text "x", [.span 0 1]⟩] ++ [⟨.text "y", [.span 5 1]⟩]) = .ok .different := by
  have hsplit : split [0x00, 0xa1, 0x61, 0x61, 0x00, 0xff, 0x04] =
      ⟨[0x00, 0xa1, 0x61, 0x61, 0x00, 0xff, 0x04], []⟩ := by decide +kernel
  have hsplit' : split [0x00, 0xa1, 0x61, 0x61, 0x00, 0xff, 0x04, 0xa1, 0x61, 0x61, 0x01, 0x00, 0x04] =
      ⟨[0x00, 0xa1, 0x61, 0x61, 0x00, 0xff, 0x04], [0xa1, 0x61, 0x61, 0x01, 0x00, 0x04]⟩ := by
    decide +kernel
  have hplaces : LieIn [⟨.text "y", [.span 5 1]⟩] 7 := by
    simp [LieIn, Range.LiesIn, Range.extent?, Range.Fits]
  refine ⟨Except.eq_ok_of_toOption (by decide +kernel),
    ⟨[0x00, 0xa1, 0x61, 0x61, 0x00, 0xff, 0x04],
      [0x00, 0xa1, 0x61, 0x61, 0x00, 0xff, 0x04, 0xa1, 0x61, 0x61, 0x01, 0x00, 0x04],
      Except.eq_ok_of_toOption (by decide +kernel), Except.eq_ok_of_toOption (by decide +kernel),
      ?_, ?_⟩, Except.eq_ok_of_toOption (by decide +kernel)⟩
  · rwa [hsplit]
  · rwa [hsplit']

end Attest.Matching
