import Attest.Matching
import Attest.Proofs.Masking
import Attest.Proofs.TrailerSplit

/-! What verdicts on runtime code mean. A match tells where the two codes can differ at all, and code
that differs nowhere else is always matched. -/

namespace Attest.Matching

open Trailer (split IsTrailer)

/-! ### One comparison -/

/-- Two codes that are the same up to some point, from which on each of them is its trailer. -/
structure SameUpTo (n : Nat) (a b : Bytes) : Prop where
  le_left : n ≤ a.length
  le_right : n ≤ b.length
  common : a.take n = b.take n
  left : a.drop n = (split a).trailer
  right : b.drop n = (split b).trailer

theorem SameUpTo.getElem?_eq {n : Nat} {a b : Bytes} (h : SameUpTo n a b) {i : Nat} (hi : i < n) :
    a[i]? = b[i]? := by
  rw [← List.getElem?_take_of_lt hi, h.common, List.getElem?_take_of_lt hi]

theorem SameUpTo.left_cases {n : Nat} {a b : Bytes} (h : SameUpTo n a b) :
    a.drop n = [] ∨ IsTrailer (a.drop n) := by
  rw [h.left]
  exact (Trailer.split_cases a).imp_left And.right

theorem SameUpTo.right_cases {n : Nat} {a b : Bytes} (h : SameUpTo n a b) :
    b.drop n = [] ∨ IsTrailer (b.drop n) := by
  rw [h.right]
  exact (Trailer.split_cases b).imp_left And.right

theorem byCores_eq_some_iff (a b : Bytes) (v : Verdict) :
    byCores a b = some v ↔ (split a).core = (split b).core ∧
      v = if (split a).trailer = (split b).trailer then .exact else .upToTrailer := by
  unfold byCores
  by_cases h : (split a).core = (split b).core <;> simp [h, eq_comm]

theorem eq_of_byCores_exact {a b : Bytes} (h : byCores a b = some .exact) : a = b := by
  obtain ⟨hcore, hv⟩ := (byCores_eq_some_iff a b _).mp h
  have htrailer : (split a).trailer = (split b).trailer := by
    by_contra hne
    simp [hne] at hv
  rw [← Trailer.split_append a, ← Trailer.split_append b, hcore, htrailer]

theorem sameUpTo_of_byCores {a b : Bytes} (h : byCores a b = some .upToTrailer) :
    ∃ n, SameUpTo n a b ∧ a.drop n ≠ b.drop n := by
  obtain ⟨hcore, hv⟩ := (byCores_eq_some_iff a b _).mp h
  have htrailer : (split a).trailer ≠ (split b).trailer := by
    intro heq
    simp [heq] at hv
  refine ⟨(split a).core.length,
    ⟨Trailer.core_length_le a, hcore ▸ Trailer.core_length_le b, ?_,
      Trailer.drop_core_length a, ?_⟩, ?_⟩
  · rw [Trailer.take_core_length, hcore, Trailer.take_core_length]
  · rw [hcore, Trailer.drop_core_length]
  · rw [Trailer.drop_core_length, hcore, Trailer.drop_core_length]
    exact htrailer

/-! ### All tiers -/

/-- How a verdict on two codes comes about: they are compared as they are, or both masked. -/
inductive Compared (compiled onchain : Bytes) (immutables : List Immutable) : Verdict → Prop where
  | same : compiled = onchain → Compared compiled onchain immutables .exact
  | cores {v} : byCores compiled onchain = some v → Compared compiled onchain immutables v
  | sameMasked {a} : Immutable.maskAll compiled immutables = .ok a →
      Immutable.maskAll onchain immutables = .ok a → Compared compiled onchain immutables .exact
  | coresMasked {a b v} : Immutable.maskAll compiled immutables = .ok a →
      Immutable.maskAll onchain immutables = .ok b → byCores a b = some v →
      Compared compiled onchain immutables v

theorem compared_of_runtime {compiled onchain : Bytes} {immutables : List Immutable} {v : Verdict}
    (h : runtime compiled onchain immutables = .ok v) (hv : v.isMatch) :
    Compared compiled onchain immutables v := by
  have hne : ∀ w : Verdict, (Except.ok w : Except Obstacle Verdict) = .ok v → w.isMatch := by
    rintro w h
    exact Except.ok.inj h ▸ hv
  unfold runtime at h
  split at h
  · exact absurd (hne _ h) (by decide)
  split at h
  · exact absurd (hne _ h) (by decide)
  split at h
  · rename_i heq
    exact Except.ok.inj h ▸ .same heq
  split at h
  · rename_i hcores
    exact Except.ok.inj h ▸ .cores hcores
  split at h
  · exact absurd (hne _ h) (by decide)
  obtain ⟨a, ha, h⟩ := Except.bind_eq_ok_iff.mp h
  obtain ⟨b, hb, h⟩ := Except.bind_eq_ok_iff.mp h
  split at h
  · rename_i hab
    exact Except.ok.inj h ▸ .sameMasked ha (hab ▸ hb)
  · cases hcores : byCores a b with
    | none =>
        rw [hcores] at h
        exact absurd (hne _ h) (by decide)
    | some w =>
        rw [hcores] at h
        exact Except.ok.inj h ▸ .coresMasked ha hb hcores

/-- Code that agrees once it is masked agrees wherever nothing is covered. -/
theorem getElem?_eq_of_masked {compiled onchain a b : Bytes} {immutables : List Immutable}
    (ha : Immutable.maskAll compiled immutables = .ok a)
    (hb : Immutable.maskAll onchain immutables = .ok b) {i : Nat} (hab : a[i]? = b[i]?)
    (hi : ¬ Immutable.Covered immutables i) : compiled[i]? = onchain[i]? := by
  have hma := ((Immutable.maskAll_eq_ok_iff _ _ _).mp ha).2
  have hmb := ((Immutable.maskAll_eq_ok_iff _ _ _).mp hb).2
  rw [← hma.kept i hi, hab, hmb.kept i hi]

theorem alike_of_masked {compiled onchain a : Bytes} {immutables : List Immutable}
    (ha : Immutable.maskAll compiled immutables = .ok a)
    (hb : Immutable.maskAll onchain immutables = .ok a) :
    compiled.length = onchain.length ∧
      ∀ i, compiled[i]? ≠ onchain[i]? → Immutable.Covered immutables i := by
  have hma := ((Immutable.maskAll_eq_ok_iff _ _ _).mp ha).2
  have hmb := ((Immutable.maskAll_eq_ok_iff _ _ _).mp hb).2
  refine ⟨hma.length_eq.symm.trans hmb.length_eq, fun i hi => ?_⟩
  by_contra hcovered
  exact hi (getElem?_eq_of_masked ha hb rfl hcovered)

/-- No match is false. Codes that match exactly have one length and differ only where immutables are;
codes that match up to their trailers are the same before them, as they are or both masked, and there
too they differ only where immutables are. -/
theorem runtime_match_sound {compiled onchain : Bytes} {immutables : List Immutable} {v : Verdict}
    (h : runtime compiled onchain immutables = .ok v) :
    (v = .exact → compiled.length = onchain.length ∧
      ∀ i, compiled[i]? ≠ onchain[i]? → Immutable.Covered immutables i) ∧
    (v = .upToTrailer → ∃ a b n,
      (a = compiled ∧ b = onchain ∨
        Immutable.maskAll compiled immutables = .ok a ∧
          Immutable.maskAll onchain immutables = .ok b) ∧
      SameUpTo n a b ∧ a.drop n ≠ b.drop n ∧
      (a.drop n = [] ∨ IsTrailer (a.drop n)) ∧ (b.drop n = [] ∨ IsTrailer (b.drop n)) ∧
      ∀ i < n, ¬ Immutable.Covered immutables i → compiled[i]? = onchain[i]?) := by
  constructor
  · rintro rfl
    cases compared_of_runtime h rfl with
    | same heq => exact ⟨congrArg List.length heq, fun i hi => absurd (by rw [heq]) hi⟩
    | cores hcores =>
        have heq := eq_of_byCores_exact hcores
        exact ⟨congrArg List.length heq, fun i hi => absurd (by rw [heq]) hi⟩
    | sameMasked ha hb => exact alike_of_masked ha hb
    | coresMasked ha hb hcores =>
        obtain rfl := eq_of_byCores_exact hcores
        exact alike_of_masked ha hb
  · rintro rfl
    cases compared_of_runtime h rfl with
    | cores hcores =>
        obtain ⟨n, hsame, hne⟩ := sameUpTo_of_byCores hcores
        exact ⟨compiled, onchain, n, .inl ⟨rfl, rfl⟩, hsame, hne, hsame.left_cases,
          hsame.right_cases, fun i hi _ => hsame.getElem?_eq hi⟩
    | coresMasked ha hb hcores =>
        obtain ⟨n, hsame, hne⟩ := sameUpTo_of_byCores hcores
        exact ⟨_, _, n, .inr ⟨ha, hb⟩, hsame, hne, hsame.left_cases, hsame.right_cases,
          fun i hi hcovered => getElem?_eq_of_masked ha hb (hsame.getElem?_eq hi) hcovered⟩

theorem runtime_match_sound_masked :
    runtime [0x60, 0x00, 0xa1, 0x61, 0x61, 0x01, 0x00, 0x04]
        [0x60, 0x07, 0xa1, 0x61, 0x61, 0x02, 0x00, 0x04] [⟨.text "x", [.span 1 1]⟩] =
      .ok .upToTrailer ∧
    ∃ a b n,
      (a = [0x60, 0x00, 0xa1, 0x61, 0x61, 0x01, 0x00, 0x04] ∧
          b = [0x60, 0x07, 0xa1, 0x61, 0x61, 0x02, 0x00, 0x04] ∨
        Immutable.maskAll [0x60, 0x00, 0xa1, 0x61, 0x61, 0x01, 0x00, 0x04]
            [⟨.text "x", [.span 1 1]⟩] = .ok a ∧
          Immutable.maskAll [0x60, 0x07, 0xa1, 0x61, 0x61, 0x02, 0x00, 0x04]
            [⟨.text "x", [.span 1 1]⟩] = .ok b) ∧
      SameUpTo n a b ∧ a.drop n ≠ b.drop n := by
  have h : runtime [0x60, 0x00, 0xa1, 0x61, 0x61, 0x01, 0x00, 0x04]
      [0x60, 0x07, 0xa1, 0x61, 0x61, 0x02, 0x00, 0x04] [⟨.text "x", [.span 1 1]⟩] =
      .ok .upToTrailer := Except.eq_ok_of_toOption (by decide +kernel)
  obtain ⟨a, b, n, hfrom, hsame, hne, -⟩ := (runtime_match_sound h).2 rfl
  exact ⟨h, a, b, n, hfrom, hsame, hne⟩

/-! ### Completeness -/

/-- Masking what lies in the core leaves the rest of the code alone. -/
theorem maskAll_append {core masked : Bytes} {immutables : List Immutable}
    (hplaces : Immutable.LieIn immutables core.length)
    (hmask : IsMask (Immutable.Covered immutables) core masked) (rest : Bytes) :
    Immutable.maskAll (core ++ rest) immutables = .ok (masked ++ rest) := by
  refine (Immutable.maskAll_eq_ok_iff _ _ _).mpr ⟨hplaces.mono (by simp), ?_⟩
  exact hmask.append (fun i hi => hi.lt_size hplaces) rest

/-- The last tiers decide when the earlier ones do not. -/
theorem runtime_of_masked {compiled onchain a b : Bytes} {immutables : List Immutable}
    (hcompiled : compiled ≠ []) (honchain : onchain ≠ []) (hne : compiled ≠ onchain)
    (hcores : byCores compiled onchain = none) (himmutables : immutables ≠ [])
    (ha : Immutable.maskAll compiled immutables = .ok a)
    (hb : Immutable.maskAll onchain immutables = .ok b) :
    runtime compiled onchain immutables =
      .ok (if a = b then .exact else (byCores a b).getD .different) := by
  have h : runtime compiled onchain immutables = (do
      let a ← Immutable.maskAll compiled immutables
      let b ← Immutable.maskAll onchain immutables
      if a = b then return .exact else return (byCores a b).getD .different) := by
    simp [runtime, hcompiled, honchain, hne, hcores, himmutables]
  rw [h, ha, hb]
  by_cases hab : a = b <;> simp [hab, bind, Except.bind, pure, Except.pure]

/-- Codes with the same core are told apart by their trailers. -/
theorem verdict_append {core t t' : Bytes} (h : t = [] ∧ t' = [] ∨ IsTrailer t ∧ IsTrailer t') :
    (if core ++ t = core ++ t' then Verdict.exact
      else (byCores (core ++ t) (core ++ t')).getD .different) =
      if t = t' then .exact else .upToTrailer := by
  by_cases htt : t = t'
  · simp [htt]
  · obtain ⟨rfl, rfl⟩ | ⟨ht, ht'⟩ := h
    · exact absurd rfl htt
    · simp [htt, byCores, Trailer.split_append_of_isTrailer ht,
        Trailer.split_append_of_isTrailer ht']

/-- Every deployment of the compiled code is recognised: where both codes end in trailers or neither
does, their cores have one length, all immutables lie in the core and the cores agree elsewhere, the
verdict is a match, and an exact one if and only if the trailers are the same. -/
theorem runtime_match_complete {compiled onchain : Bytes} {immutables : List Immutable}
    (honchain : onchain ≠ [])
    (htrailers : (split compiled).trailer = [] ↔ (split onchain).trailer = [])
    (hlength : (split compiled).core.length = (split onchain).core.length)
    (hplaces : Immutable.LieIn immutables (split compiled).core.length)
    (hagree : ∀ i, ¬ Immutable.Covered immutables i →
      (split compiled).core[i]? = (split onchain).core[i]?) :
    runtime compiled onchain immutables =
      .ok (if (split compiled).trailer = (split onchain).trailer then .exact else .upToTrailer) := by
  have hsides := Trailer.split_append compiled
  have hsides' := Trailer.split_append onchain
  have hcompiled : compiled ≠ [] := by
    rintro rfl
    have hcore : (split onchain).core = [] := List.length_eq_zero_iff.mp hlength.symm
    have htrailer : (split onchain).trailer = [] := htrailers.mp (by rfl)
    exact honchain (by rw [← hsides', hcore, htrailer, List.append_nil])
  by_cases hne : compiled = onchain
  · simp [runtime, honchain, hne]
  by_cases hcore : (split compiled).core = (split onchain).core
  · have hcores := (byCores_eq_some_iff compiled onchain _).mpr ⟨hcore, rfl⟩
    simp [runtime, hcompiled, honchain, hne, hcores]
  have hcores : byCores compiled onchain = none := by simp [byCores, hcore]
  have himmutables : immutables ≠ [] := by
    rintro rfl
    exact hcore (List.ext_getElem? fun i => hagree i (by simp [Immutable.Covered]))
  -- Both cores have the same mask, and masking does not reach the trailers.
  obtain ⟨masked, hmask⟩ := IsMask.exists_mask (Immutable.Covered immutables) (split compiled).core
  obtain ⟨masked', hmask'⟩ := IsMask.exists_mask (Immutable.Covered immutables) (split onchain).core
  obtain rfl : masked = masked' := hmask.eq_of_agree hmask' hlength hagree
  have ha := maskAll_append hplaces hmask (split compiled).trailer
  have hb := maskAll_append (hlength ▸ hplaces) hmask' (split onchain).trailer
  rw [hsides] at ha
  rw [hsides'] at hb
  rw [runtime_of_masked hcompiled honchain hne hcores himmutables ha hb, verdict_append]
  obtain ⟨-, htrailer⟩ | htrailer := Trailer.split_cases compiled
  · exact .inl ⟨htrailer, htrailers.mp htrailer⟩
  · refine .inr ⟨htrailer, (Trailer.split_cases onchain).resolve_left fun h => ?_⟩
    exact htrailer.ne_nil (htrailers.mpr h.2)

/-- Two places filled in at deployment, and a trailer that is longer than the compiled one. -/
theorem runtime_match_complete_deployed :
    runtime [0x60, 0x00, 0x00, 0x01, 0xa1, 0x61, 0x61, 0x01, 0x00, 0x04]
      [0x60, 0x07, 0x09, 0x01, 0xa1, 0x61, 0x61, 0x18, 0x20, 0x00, 0x05]
      [⟨.text "x", [.span 1 1]⟩, ⟨.text "y", [.span 2 1, .span 1 2]⟩] = .ok .upToTrailer := by
  have hsplit : split [0x60, 0x00, 0x00, 0x01, 0xa1, 0x61, 0x61, 0x01, 0x00, 0x04] =
      ⟨[0x60, 0x00, 0x00, 0x01], [0xa1, 0x61, 0x61, 0x01, 0x00, 0x04]⟩ := by decide +kernel
  have hsplit' : split [0x60, 0x07, 0x09, 0x01, 0xa1, 0x61, 0x61, 0x18, 0x20, 0x00, 0x05] =
      ⟨[0x60, 0x07, 0x09, 0x01], [0xa1, 0x61, 0x61, 0x18, 0x20, 0x00, 0x05]⟩ := by decide +kernel
  refine (runtime_match_complete (by simp) (by simp [hsplit, hsplit']) (by simp [hsplit, hsplit'])
    ?_ ?_).trans (by simp [hsplit, hsplit'])
  · simp [hsplit, Immutable.LieIn, Range.LiesIn, Range.extent?, Range.Fits]
  · intro i hi
    simp only [hsplit, hsplit']
    rcases i with _ | _ | _ | _ | i
    · rfl
    · exact absurd (by simp [Immutable.Covered, Range.Covers, Range.extent?]) hi
    · exact absurd (by simp [Immutable.Covered, Range.Covers, Range.extent?]) hi
    · rfl
    · simp

end Attest.Matching
