import Attest.Matching
import Attest.Proofs.EncodedArguments
import Attest.Proofs.RuntimeMatching

/-! # Verdicts on creation input

Creation input that carries the compiled code, as it is or with another trailer of the same length, is
matched just if the arguments behind it are accepted. Only such input is ever refused. -/

namespace Attest.Matching

open Except
open Trailer (split IsTrailer)

/-- Arguments that pass the check. -/
def WellFormed (args : Bytes) (parameters : Option (List Document)) : Prop :=
  Abi.checkArguments args parameters = .ok ()

/-- Creation input that starts with the compiled code, or with its core and another trailer that is as
long as its own; the verdict that this allows, and the arguments that follow. -/
inductive Carries (compiled : Bytes) : Bytes → Verdict → Bytes → Prop where
  | same {args : Bytes} (hargs : args ≠ []) : Carries compiled (compiled ++ args) .exact args
  | otherTrailer {trailer args : Bytes} (htrailer : IsTrailer trailer)
      (hne : trailer ≠ (split compiled).trailer)
      (hlength : trailer.length = (split compiled).trailer.length) :
      Carries compiled ((split compiled).core ++ trailer ++ args) .upToTrailer args

section

variable {compiled onchain args : Bytes} {parameters : Option (List Document)} {v : Verdict}

/-- Another trailer of the same length ends where the compiled code does. -/
theorem length_core_append {trailer : Bytes}
    (hlength : trailer.length = (split compiled).trailer.length) :
    ((split compiled).core ++ trailer).length = compiled.length := by
  rw [List.length_append, hlength, ← List.length_append, Trailer.split_append]

/-- Input that is longer than the compiled code is divided where that ends. -/
theorem creation_of_length_le (hcompiled : compiled ≠ []) (honchain : onchain ≠ [])
    (hne : compiled ≠ onchain) (hle : compiled.length ≤ onchain.length) :
    creation compiled onchain parameters =
      (if onchain.take compiled.length = compiled then some .exact
        else byCores compiled (onchain.take compiled.length)).elim (.ok .different) fun v =>
          (Abi.checkArguments (onchain.drop compiled.length) parameters).map fun _ => v := by
  have hdo : ∀ (x : Except Obstacle Unit) (v : Verdict),
      (do x; return v) = x.map fun _ => v := by
    intro x v
    cases x <;> rfl
  simp only [creation, divide, List.isEmpty_iff, hcompiled, honchain, hne, Nat.not_lt.mpr hle,
    if_false, hdo]
  by_cases hfront : onchain.take compiled.length = compiled
  · simp only [hfront, if_true]
    rfl
  · simp only [hfront, if_false]
    cases byCores compiled (onchain.take compiled.length) <;> rfl

/-- The verdict on input that carries the code rests with the arguments. -/
theorem Carries.creation_eq (hcompiled : compiled ≠ []) (h : Carries compiled onchain v args) :
    creation compiled onchain parameters =
      (Abi.checkArguments args parameters).map fun _ => v := by
  cases h with
  | same hargs =>
    have hne : compiled ≠ compiled ++ args := by simpa using hargs
    rw [creation_of_length_le hcompiled (by simp [hcompiled]) hne (by simp)]
    simp
  | @otherTrailer trailer args htrailer hother hlength =>
    have hsides := Trailer.split_append compiled
    have hsize := length_core_append hlength
    have hfront : (split compiled).core ++ trailer ≠ compiled := by
      intro heq
      exact hother (List.append_cancel_left (heq.trans hsides.symm))
    have hcores : byCores compiled ((split compiled).core ++ trailer) = some .upToTrailer := by
      rw [byCores_eq_some_iff, Trailer.split_append_of_isTrailer htrailer]
      exact ⟨rfl, by rw [if_neg (Ne.symm hother)]⟩
    have hne : compiled ≠ (split compiled).core ++ trailer ++ args := by
      intro heq
      have hnil : args = [] := by
        have h := congrArg List.length heq
        rw [List.length_append, hsize] at h
        exact List.eq_nil_of_length_eq_zero (by omega)
      rw [hnil, List.append_nil] at heq
      exact hfront heq.symm
    rw [creation_of_length_le hcompiled (by simp [htrailer.ne_nil]) hne
      (by rw [List.length_append, hsize]; exact Nat.le_add_right _ _),
      List.take_left' hsize, List.drop_left' hsize, if_neg hfront, hcores]
    rfl

/-- Input that does not carry the code is different, unless it is the code itself. -/
theorem creation_cases (hcompiled : compiled ≠ []) (honchain : onchain ≠ []) :
    onchain = compiled ∨ (∃ v args, Carries compiled onchain v args) ∨
      creation compiled onchain parameters = .ok .different := by
  by_cases hne : compiled = onchain
  · exact .inl hne.symm
  by_cases hle : compiled.length ≤ onchain.length
  swap
  · have hlt : onchain.length < compiled.length := by omega
    exact .inr (.inr (by simp [creation, hcompiled, honchain, hne, hlt]))
  have hparts := List.take_append_drop compiled.length onchain
  by_cases hfront : onchain.take compiled.length = compiled
  · rw [hfront] at hparts
    have hargs : onchain.drop compiled.length ≠ [] := by
      intro hnil
      rw [hnil, List.append_nil] at hparts
      exact hne hparts
    have hcarries : Carries compiled (compiled ++ onchain.drop compiled.length) .exact _ :=
      .same hargs
    rw [hparts] at hcarries
    exact .inr (.inl ⟨_, _, hcarries⟩)
  cases hcores : byCores compiled (onchain.take compiled.length) with
  | none =>
    refine .inr (.inr ?_)
    rw [creation_of_length_le hcompiled honchain hne hle, if_neg hfront, hcores]
    rfl
  | some v =>
    obtain ⟨hcore, -⟩ := (byCores_eq_some_iff _ _ _).mp hcores
    have hsides := Trailer.split_append compiled
    have hsides' := Trailer.split_append (onchain.take compiled.length)
    rw [← hcore] at hsides'
    have hother : (split (onchain.take compiled.length)).trailer ≠ (split compiled).trailer := by
      intro htrailer
      rw [htrailer, hsides] at hsides'
      exact hfront hsides'.symm
    have hlength : (split (onchain.take compiled.length)).trailer.length =
        (split compiled).trailer.length := by
      have h := congrArg List.length hsides
      have h' := congrArg List.length hsides'
      rw [List.length_append] at h h'
      rw [List.length_take_of_le hle] at h'
      omega
    have htrailer : IsTrailer (split (onchain.take compiled.length)).trailer := by
      obtain ⟨-, hnil⟩ | htrailer := Trailer.split_cases (onchain.take compiled.length)
      · rw [hnil, List.length_nil] at hlength
        exact absurd (hnil.trans (List.eq_nil_of_length_eq_zero hlength.symm).symm) hother
      · exact htrailer
    have hcarries : Carries compiled ((split compiled).core ++
        (split (onchain.take compiled.length)).trailer ++ onchain.drop compiled.length)
        .upToTrailer _ := .otherTrailer htrailer hother hlength
    rw [hsides', hparts] at hcarries
    exact .inr (.inl ⟨_, _, hcarries⟩)

theorem creation_self (honchain : onchain ≠ []) :
    creation onchain onchain parameters = .ok .exact := by
  simp [creation, honchain]

theorem Carries.eq_ok_iff (hcompiled : compiled ≠ []) (h : Carries compiled onchain v args)
    (w : Verdict) :
    creation compiled onchain parameters = .ok w ↔ w = v ∧ WellFormed args parameters := by
  rw [h.creation_eq hcompiled, WellFormed]
  cases Abi.checkArguments args parameters with
  | ok u => simp [Except.map, eq_comm]
  | error e => simp [Except.map]

theorem Carries.refused (hcompiled : compiled ≠ []) (h : Carries compiled onchain v args)
    (hparameters : ∀ ps, parameters = some ps → ∀ p ∈ ps, Abi.IsParameter p)
    (hargs : ¬WellFormed args parameters) :
    ∃ e, creation compiled onchain parameters = .error e ∧ Abi.Refuses parameters e := by
  rw [h.creation_eq hcompiled]
  cases hcheck : Abi.checkArguments args parameters with
  | ok u => exact absurd hcheck hargs
  | error e => exact ⟨e, rfl, Abi.refuses_of_checkArguments hparameters hcheck⟩

theorem of_creation_exact (hcompiled : compiled ≠ []) (honchain : onchain ≠ [])
    (h : creation compiled onchain parameters = .ok .exact) :
    compiled <+: onchain ∧
      (onchain = compiled ∨ WellFormed (onchain.drop compiled.length) parameters) := by
  obtain rfl | ⟨v, args, hcarries⟩ | hdifferent := creation_cases hcompiled honchain
  · exact ⟨List.prefix_rfl, .inl rfl⟩
  · obtain ⟨rfl, hargs⟩ := (hcarries.eq_ok_iff hcompiled _).mp h
    cases hcarries with
    | same _ => exact ⟨List.prefix_append _ _, .inr (by rwa [List.drop_left])⟩
  · cases hdifferent.symm.trans h

theorem of_creation_upToTrailer (hcompiled : compiled ≠ []) (honchain : onchain ≠ [])
    (h : creation compiled onchain parameters = .ok .upToTrailer) :
    compiled.length ≤ onchain.length ∧
      (split (onchain.take compiled.length)).core = (split compiled).core ∧
      (split (onchain.take compiled.length)).trailer ≠ (split compiled).trailer ∧
      (split (onchain.take compiled.length)).trailer.length = (split compiled).trailer.length ∧
      WellFormed (onchain.drop compiled.length) parameters := by
  obtain rfl | ⟨v, args, hcarries⟩ | hdifferent := creation_cases hcompiled honchain
  · cases (creation_self honchain).symm.trans h
  · obtain ⟨rfl, hargs⟩ := (hcarries.eq_ok_iff hcompiled _).mp h
    cases hcarries with
    | otherTrailer htrailer hother hlength =>
      have hsize := length_core_append hlength
      rw [List.take_left' hsize, List.drop_left' hsize, Trailer.split_append_of_isTrailer htrailer,
        List.length_append, hsize]
      exact ⟨Nat.le_add_right _ _, rfl, hother, hlength, hargs⟩
  · cases hdifferent.symm.trans h

theorem of_creation_error (hcompiled : compiled ≠ []) (honchain : onchain ≠ []) {e : Obstacle}
    (h : creation compiled onchain parameters = .error e) :
    ∃ v args, Carries compiled onchain v args ∧ ¬WellFormed args parameters := by
  obtain rfl | ⟨v, args, hcarries⟩ | hdifferent := creation_cases hcompiled honchain
  · cases (creation_self honchain).symm.trans h
  · refine ⟨v, args, hcarries, fun hargs => ?_⟩
    cases ((hcarries.eq_ok_iff hcompiled v).mpr ⟨rfl, hargs⟩).symm.trans h
  · cases hdifferent.symm.trans h

/-- A match on creation input means that the compiled code stands at its start, as it is or up to a
trailer of the same length, and that the arguments behind it are well formed unless there is nothing
behind it. Input that is so composed is matched, or refused for its arguments; no other input is
refused. -/
theorem creation_decides (hcompiled : compiled ≠ []) (honchain : onchain ≠ [])
    (hparameters : ∀ ps, parameters = some ps → ∀ p ∈ ps, Abi.IsParameter p) :
    (creation compiled onchain parameters = .ok .exact →
      compiled <+: onchain ∧
        (onchain = compiled ∨ WellFormed (onchain.drop compiled.length) parameters)) ∧
    (creation compiled onchain parameters = .ok .upToTrailer →
      compiled.length ≤ onchain.length ∧
        (split (onchain.take compiled.length)).core = (split compiled).core ∧
        (split (onchain.take compiled.length)).trailer ≠ (split compiled).trailer ∧
        (split (onchain.take compiled.length)).trailer.length = (split compiled).trailer.length ∧
        (onchain = compiled ∨ WellFormed (onchain.drop compiled.length) parameters)) ∧
    (∀ args, onchain = compiled ++ args →
      (args = [] ∨ WellFormed args parameters →
        creation compiled onchain parameters = .ok .exact) ∧
      (¬(args = [] ∨ WellFormed args parameters) →
        ∃ e, creation compiled onchain parameters = .error e ∧ Abi.Refuses parameters e)) ∧
    (∀ trailer args, IsTrailer trailer → trailer ≠ (split compiled).trailer →
      trailer.length = (split compiled).trailer.length →
      onchain = (split compiled).core ++ trailer ++ args →
      (WellFormed args parameters → creation compiled onchain parameters = .ok .upToTrailer) ∧
      (¬WellFormed args parameters →
        ∃ e, creation compiled onchain parameters = .error e ∧ Abi.Refuses parameters e)) ∧
    (∀ e, creation compiled onchain parameters = .error e → ∃ args, ¬WellFormed args parameters ∧
      (args ≠ [] ∧ onchain = compiled ++ args ∨
        ∃ trailer, IsTrailer trailer ∧ trailer ≠ (split compiled).trailer ∧
          trailer.length = (split compiled).trailer.length ∧
          onchain = (split compiled).core ++ trailer ++ args)) := by
  refine ⟨of_creation_exact hcompiled honchain, fun h => ?_, fun args hargs => ?_,
    fun trailer args ht hne hlength hargs => ?_, fun e h => ?_⟩
  · obtain ⟨hle, hcore, hother, hlength, hargs⟩ := of_creation_upToTrailer hcompiled honchain h
    exact ⟨hle, hcore, hother, hlength, .inr hargs⟩
  · by_cases hnil : args = []
    · rw [hargs, hnil, List.append_nil]
      exact ⟨fun _ => creation_self hcompiled, fun h => absurd (.inl rfl) h⟩
    · have hcarries : Carries compiled onchain .exact args := hargs ▸ .same hnil
      constructor
      · rintro (h | h)
        · exact absurd h hnil
        · exact (hcarries.eq_ok_iff hcompiled _).mpr ⟨rfl, h⟩
      · intro h
        exact hcarries.refused hcompiled hparameters fun hwell => h (.inr hwell)
  · have hcarries : Carries compiled onchain .upToTrailer args :=
      hargs ▸ .otherTrailer ht hne hlength
    constructor
    · intro h
      exact (hcarries.eq_ok_iff hcompiled _).mpr ⟨rfl, h⟩
    · exact hcarries.refused hcompiled hparameters
  · obtain ⟨v, args, hcarries, hargs⟩ := of_creation_error hcompiled honchain h
    refine ⟨args, hargs, ?_⟩
    cases hcarries with
    | same hne => exact .inl ⟨hne, rfl⟩
    | otherTrailer ht hne hlength => exact .inr ⟨_, ht, hne, hlength, rfl⟩

end

/-- A constructor that takes one number, deployed with another trailer. -/
theorem creation_decides_otherTrailer :
    creation [0x60, 0x00, 0xa1, 0x61, 0x61, 0x01, 0x00, 0x04]
        ([0x60, 0x00] ++ [0xa1, 0x61, 0x61, 0x02, 0x00, 0x04] ++ Abi.word 7)
        (some [.object [("type", .text "uint256")]]) = .ok .upToTrailer := by
  have hsplit : split [0x60, 0x00, 0xa1, 0x61, 0x61, 0x01, 0x00, 0x04] =
      ⟨[0x60, 0x00], [0xa1, 0x61, 0x61, 0x01, 0x00, 0x04]⟩ := by decide +kernel
  have htrailer : IsTrailer [0xa1, 0x61, 0x61, 0x02, 0x00, 0x04] :=
    ((Trailer.start?_eq_some_iff _ 0).mp (by decide +kernel)).2
  have hparameters : ∀ ps, some [Document.object [("type", .text "uint256")]] = some ps →
      ∀ p ∈ ps, Abi.IsParameter p := by
    rintro ps ⟨rfl⟩ p hp
    obtain rfl := List.mem_singleton.mp hp
    exact .plain rfl rfl
  have hargs : WellFormed (Abi.word 7) (some [.object [("type", .text "uint256")]]) :=
    Except.eq_ok_of_toOption (by decide +kernel)
  exact ((creation_decides (by simp) (by simp) hparameters).2.2.2.1 _ _ htrailer
    (by simp [hsplit]) (by simp [hsplit]) (by rw [hsplit])).1 hargs

/-- A parameter in 2000 arrays of one item breaks the comparison with input that is made of the compiled
code and one word. -/
theorem deep_parameter_breaks_creation :
    Abi.IsParameter (Abi.Ty.inArrays 2000).declaration ∧
      creation [0x60] ([0x60] ++ Abi.word 7) (some [(Abi.Ty.inArrays 2000).declaration]) =
        .error (.defect (.tooDeep Abi.Shape.nestingActivity)) := by
  have hcarries : Carries [0x60] ([0x60] ++ Abi.word 7) .exact (Abi.word 7) :=
    .same (by decide)
  have hsize : (Abi.Ty.inArrays 2000).largestSize < Numeral.writableBound :=
    Nat.lt_of_le_of_lt (Abi.Ty.largestSize_inArrays 2000) (by decide +kernel)
  have hdepth : Nesting.room < (Abi.Ty.inArrays 2000).shape.depth := by
    rw [Abi.Ty.depth_inArrays]
    decide
  have hcheck := Abi.checkArguments_of_tooDeep (Abi.Ty.declares_declaration _) hsize
    (Abi.Ty.isDynamic_inArrays 2000) hdepth [] (Abi.word 7) (by decide)
  constructor
  · apply Abi.IsParameter.plain
    · rfl
    · rw [Abi.Ty.components_inArrays]
      rfl
  · rw [hcarries.creation_eq (by simp), hcheck]
    rfl

end Attest.Matching
