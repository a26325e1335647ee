import Attest.Project.Profile
import Attest.Proofs.EntryFlaws

/-! # Projects that cannot be built

The settings of a build come from a project's configuration. They are found, or a fault is reported,
unless the configuration cannot be read or has something of an unforeseen shape. -/

namespace Attest.Project

open Build Except

/-- A configuration that is at a limit of reading. -/
inductive Unreadable (t : Tree) : Prop
  | limit {s : String} {d : Defect} (hfile : t.file? configFile = some s)
      (hread : Toml.read s = .error (.defect d)) (h : Toml.Breakdown d)

/-- A configuration without settings for a profile, for a reason that no fault is made of. -/
inductive FlawedProfile (config name : Document) : Prop
  /-- The profiles are no table. -/
  | profiles (h : config.opens ["profile"] = false)
  /-- The name is a list or an object. -/
  | name (h : name.isNested = true)
  /-- The profile, or the one that it is laid over, is no table. -/
  | profile {key : String} {profile : Document} (hkey : key ∈ [defaultProfile, name.plain])
      (hprofile : config.at? ["profile", key] = some profile) (h : profile.isTable = false)

/-- Settings that a compiler cannot be given. -/
inductive FlawedSettings (settings : Members) : Prop
  | runs {d : Document} (hruns : Members.get? settings "optimizer_runs" = some d)
      (h : d.isIntegral = false)
  | remappings {d : Document} (hremappings : Members.get? settings "remappings" = some d)
      (h : d.isAtomic = true)

theorem readConfig_ends (t : Tree) : Ends (Unreadable t) (readConfig t) := by
  unfold readConfig
  split
  · rename_i hnone
    refine .result ?_
    rintro ⟨hfile, -⟩
    cases hnone.symm.trans hfile
  · rename_i s hfile
    cases hread : Toml.read s with
    | ok d =>
      refine .result ?_
      rintro ⟨hfile', hread', -⟩
      cases hfile.symm.trans hfile'
      cases hread.symm.trans hread'
    | error r =>
      cases r with
      | malformed => exact .fault _
      | defect d => exact .defect (.limit hfile hread (Toml.bounded_read s d hread))

theorem opens_of_readConfig {t : Tree} {config : Document} (h : readConfig t = .ok (some config)) :
    config.opens [] = true := by
  unfold readConfig at h
  split at h
  · cases h
  · rename_i s hfile
    cases hread : Toml.read s with
    | ok d =>
      rw [hread] at h
      cases h
      obtain ⟨ms, rfl⟩ := Toml.exists_members_of_read hread
      rfl
    | error r =>
      rw [hread] at h
      cases r <;> cases h

variable {config name profiles : Document}

theorem profilesOf_eq (h : config.opens [] = true) :
    profilesOf config = config.get "profile" (.object []) := by
  obtain ⟨ms, rfl⟩ := Document.exists_eq_object h
  cases ms with
  | nil => rfl
  | cons m ms => rfl

/-- Whether a name is among the profiles of a table can be told unless it is no name. -/
theorem fails_holds_iff (h : profiles.opens [] = true) :
    (profiles.holds name).Fails ↔ name.isNested = true := by
  obtain ⟨ms, rfl⟩ := Document.exists_eq_object h
  cases name with
  | text s => exact iff_of_false (not_fails_ok _) (by simp [Document.isNested])
  | _ => exact fails_bind_pure_iff.trans Document.fails_asKey_iff

theorem not_fails_namesIn (ms : Members) : ¬(namesIn (ms.map fun m => .text m.1)).Fails := by
  induction ms with
  | nil => exact not_fails_ok _
  | cons m ms ih => exact fun h => ih (fails_bind_pure_iff.mp h)

theorem fails_knownProfiles (h : (knownProfiles profiles).Fails) : profiles.opens [] = false := by
  cases profiles with
  | object ms => exact absurd (fails_bind_pure_iff.mp h) (not_fails_namesIn ms)
  | _ => rfl

/-- The settings of one profile. -/
theorem fails_profile_iff {key : String} :
    (do (← profiles.get key (.object [])).table : Except Defect Members).Fails ↔
      profiles.opens [] = false ∨ ∃ p, profiles.at? [key] = some p ∧ p.isTable = false := by
  cases profiles with
  | object ms =>
    refine Document.fails_table_iff.trans ?_
    refine (Document.getD_iff (P := fun d => d.isTable = false) (by simp [Document.isTable])).trans ?_
    simp [Document.at?, Document.opens]
  | _ => simp [Document.get, Document.members, Document.opens, bind, Except.bind]

/-- The settings of a profile over those of the default one. -/
theorem layered_ends (hget : config.get "profile" (.object []) = .ok profiles)
    (hname : profiles.opens [] = true → name.isNested = false) :
    Ends (FlawedProfile config name) (do
      let base ← lift (do (← profiles.get defaultProfile (.object [])).table)
      let own ← lift (do (← profiles.get name.plain (.object [])).table)
      return Members.union base own) := by
  have hflawed {key : String} (hkey : key ∈ [defaultProfile, name.plain])
      (h : (do (← profiles.get key (.object [])).table : Except Defect Members).Fails) :
      FlawedProfile config name := by
    rcases fails_profile_iff.mp h with h | ⟨p, hp, h⟩
    · exact .profiles ((Document.opens_of_get hget).trans h)
    · exact .profile hkey ((Document.at?_of_get hget).trans hp) h
  refine .lift_bind (hflawed (by simp)) fun base hbase => ?_
  refine .lift_bind (hflawed (by simp)) fun own hown => .result ?_
  have hread : ∀ key ∈ [defaultProfile, name.plain],
      ¬(profiles.opens [] = false ∨ ∃ p, profiles.at? [key] = some p ∧ p.isTable = false) :=
    List.forall_mem_cons.mpr ⟨fun h => not_fails_of_eq_ok hbase (fails_profile_iff.mpr h),
      List.forall_mem_singleton.mpr fun h => not_fails_of_eq_ok hown (fails_profile_iff.mpr h)⟩
  rintro (h | h | ⟨hkey, hprofile, h⟩)
  · exact hread defaultProfile (by simp) (.inl ((Document.opens_of_get hget).symm.trans h))
  · cases hopens : profiles.opens [] with
    | true => exact Bool.noConfusion ((hname hopens).symm.trans h)
    | false => exact hread defaultProfile (by simp) (.inl hopens)
  · exact hread _ hkey (.inr ⟨_, (Document.at?_of_get hget).symm.trans hprofile, h⟩)

theorem resolveProfile_ends (hconfig : config.opens [] = true) (name : Document) :
    Ends (FlawedProfile config name) (resolveProfile config name) := by
  rw [resolveProfile, profilesOf_eq hconfig]
  refine .lift_bind (fun h => ?_) fun profiles hget => ?_
  · exact absurd (Document.fails_get_iff.mp h) (by simp [hconfig])
  have hprofiles (h : profiles.opens [] = false) : FlawedProfile config name :=
    .profiles ((Document.opens_of_get hget).trans h)
  split
  · refine .lift_bind (fun h => ?_) fun known hholds => ?_
    · cases hopens : profiles.opens [] with
      | true => exact .name ((fails_holds_iff hopens).mp h)
      | false => exact hprofiles hopens
    split
    · refine .lift_bind (fun h => hprofiles (fails_knownProfiles h)) fun names hnames => ?_
      exact .fault _
    · refine layered_ends hget fun hopens => ?_
      rw [← Bool.not_eq_true, ← fails_holds_iff hopens]
      exact not_fails_of_eq_ok hholds
  · rename_i hdefault
    refine layered_ends hget fun _ => ?_
    cases name with
    | text s => rfl
    | _ => exact absurd rfl hdefault

theorem fails_compilerSettings_iff {t : Tree} {settings : Members} :
    (compilerSettings t settings).Fails ↔ FlawedSettings settings := by
  have hremappings : (remappings t settings).Fails ↔
      ((Members.get? settings "remappings").getD (.list [])).isAtomic = true := by
    rw [remappings, ← Document.fails_elements_iff]
    cases t.text? remappingsFile with
    | none => exact fails_bind_pure_iff
    | some s => exact fails_bind_pure_iff
  rw [compilerSettings, fails_bind_iff_of_forall fun _ => fails_bind_pure_iff, hremappings,
    Document.fails_integer_iff, setting,
    Document.getD_iff (P := fun d => d.isIntegral = false) (by simp [Document.isIntegral]),
    Document.getD_iff (P := fun d => d.isAtomic = true) (by simp [Document.isAtomic])]
  constructor
  · rintro (⟨d, hruns, h⟩ | ⟨d, hremappings, h⟩)
    · exact .runs hruns h
    · exact .remappings hremappings h
  · rintro (⟨hruns, h⟩ | ⟨hremappings, h⟩)
    · exact .inl ⟨_, hruns, h⟩
    · exact .inr ⟨_, hremappings, h⟩

end Attest.Project
