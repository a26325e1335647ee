import Attest.Build.Forge
import Attest.Build.Solc
import Attest.Proofs.ProjectFlaws

/-! # Compiler output that cannot be used

What a compiler leaves is gathered by contract. Whatever it is, it can be gathered unless one artifact,
or one part of the output, is of an unforeseen shape. -/

namespace Attest.Build

open Except

/-! ### Artifacts in files -/

namespace Forge

/-- An artifact with a target that is no object, or with metadata in which no target can be
looked for. -/
inductive FlawedTarget (artifact : Document) : Prop
  | settings {metadata : Document} (hmetadata : artifact.at? ["metadata"] = some metadata)
      (hobject : metadata.opens [] = true) (h : metadata.opens ["settings"] = false)
  | target {target : Document}
      (htarget : artifact.at? ["metadata", "settings", "compilationTarget"] = some target)
      (hgiven : target.isGiven = true) (h : target.opens [] = false)

/-- An artifact that no entry is made of. -/
inductive FlawedArtifact (artifact : Document) : Prop
  | part {part : String} (hpart : part ∈ ["bytecode", "deployedBytecode"])
      (h : artifact.opens [part] = false)
  | target (h : FlawedTarget artifact)

/-- A file that is not skipped, and that cannot be read or holds a flawed artifact. -/
inductive FlawedFile (t : Tree) (path : Path) : Prop
  | directory (h : t.text? path = none)
  | tooDeep {s activity : String} (htext : t.text? path = some s)
      (h : Json.read s = .error (.tooDeep activity))
  | artifact {s : String} {artifact : Document} (htext : t.text? path = some s)
      (hread : Json.read s = .ok (.ok artifact)) (hbytecode : (artifact.at? ["bytecode"]).isSome = true)
      (h : FlawedArtifact artifact)

variable {ms : Members} {bytecode : Document} {t : Tree} {project path : Path}

theorem fails_entryOf_iff (h : Members.get? ms "bytecode" = some bytecode) :
    (entryOf ms bytecode).Fails ↔
      ∃ part ∈ ["bytecode", "deployedBytecode"], (Document.object ms).opens [part] = false := by
  refine (fails_bind_iff_of_forall fun _ => fails_bind_iff_of_forall fun _ =>
    fails_bind_pure_iff).trans ?_
  rw [Document.fails_get_iff, Document.fails_get_iff, Document.fails_get_iff, or_self]
  simp [Document.opens, h, noMembers]

theorem fails_keysOf_iff {target : Document} :
    (keysOf project path target).Fails ↔ target.isGiven = true ∧ target.opens [] = false := by
  unfold keysOf
  split
  · rename_i hgiven
    exact fails_bind_pure_iff.trans (Document.fails_members_iff.trans (and_iff_right hgiven).symm)
  · rename_i hgiven
    exact iff_of_false (not_fails_ok _) fun h => hgiven h.1

/-- The keys under a target that is looked for in an object. -/
theorem fails_keysUnder_iff {d : Document} {name : String} :
    (d.get name noMembers >>= keysOf project path).Fails ↔ d.opens [] = false ∨
      ∃ target, d.at? [name] = some target ∧ target.isGiven = true ∧ target.opens [] = false := by
  cases hopens : d.opens [] with
  | false =>
    exact iff_of_true (fails_bind_iff.mpr (.inl (Document.fails_get_iff.mpr hopens))) (.inl rfl)
  | true =>
    rw [Document.get_eq_ok hopens, ok_bind, fails_keysOf_iff,
      Document.getD_iff (P := fun d => d.isGiven = true ∧ d.opens [] = false) (by decide)]
    simp

theorem target_eq {inner : Members} (h : Members.get? ms "metadata" = some (.object inner)) :
    target ms = ((Members.get? inner "settings").getD noMembers).get "compilationTarget" noMembers := by
  unfold target
  rw [h]
  cases inner with
  | nil => rfl
  | cons m inner => rfl

theorem target_of_no_object (h : ∀ inner, Members.get? ms "metadata" ≠ some (.object inner)) :
    target ms = .ok noMembers := by
  unfold target
  cases hmetadata : Members.get? ms "metadata" with
  | none => rfl
  | some metadata =>
    cases metadata with
    | object inner => exact absurd hmetadata (h inner)
    | _ =>
      dsimp only [Option.getD_some]
      generalize Document.isGiven _ = given
      cases given <;> rfl

theorem fails_target_iff :
    (target ms >>= keysOf project path).Fails ↔ FlawedTarget (.object ms) := by
  have hat (names : List String) : (Document.object ms).at? ("metadata" :: names) =
      (Members.get? ms "metadata").bind (·.at? names) := rfl
  by_cases hobject : ∃ inner, Members.get? ms "metadata" = some (.object inner)
  · obtain ⟨inner, hmetadata⟩ := hobject
    have hbelow : (Document.object ms).at? ["metadata", "settings", "compilationTarget"] =
        ((Members.get? inner "settings").getD noMembers).at? ["compilationTarget"] := by
      rw [hat, hmetadata]
      exact Document.at?_of_get (d := .object inner) rfl
    rw [target_eq hmetadata, fails_keysUnder_iff, ← hbelow]
    constructor
    · rintro (h | ⟨target, htarget, hgiven, h⟩)
      · have hinner : (Document.object ms).at? ["metadata"] = some (.object inner) := by
          rw [hat, hmetadata]
          rfl
        exact .settings hinner rfl h
      · exact .target htarget hgiven h
    · rintro (⟨hsome, -, h⟩ | ⟨htarget, hgiven, h⟩)
      · rw [hat, hmetadata] at hsome
        cases hsome
        exact .inl h
      · exact .inr ⟨_, htarget, hgiven, h⟩
  · rw [target_of_no_object fun inner h => hobject ⟨inner, h⟩, ok_bind, fails_keysOf_iff]
    refine iff_of_false (by decide) ?_
    have hnone (name : String) (names : List String) (d : Document) :
        (Document.object ms).at? ("metadata" :: name :: names) ≠ some d := by
      intro h
      obtain ⟨metadata, hmetadata, h⟩ := Option.bind_eq_some_iff.mp h
      cases metadata with
      | object inner => exact hobject ⟨inner, hmetadata⟩
      | _ => cases h
    rintro (⟨hmetadata, hopens, -⟩ | ⟨h, -⟩)
    · obtain ⟨inner, rfl⟩ := Document.exists_eq_object hopens
      obtain ⟨metadata, hget, h⟩ := Option.bind_eq_some_iff.mp hmetadata
      cases h
      exact hobject ⟨inner, hget⟩
    · exact hnone _ _ _ h

section

variable {output : Output}

theorem fails_addArtifact_iff (h : Members.get? ms "bytecode" = some bytecode) :
    (do
      let entry ← entryOf ms bytecode
      let keys ← keysOf project path (← target ms)
      return keys.foldl (fun o k => Members.set o k entry) output : Except Defect Output).Fails ↔
      FlawedArtifact (.object ms) := by
  have hsteps : FlawedArtifact (.object ms) ↔
      (entryOf ms bytecode).Fails ∨ (target ms >>= keysOf project path).Fails := by
    rw [fails_entryOf_iff h, fails_target_iff]
    constructor
    · rintro (⟨hpart, h⟩ | h)
      · exact .inl ⟨_, hpart, h⟩
      · exact .inr h
    · rintro (⟨part, hpart, h⟩ | h)
      · exact .part hpart h
      · exact .target h
  rw [hsteps]
  refine fails_bind_iff_of_forall fun entry => ?_
  rw [← bind_assoc]
  exact fails_bind_pure_iff

/-- What is no artifact is skipped; a text that is nested too deeply is not known to be none. -/
theorem fails_addText_iff {s : String} :
    (do
      match ← Json.read? s with
      | some (.object ms) =>
          match Members.get? ms "bytecode" with
          | none => return output
          | some bytecode =>
              let entry ← entryOf ms bytecode
              let keys ← keysOf project path (← target ms)
              return keys.foldl (fun o k => Members.set o k entry) output
      | _ => return output : Except Defect Output).Fails ↔
      (∃ activity, Json.read s = .error (.tooDeep activity)) ∨
        ∃ artifact, Json.read s = .ok (.ok artifact) ∧ (artifact.at? ["bytecode"]).isSome = true ∧
          FlawedArtifact artifact := by
  cases hread : Json.read s with
  | error d =>
    obtain ⟨activity, rfl⟩ := Json.tooDeep_of_read hread
    rw [Json.read?, hread]
    exact iff_of_true (fails_error _) (.inl ⟨activity, rfl⟩)
  | ok r =>
    rw [Json.read?, hread, ok_bind]
    cases r with
    | error f => exact iff_of_false (not_fails_ok _) (by simp)
    | ok artifact =>
      simp only [reduceCtorEq, exists_false, false_or, Except.ok.injEq, exists_eq_left']
      cases artifact with
      | object ms =>
        change (match Members.get? ms "bytecode" with
          | none => _
          | some bytecode => _ : Except Defect Output).Fails ↔ _
        cases hbytecode : Members.get? ms "bytecode" with
        | none =>
          refine iff_of_false (not_fails_ok _) ?_
          simp [Document.at?, hbytecode]
        | some bytecode =>
          refine (fails_addArtifact_iff hbytecode).trans (and_iff_right ?_).symm
          simp [Document.at?, hbytecode]
      | _ =>
        refine iff_of_false (not_fails_ok _) ?_
        simp [Document.at?]

theorem fails_addFile_iff :
    (addFile t project output path).Fails ↔
      path.contains recordsDirectory = false ∧ FlawedFile t path := by
  unfold addFile
  split
  · rename_i hrecords
    exact iff_of_false (not_fails_ok _) fun h => Bool.noConfusion (hrecords.symm.trans h.1)
  rename_i hrecords
  rw [and_iff_right (Bool.not_eq_true _ ▸ hrecords), fails_bind_iff, Tree.fails_read_iff]
  refine (or_congr_right (exists_congr fun s => and_congr_right fun _ => fails_addText_iff)).trans ?_
  constructor
  · rintro (h | ⟨s, hs, ⟨activity, h⟩ | ⟨artifact, hread, hbytecode, h⟩⟩)
    · exact .directory h
    · exact .tooDeep (Tree.text?_of_read hs) h
    · exact .artifact (Tree.text?_of_read hs) hread hbytecode h
  · rintro (h | ⟨htext, h⟩ | ⟨htext, hread, hbytecode, h⟩)
    · exact .inl h
    · exact .inr ⟨_, Tree.read_eq_ok htext, .inl ⟨_, h⟩⟩
    · exact .inr ⟨_, Tree.read_eq_ok htext, .inr ⟨_, hread, hbytecode, h⟩⟩

end

theorem fails_collect_iff {directory : Path} :
    (collect t project directory).Fails ↔
      ∃ path ∈ t.find directory (Path.hasSuffix ".json"),
        path.contains recordsDirectory = false ∧ FlawedFile t path :=
  fails_foldlM_iff (f := addFile t project) fun _ _ => fails_addFile_iff

end Forge

/-! ### Output of the compiler's own interface -/

namespace Solc

/-- Output that has something other than an object where contracts and sources are looked for, or an
entry that is no table. -/
inductive FlawedOutput (compiled : Document) : Prop
  | contracts (h : compiled.opens ["contracts"] = false)
  | source {contracts : Members} {source : String} {named : Document}
      (hcontracts : compiled.at? ["contracts"] = some (.object contracts))
      (hsource : (source, named) ∈ contracts)
      (h : compiled.opens ["sources", source] = false ∨ named.opens [] = false)
  | entry {contracts named : Members} {source name : String} {entry : Document}
      (hcontracts : compiled.at? ["contracts"] = some (.object contracts))
      (hsource : (source, .object named) ∈ contracts) (hname : (name, entry) ∈ named)
      (h : entry.isTable = false)

theorem fails_addSource_iff {ast : Document} {source : String} {output : Output}
    {m : String × Document} : (addSource ast source output m).Fails ↔ m.2.isTable = false :=
  fails_bind_pure_iff.trans Document.fails_table_iff

/-- Adds the contracts of one source. -/
def addContracts (compiled : Document) (output : Output) (m : String × Document) :
    Except Defect Output := do
  let sources ← compiled.get "sources" (.object [])
  let ast ← (← sources.get m.1 (.object [])).get "ast" .null
  (← m.2.members "items").foldlM (addSource ast m.1) output

theorem collect_eq (compiled : Document) :
    collect compiled = (do (← compiled.get "contracts" (.object [])).members "items") >>=
      fun contracts => contracts.foldlM (addContracts compiled) [] :=
  (bind_assoc _ _ _).symm

theorem fails_addContracts_iff {compiled : Document} {output : Output} {m : String × Document} :
    (addContracts compiled output m).Fails ↔
      compiled.opens ["sources", m.1] = false ∨ m.2.opens [] = false ∨
        ∃ named, m.2 = .object named ∧ ∃ n ∈ named, n.2.isTable = false := by
  have hast : (do
      let sources ← compiled.get "sources" (.object [])
      (← sources.get m.1 (.object [])).get "ast" .null : Except Defect Document).Fails ↔
      compiled.opens ["sources", m.1] = false :=
    Document.fails_get_bind_iff fun _ => Document.fails_get_bind_iff fun _ => Document.fails_get_iff
  have hnamed (ast : Document) : (do
      (← m.2.members "items").foldlM (addSource ast m.1) output : Except Defect Output).Fails ↔
      m.2.opens [] = false ∨ ∃ named, m.2 = .object named ∧ ∃ n ∈ named, n.2.isTable = false := by
    cases m.2 with
    | object named =>
      refine (fails_foldlM_iff (f := addSource ast m.1) fun _ _ => fails_addSource_iff).trans ?_
      simp [Document.opens]
    | _ => exact iff_of_true (fails_error _) (.inl rfl)
  rw [← hast, ← fails_bind_iff_of_forall hnamed, addContracts]
  simp only [bind_assoc]

/-- The contracts that there are by source, in compiler output that has any. -/
theorem contracts_eq_ok_iff {compiled : Document} {m : String × Document} {contracts : Members}
    (hm : m ∈ contracts) :
    (do (← compiled.get "contracts" (.object [])).members "items" : Except Defect Members) =
      .ok contracts ↔ compiled.at? ["contracts"] = some (.object contracts) := by
  cases compiled with
  | object ms =>
    rw [Document.get_eq_ok (d := .object ms) rfl, ok_bind]
    cases (Document.object ms).at? ["contracts"] with
    | none =>
      refine iff_of_false (fun h => ?_) (by simp)
      cases h
      cases hm
    | some d => cases d <;> simp [Document.members]
  | _ => simp [Document.get, Document.members, Document.at?, bind, Except.bind]

theorem fails_collect_iff {compiled : Document} :
    (collect compiled).Fails ↔ FlawedOutput compiled := by
  have hcontracts : (do (← compiled.get "contracts" (.object [])).members "items" :
      Except Defect Members).Fails ↔ compiled.opens ["contracts"] = false :=
    Document.fails_get_bind_iff fun _ => Document.fails_members_iff
  have hsources (contracts : Members) := @fails_foldlM_iff _ _ _ (addContracts compiled) _
    (fun _ _ => fails_addContracts_iff) contracts []
  rw [collect_eq, fails_bind_iff, hcontracts]
  simp only [hsources]
  constructor
  · rintro (h | ⟨contracts, hread, ⟨source, contents⟩, hm, h⟩)
    · exact .contracts h
    have hsome := (contracts_eq_ok_iff hm).mp hread
    rcases h with h | h | ⟨named, rfl, n, hn, h⟩
    · exact .source hsome hm (.inl h)
    · exact .source hsome hm (.inr h)
    · exact .entry hsome hm hn h
  · rintro (h | ⟨hsome, hm, h⟩ | ⟨hsome, hm, hn, h⟩)
    · exact .inl h
    · refine .inr ⟨_, (contracts_eq_ok_iff hm).mpr hsome, _, hm, ?_⟩
      exact h.imp_right .inl
    · exact .inr ⟨_, (contracts_eq_ok_iff hm).mpr hsome, _, hm, .inr (.inr ⟨_, rfl, _, hn, h⟩)⟩

end Solc

end Attest.Build
