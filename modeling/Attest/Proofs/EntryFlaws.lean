import Attest.Build.Extraction
import Attest.Proofs.DocumentShapes
import Attest.Proofs.ReadingLimits

/-! # Entries that no artifact is made of

The entry of a contract may have any shape. An artifact, or a fault, is made of it unless it is flawed
in one of the ways that are listed here; of a flawed entry no artifact is made. -/

namespace Attest.Build

open Except

/-- How work ends in which something may be flawed: with a result only if nothing is, with a defect
only if something is, and with a fault in either case. -/
inductive Ends (flawed : Prop) : Except Failure α → Prop
  | result {a : α} (h : ¬flawed) : Ends flawed (.ok a)
  | fault (f : Fault) : Ends flawed (.error (.fault f))
  | defect {d : Defect} (h : flawed) : Ends flawed (.error (.defect d))

namespace Ends

variable {F G : Prop}

theorem not_flawed {a : α} (h : Ends F (.ok a)) : ¬F := by
  cases h with
  | result h => exact h

theorem flawed {d : Defect} (h : Ends F (.error (.defect d) : Except Failure α)) : F := by
  cases h with
  | defect h => exact h

theorem congr {x : Except Failure α} (hx : Ends G x) (h : G ↔ F) : Ends F x := by
  rwa [← propext h]

theorem lift_bind {x : Except Defect α} {f : α → Except Failure β} (hflawed : x.Fails → F)
    (hf : ∀ a, x = .ok a → Ends F (f a)) : Ends F (lift x >>= f) := by
  cases x with
  | error d => exact .defect (hflawed (fails_error d))
  | ok a => exact hf a rfl

theorem of_lift {x : Except Defect α} (h : x.Fails ↔ F) : Ends F (lift x) := by
  cases x with
  | error d => exact .defect (h.mp (fails_error d))
  | ok a => exact .result fun hF => not_fails_ok a (h.mpr hF)

end Ends

/-! ### Code -/

/-- The code that an entry holds in one of its parts, or an empty text. -/
def codeAt (entry : Document) (part : String) : Document :=
  givenOr ((entry.at? ["evm", part, "object"]).getD (.text "")) (.text "")

/-- Code that is no text, or that is neither hexadecimal nor marked as unlinked. -/
inductive FlawedCode : Document → Prop
  | kind {code : Document} (h : ∀ s, code ≠ .text s) : FlawedCode code
  | digits {s : String} (hmark : Document.occurs linkMark.toList s.toList = false)
      (h : (Hex.decode s).Fails) : FlawedCode (.text s)

variable {entry evm code : Document}

theorem ne_text_of_isAtomic (h : code.isAtomic = true) (s : String) : code ≠ .text s := by
  rintro rfl
  cases h

theorem fails_codeText_iff {part : String} :
    (codeText evm part).Fails ↔ evm.opens [part] = false :=
  Document.fails_get_bind_iff fun _ => fails_bind_pure_iff.trans Document.fails_get_iff

theorem eq_codeAt_of_codeText {part : String} (hevm : entry.get "evm" (.object []) = .ok evm)
    (h : codeText evm part = .ok code) : code = codeAt entry part := by
  obtain ⟨v, hv, h⟩ := bind_eq_ok_iff.mp h
  obtain ⟨w, hw, h⟩ := bind_eq_ok_iff.mp h
  obtain rfl := Document.eq_of_get hw
  cases h
  rw [codeAt, Document.at?_of_get hevm, Document.at?_of_get hv]

theorem fails_decodeCode_iff (hmark : code.mentions linkMark = .ok false) :
    (decodeCode code).Fails ↔ FlawedCode code := by
  cases code with
  | text s =>
    rw [decodeCode, fails_mapError_iff]
    constructor
    · exact .digits (Except.ok.inj hmark)
    · rintro (h | ⟨-, h⟩)
      · exact absurd rfl (h s)
      · exact h
  | _ => exact ⟨fun _ => .kind (by simp), fun _ => fails_error _⟩

/-! ### Immutable variables -/

/-- Whether an id is ranked as a number. -/
def isNumbered (id : Document) : Bool := Text.isDigits id.plain.toList

/-- Ids that cannot be put in order: digits that are no numeral, or numbers and texts together. -/
inductive Unsortable (ids : List Document) : Prop
  | numeral {id : Document} (hid : id ∈ ids) (hnumbered : isNumbered id = true)
      (h : (Numeral.int? id.plain).isSome = false)
  | mixed {a b : Document} (ha : a ∈ ids) (hb : b ∈ ids) (hnumbered : isNumbered a = true)
      (h : isNumbered b = false)

/-- Whether a report has something under an id. -/
def answers : Document → Document → Bool
  | .object ms, id => (Members.get? ms id.plain).isSome
  | .list xs, id => id.integral?.any fun i => decide (-(xs.length : Int) ≤ i ∧ i < xs.length)
  | _, _ => false

/-- An id of which something is reported that no variable is made of. -/
inductive FlawedVariable (names : Solidity.Names) (references id : Document) : Prop
  | name {name : Document} (hname : Members.get? names id.plain = some name)
      (hgiven : name.isGiven = true) (h : name.isNested = true)
  | unanswered (h : answers references id = false)
  | atomic {d : Document} (hreported : reported references id = .ok d) (h : d.isAtomic = true)
  | range {d x : Document} {xs : List Document} (hreported : reported references id = .ok d)
      (helements : d.elements = .ok xs) (hx : x ∈ xs)
      (h : x.at? ["start"] = none ∨ x.at? ["length"] = none)

/-- A report on immutable variables that cannot be understood. -/
inductive FlawedReferences (names : Solidity.Names) (references : Document) : Prop
  | atomic (h : references.isAtomic = true)
  | unsortable {ids : List Document} (hids : references.elements = .ok ids) (h : Unsortable ids)
  | variable {ids : List Document} {id : Document} (hids : references.elements = .ok ids)
      (hid : id ∈ ids) (h : FlawedVariable names references id)

variable {names : Solidity.Names} {references id : Document} {ids sorted : List Document}

theorem fails_rank_iff :
    (rank id).Fails ↔ isNumbered id = true ∧ (Numeral.int? id.plain).isSome = false := by
  unfold rank isNumbered
  dsimp only
  split
  · rename_i hdigits
    rw [fails_bind_pure_iff, Document.fails_integerIn_iff]
    exact (and_iff_right hdigits).symm
  · rename_i hdigits
    simp [hdigits]

theorem isNumber_of_rank {r : Rank} (h : rank id = .ok r) : r.isNumber = isNumbered id := by
  unfold rank at h
  dsimp only at h
  unfold isNumbered
  split at h
  · rename_i hdigits
    obtain ⟨i, -, h⟩ := bind_eq_ok_iff.mp h
    cases h
    exact hdigits.symm
  · rename_i hdigits
    cases h
    exact (Bool.not_eq_true _ ▸ hdigits : _ = false).symm

/-- Ids that are all ranked are put in order unless there are numbers and texts among them. -/
theorem sortIds_eq {ranks : Document → Rank} (h : ∀ id ∈ ids, rank id = .ok (ranks id)) :
    sortIds ids =
      if ids.any isNumbered && ids.any (!isNumbered ·) then
        .error (.wrongKind "'<' not supported between instances of 'str' and 'int'")
      else
        .ok (((ids.map fun id => (ranks id, id)).mergeSort fun a b => a.1.before b.1).map (·.2)) := by
  have hranked : (ids.mapM fun id => do return (← rank id, id)) =
      .ok (ids.map fun id => (ranks id, id)) := by
    refine mapM_eq_ok fun id hid => ?_
    rw [h id hid]
    rfl
  have hnumbered : ∀ id ∈ ids, (ranks id).isNumber = isNumbered id :=
    fun id hid => isNumber_of_rank (h id hid)
  have hany (q : Bool → Bool) : (ids.any fun id => q (ranks id).isNumber) =
      ids.any fun id => q (isNumbered id) := by
    rw [Bool.eq_iff_iff, List.any_eq_true, List.any_eq_true]
    exact exists_congr fun id => and_congr_right fun hid => by rw [hnumbered id hid]
  have hnumbers : (ids.any fun id => (ranks id).isNumber) = ids.any isNumbered := hany fun b => b
  have htexts : (ids.any fun id => !(ranks id).isNumber) = ids.any (!isNumbered ·) := hany not
  rw [sortIds, hranked]
  simp only [bind, Except.bind, List.any_map, Function.comp_def]
  rw [hnumbers, htexts]
  rfl

theorem exists_ranks (h : ∀ id ∈ ids, ¬(rank id).Fails) :
    ∃ ranks : Document → Rank, ∀ id ∈ ids, rank id = .ok (ranks id) := by
  refine ⟨fun id => (rank id).toOption.getD (.text ""), fun id hid => ?_⟩
  obtain ⟨r, hr⟩ := not_fails_iff.mp (h id hid)
  simp [hr, Except.toOption]

theorem fails_sortIds_iff : (sortIds ids).Fails ↔ Unsortable ids := by
  by_cases hranks : ∃ id ∈ ids, (rank id).Fails
  · obtain ⟨id, hid, hfails⟩ := hranks
    obtain ⟨hnumbered, hnumeral⟩ := fails_rank_iff.mp hfails
    refine iff_of_true ?_ (.numeral hid hnumbered hnumeral)
    refine fails_bind_iff.mpr (.inl (fails_mapM_iff.mpr ⟨id, hid, ?_⟩))
    exact fails_bind_pure_iff.mpr hfails
  · obtain ⟨ranks, hranked⟩ := exists_ranks fun id hid hfails => hranks ⟨id, hid, hfails⟩
    rw [sortIds_eq hranked]
    constructor
    · intro h
      split at h
      · rename_i hmixed
        simp only [Bool.and_eq_true, List.any_eq_true, Bool.not_eq_true'] at hmixed
        obtain ⟨⟨a, ha, hnumbered⟩, b, hb, htext⟩ := hmixed
        exact .mixed ha hb hnumbered htext
      · exact absurd h (not_fails_ok _)
    · rintro (⟨hid, hnumbered, hnumeral⟩ | ⟨ha, hb, hnumbered, htext⟩)
      · exact absurd ⟨_, hid, fails_rank_iff.mpr ⟨hnumbered, hnumeral⟩⟩ hranks
      · rw [if_pos]
        · exact fails_error _
        · simp only [Bool.and_eq_true, List.any_eq_true, Bool.not_eq_true']
          exact ⟨⟨_, ha, hnumbered⟩, _, hb, htext⟩

theorem mem_of_sortIds (h : sortIds ids = .ok sorted) : id ∈ sorted ↔ id ∈ ids := by
  have hranks : ∀ id ∈ ids, ¬(rank id).Fails := fun id hid hfails =>
    not_fails_of_eq_ok h (fails_bind_iff.mpr
      (.inl (fails_mapM_iff.mpr ⟨id, hid, fails_bind_pure_iff.mpr hfails⟩)))
  obtain ⟨ranks, hranked⟩ := exists_ranks hranks
  rw [sortIds_eq hranked] at h
  split at h
  · cases h
  · cases h
    simp

theorem fails_nameOf_iff :
    (nameOf names id).Fails ↔ ∃ name, Members.get? names id.plain = some name ∧
      name.isGiven = true ∧ name.isNested = true := by
  rw [nameOf, Document.fails_asKey_iff, givenOr]
  cases Members.get? names id.plain with
  | none => simp [Document.isGiven, Document.isNested]
  | some name =>
    cases hgiven : name.isGiven with
    | true => simp [hgiven]
    | false => simp [hgiven, Document.isNested]

/-- A place counted from the end is as good as the same place counted from the start. -/
theorem getElem?_place_eq_none_iff {xs : List Document} {i : Int} :
    (if (if i < 0 then (xs.length : Int) + i else i) < 0 then none
      else xs[(if i < 0 then (xs.length : Int) + i else i).toNat]?) = none ↔
      ¬(-(xs.length : Int) ≤ i ∧ i < xs.length) := by
  by_cases hi : i < 0
  · simp only [hi, if_true]
    split
    · exact iff_of_true rfl (by omega)
    · rw [List.getElem?_eq_none_iff]
      omega
  · simp only [hi, if_false]
    rw [List.getElem?_eq_none_iff]
    omega

theorem fails_reported_iff : (reported references id).Fails ↔ answers references id = false := by
  cases references with
  | object ms =>
    rw [reported, answers]
    cases Members.get? ms id.plain <;> simp
  | list xs =>
    rw [reported, answers]
    cases id.integral? with
    | none => simp
    | some i =>
      rw [Option.any_some, decide_eq_false_iff_not, ← getElem?_place_eq_none_iff]
      dsimp only
      split
      · rename_i h
        simp [h]
      · rename_i h
        simp [h]
  | _ => simp [reported, answers]

theorem fails_rangeOf_iff {x : Document} :
    (rangeOf x).Fails ↔ x.at? ["start"] = none ∨ x.at? ["length"] = none := by
  rw [rangeOf, fails_bind_iff_of_forall fun _ => fails_bind_pure_iff, Document.fails_member_iff,
    Document.fails_member_iff]

theorem flawedVariable_iff :
    FlawedVariable names references id ↔ (nameOf names id).Fails ∨
      (reported references id >>= fun d => d.elements >>= fun xs => xs.mapM rangeOf).Fails := by
  have hranges (d : Document) : (d.elements >>= fun xs => xs.mapM rangeOf).Fails ↔
      d.isAtomic = true ∨ ∃ xs, d.elements = .ok xs ∧
        ∃ x ∈ xs, x.at? ["start"] = none ∨ x.at? ["length"] = none := by
    simp only [fails_bind_iff, Document.fails_elements_iff, fails_mapM_iff, fails_rangeOf_iff]
  rw [fails_nameOf_iff, fails_bind_iff, fails_reported_iff]
  simp only [hranges]
  constructor
  · rintro (⟨hname, hgiven, h⟩ | h | ⟨hreported, h⟩ | ⟨hreported, helements, hx, h⟩)
    · exact .inl ⟨_, hname, hgiven, h⟩
    · exact .inr (.inl h)
    · exact .inr (.inr ⟨_, hreported, .inl h⟩)
    · exact .inr (.inr ⟨_, hreported, .inr ⟨_, helements, _, hx, h⟩⟩)
  · rintro (⟨name, hname, hgiven, h⟩ | h | ⟨d, hreported, h | ⟨xs, helements, x, hx, h⟩⟩)
    · exact .name hname hgiven h
    · exact .unanswered h
    · exact .atomic hreported h
    · exact .range hreported helements hx h

theorem fails_immutablesFrom_iff {used : List Document} :
    (immutablesFrom names references used ids).Fails ↔
      ∃ id ∈ ids, FlawedVariable names references id := by
  induction ids generalizing used with
  | nil => simp [immutablesFrom]
  | cons id ids ih =>
    simp only [List.mem_cons, exists_eq_or_imp, flawedVariable_iff] at ih ⊢
    rw [immutablesFrom, or_assoc, fails_bind_iff_of_forall fun name => ?_]
    cases reported references id with
    | error d => simp [bind, Except.bind]
    | ok d =>
      change (d.elements >>= _).Fails ↔ (d.elements >>= _).Fails ∨ _
      cases d.elements with
      | error d => simp [bind, Except.bind]
      | ok xs =>
        change (xs.mapM rangeOf >>= _).Fails ↔ (xs.mapM rangeOf).Fails ∨ _
        exact fails_bind_iff_of_forall fun _ => fails_bind_pure_iff.trans ih

theorem fails_immutablesIn_iff :
    (immutablesIn names references).Fails ↔ FlawedReferences names references := by
  have hsorted (ids : List Document) :
      (sortIds ids >>= immutablesFrom names references []).Fails ↔
        Unsortable ids ∨ ∃ id ∈ ids, FlawedVariable names references id := by
    cases hsort : sortIds ids with
    | error d =>
      exact iff_of_true (fails_error d) (.inl (fails_sortIds_iff.mp ⟨d, hsort⟩))
    | ok sorted =>
      have hsortable : ¬Unsortable ids := fun h => not_fails_of_eq_ok hsort (fails_sortIds_iff.mpr h)
      rw [or_iff_right hsortable]
      refine fails_immutablesFrom_iff.trans (exists_congr fun id => ?_)
      rw [mem_of_sortIds hsort]
  rw [immutablesIn, fails_bind_iff, Document.fails_elements_iff]
  simp only [hsorted]
  constructor
  · rintro (h | ⟨ids, hids, h | ⟨id, hid, h⟩⟩)
    · exact .atomic h
    · exact .unsortable hids h
    · exact .variable hids hid h
  · rintro (h | ⟨hids, h⟩ | ⟨hids, hid, h⟩)
    · exact .inl h
    · exact .inr ⟨_, hids, .inl h⟩
    · exact .inr ⟨_, hids, .inr ⟨_, hid, h⟩⟩

/-! ### Entries -/

/-- Metadata that tells of a compiler what is no object, or is nested too deeply to be read. -/
inductive FlawedMetadata (metadata : Document) : Prop
  | tooDeep {s activity : String} (hmetadata : metadata = .text s)
      (h : Json.read s = .error (.tooDeep activity))
  | spelled {s : String} {d : Document} (hmetadata : metadata = .text s)
      (hread : Json.read s = .ok (.ok d)) (hobject : d.opens [] = true)
      (h : d.opens ["compiler"] = false)
  | object (hobject : metadata.opens [] = true) (h : metadata.opens ["compiler"] = false)

/-- An entry that tells something besides its code that cannot be understood. -/
inductive FlawedFacts (entry : Document) : Prop
  | references {references : Document}
      (hreferences : entry.at? ["evm", "deployedBytecode", "immutableReferences"] = some references)
      (hgiven : references.isGiven = true)
      (h : FlawedReferences (Solidity.declaredNames ((entry.at? ["ast"]).getD .null)) references)
  | interface {abi : Document} (habi : entry.at? ["abi"] = some abi) (hgiven : abi.isGiven = true)
      (h : abi.isAtomic = true)
  | metadata {metadata : Document} (hmetadata : entry.at? ["metadata"] = some metadata)
      (h : FlawedMetadata metadata)

/-- An entry that no artifact is made of, for a reason that no fault is made of either. -/
inductive FlawedEntry (entry : Document) : Prop
  /-- Where the code is looked for there are values other than objects. -/
  | sections {part : String} (hpart : part ∈ ["bytecode", "deployedBytecode"])
      (h : entry.opens ["evm", part] = false)
  | code {part : String} (hpart : part ∈ ["bytecode", "deployedBytecode"])
      (h : FlawedCode (codeAt entry part))
  | facts (h : FlawedFacts entry)

theorem fails_compilerVersion_iff {metadata : Document} :
    (compilerVersion metadata).Fails ↔ FlawedMetadata metadata := by
  cases metadata with
  | text s =>
    constructor
    · intro h
      rcases fails_bind_iff.mp h with h | ⟨d?, hparsed, h⟩
      · obtain ⟨d, hread⟩ := fails_bind_pure_iff.mp h
        obtain ⟨activity, rfl⟩ := Json.tooDeep_of_read hread
        exact .tooDeep rfl hread
      · obtain ⟨r, hread, hr⟩ := bind_eq_ok_iff.mp hparsed
        cases hr
        cases r with
        | error f => exact absurd h (not_fails_ok _)
        | ok d =>
          cases d with
          | object ms => exact .spelled rfl hread rfl (Document.fails_get_iff.mp h)
          | _ => exact absurd h (not_fails_ok _)
    · rintro (⟨htext, hread⟩ | ⟨htext, hread, hobject, h⟩ | ⟨hobject, -⟩)
      · cases htext
        exact ⟨_, by simp only [compilerVersion, Json.read?, hread]; rfl⟩
      · cases htext
        obtain ⟨ms, rfl⟩ := Document.exists_eq_object hobject
        simp only [compilerVersion, Json.read?, hread]
        exact Document.fails_get_iff.mpr h
      · cases hobject
  | object ms =>
    have hobject : FlawedMetadata (.object ms) ↔ (Document.object ms).opens ["compiler"] = false := by
      constructor
      · rintro (⟨h, -⟩ | ⟨h, -⟩ | ⟨-, h⟩)
        · cases h
        · cases h
        · exact h
      · exact .object rfl
    exact Document.fails_get_iff.trans hobject.symm
  | _ =>
    refine iff_of_false (by simp [compilerVersion, pure, Except.pure, bind, Except.bind]) ?_
    rintro (⟨h, -⟩ | ⟨h, -⟩ | ⟨h, -⟩) <;> cases h

/-- What holds of a value but not of its stand-in. -/
theorem givenOr_iff {P : Document → Prop} {standIn : Document} (h : ¬P standIn)
    {d? : Option Document} :
    P (givenOr (d?.getD .null) standIn) ↔ ∃ d, d? = some d ∧ d.isGiven = true ∧ P d := by
  cases d? with
  | none => simpa [givenOr, Document.isGiven] using h
  | some d =>
    cases hgiven : d.isGiven with
    | true => simp [givenOr, hgiven]
    | false => simpa [givenOr, hgiven] using h

theorem not_flawedReferences_nil : ¬FlawedReferences names (.object []) := by
  rintro (h | ⟨hids, h⟩ | ⟨hids, hid, h⟩)
  · cases h
  · cases hids
    cases h with
    | numeral hid => cases hid
    | mixed ha => cases ha
  · cases hids
    cases hid

theorem not_flawedMetadata_null : ¬FlawedMetadata .null := by
  rintro (⟨h, -⟩ | ⟨h, -⟩ | ⟨h, -⟩) <;> cases h

/-- Where neither of two tests is passed. -/
theorem neither_of_eq_ok {x y : Except Defect Bool}
    (h : (do if ← x then return true else y : Except Defect Bool) = .ok false) :
    x = .ok false ∧ y = .ok false := by
  obtain ⟨b, hx, hy⟩ := bind_eq_ok_iff.mp h
  cases b with
  | true => cases hy
  | false => exact ⟨hx, hy⟩

/-- What is read of an entry besides its code. -/
theorem fails_facts_iff {contract : ContractReference} {creation runtime : Bytes}
    (hevm : entry.get "evm" (.object []) = .ok evm) (hopens : evm.opens ["deployedBytecode"] = true) :
    (do
      let names := Solidity.declaredNames (← entry.get "ast" .null)
      let deployed ← evm.get "deployedBytecode" (.object [])
      let references ← deployed.get "immutableReferences" .null
      let immutables ← immutablesIn names (givenOr references (.object []))
      let abi ← (givenOr (← entry.get "abi" .null) (.list [])).elements
      let version ← compilerVersion (← entry.get "metadata" .null)
      return {
        contract, creationCode := creation, runtimeCode := runtime, abi, immutables
        metadataLength := (Trailer.split runtime).trailer.length
        compilerVersion := version } : Except Defect Artifact).Fails ↔ FlawedFacts entry := by
  have hentry : entry.opens [] = true := Document.opens_nil_of_get hevm
  obtain ⟨ms, rfl⟩ := Document.exists_eq_object hopens
  have hdeployed : (Document.object ms).get "deployedBytecode" (.object []) = .ok _ := rfl
  rw [Document.opens_of_get hdeployed] at hopens
  rw [Document.get_eq_ok hentry, Document.get_eq_ok hentry, Document.get_eq_ok hentry, hdeployed,
    ok_bind, ok_bind, Document.get_eq_ok hopens, ok_bind, ← Document.at?_of_get hdeployed,
    ← Document.at?_of_get hevm]
  refine (fails_bind_iff_of_forall fun _ => fails_bind_iff_of_forall fun _ =>
    fails_bind_pure_iff).trans ?_
  rw [fails_immutablesIn_iff, Document.fails_elements_iff, fails_compilerVersion_iff,
    givenOr_iff not_flawedReferences_nil,
    givenOr_iff (P := fun d => d.isAtomic = true) (by simp [Document.isAtomic]),
    Document.getD_iff not_flawedMetadata_null]
  constructor
  · rintro (⟨r, hr, hgiven, h⟩ | ⟨abi, habi, hgiven, h⟩ | ⟨metadata, hmetadata, h⟩)
    · exact .references hr hgiven h
    · exact .interface habi hgiven h
    · exact .metadata hmetadata h
  · rintro (⟨hr, hgiven, h⟩ | ⟨habi, hgiven, h⟩ | ⟨hmetadata, h⟩)
    · exact .inl ⟨_, hr, hgiven, h⟩
    · exact .inr (.inl ⟨_, habi, hgiven, h⟩)
    · exact .inr (.inr ⟨_, hmetadata, h⟩)

/-- Code that cannot be searched for a mark is no text. -/
theorem flawedCode_of_fails_mentions (h : (code.mentions linkMark).Fails) : FlawedCode code :=
  .kind (ne_text_of_isAtomic (Document.fails_mentions_iff.mp h))

theorem forall_parts {P : String → Prop} (hcreation : P "bytecode") (hruntime : P "deployedBytecode") :
    ∀ part ∈ ["bytecode", "deployedBytecode"], P part :=
  List.forall_mem_cons.mpr ⟨hcreation, List.forall_mem_singleton.mpr hruntime⟩

/-- Of an entry an artifact is made, or a fault, unless it is flawed. -/
theorem readEntry_ends (contract : ContractReference) (entry : Document) :
    Ends (FlawedEntry entry) (readEntry contract entry) := by
  have hcreationPart : "bytecode" ∈ ["bytecode", "deployedBytecode"] := by simp
  have hruntimePart : "deployedBytecode" ∈ ["bytecode", "deployedBytecode"] := by simp
  refine .lift_bind (fun h => ?_) fun evm hevm => ?_
  · exact .sections hcreationPart (Document.opens_cons_of_not_opens (Document.fails_get_iff.mp h))
  have hsections (part : String) : (codeText evm part).Fails ↔ entry.opens ["evm", part] = false := by
    rw [fails_codeText_iff, Document.opens_of_get hevm]
  refine .lift_bind (fun h => .sections hcreationPart ((hsections _).mp h))
    fun creationText hcreationText => ?_
  refine .lift_bind (fun h => .sections hruntimePart ((hsections _).mp h))
    fun runtimeText hruntimeText => ?_
  obtain rfl := eq_codeAt_of_codeText hevm hcreationText
  obtain rfl := eq_codeAt_of_codeText hevm hruntimeText
  refine .lift_bind (fun h => ?_) fun marked hmarked => ?_
  · rcases fails_bind_iff.mp h with h | ⟨_ | _, -, h⟩
    · exact .code hcreationPart (flawedCode_of_fails_mentions h)
    · exact .code hruntimePart (flawedCode_of_fails_mentions h)
    · exact absurd h (not_fails_ok _)
  split
  · exact .fault _
  rename_i hunmarked
  obtain rfl : marked = false := by simpa using hunmarked
  obtain ⟨hcreationMark, hruntimeMark⟩ := neither_of_eq_ok hmarked
  refine .lift_bind (fun h => ?_) fun creation hcreation => ?_
  · exact .code hcreationPart ((fails_decodeCode_iff hcreationMark).mp h)
  refine .lift_bind (fun h => ?_) fun runtime hruntime => ?_
  · exact .code hruntimePart ((fails_decodeCode_iff hruntimeMark).mp h)
  split
  · exact .fault _
  have hopened : ∀ part ∈ ["bytecode", "deployedBytecode"], entry.opens ["evm", part] ≠ false :=
    forall_parts (mt (hsections _).mpr (not_fails_of_eq_ok hcreationText))
      (mt (hsections _).mpr (not_fails_of_eq_ok hruntimeText))
  have hcodes : ∀ part ∈ ["bytecode", "deployedBytecode"], ¬FlawedCode (codeAt entry part) :=
    forall_parts (mt (fails_decodeCode_iff hcreationMark).mpr (not_fails_of_eq_ok hcreation))
      (mt (fails_decodeCode_iff hruntimeMark).mpr (not_fails_of_eq_ok hruntime))
  have hdeployed : evm.opens ["deployedBytecode"] = true := by
    rw [← Document.opens_of_get hevm]
    exact Bool.of_not_eq_false (hopened _ hruntimePart)
  refine .of_lift ((fails_facts_iff hevm hdeployed).trans ⟨.facts, ?_⟩)
  rintro (⟨hpart, h⟩ | ⟨hpart, h⟩ | h)
  · exact absurd h (hopened _ hpart)
  · exact absurd h (hcodes _ hpart)
  · exact h

end Attest.Build
