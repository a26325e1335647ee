import Attest.Proofs.ContractLookup
import Attest.Proofs.DeclaredNames
import Attest.Proofs.NumberedIds
import Mathlib.Data.List.Basic

/-! # Names of immutable variables

What an entry reports on immutable variables is kept under the names that its syntax tree declares. No
two variables get the same name, even if their declarations have, so none hides the places of
another. -/

namespace Attest

open Except
open Solidity (Declares)

/-! ### Members in any order -/

namespace Members

variable {ms ms' : Members} {name : String} {d : Document}

theorem get?_eq_some_iff (h : ms.names.Nodup) : get? ms name = some d ↔ (name, d) ∈ ms := by
  rw [get?, Option.map_eq_some_iff]
  simp only [find?_name_eq_some_iff h]
  constructor
  · rintro ⟨m, ⟨hm, rfl⟩, rfl⟩
    exact hm
  · exact fun hm => ⟨(name, d), ⟨hm, rfl⟩, rfl⟩

theorem names_perm (h : ms'.Perm ms) : ms'.names.Perm ms.names := h.map _

end Members

/-! ### One variable a name -/

namespace Immutable

theorem put_of_fresh {ws : List Immutable} {v : Immutable}
    (h : ∀ w ∈ ws, w.name.isSameKey v.name = false) : put ws v = ws ++ [v] := by
  induction ws with
  | nil => rfl
  | cons w ws ih =>
    rw [put, h w (by simp), if_neg Bool.false_ne_true, ih fun u hu => h u (List.mem_cons_of_mem w hu)]
    rfl

theorem foldl_put (ws vs : List Immutable)
    (h : (ws ++ vs).Pairwise fun w v => w.name.isSameKey v.name = false) :
    vs.foldl put ws = ws ++ vs := by
  induction vs generalizing ws with
  | nil => simp
  | cons v vs ih =>
    have hfresh : ∀ w ∈ ws, w.name.isSameKey v.name = false := fun w hw =>
      (List.pairwise_append.mp h).2.2 w hw v (by simp)
    rw [List.foldl_cons, put_of_fresh hfresh, ih _ (by simpa using h), List.append_assoc]
    rfl

/-- Variables under different texts are all kept. -/
theorem resolve_of_nodup {vs : List Immutable} {titles : List String}
    (hnames : vs.map (·.name) = titles.map .text) (h : titles.Nodup) : resolve vs = .ok vs := by
  have hkeys : vs.mapM (fun v => v.name.asKey) = .ok (vs.map (·.name)) := by
    refine mapM_eq_ok fun v hv => ?_
    obtain ⟨title, -, htitle⟩ := List.mem_map.mp (hnames ▸ List.mem_map_of_mem hv)
    rw [← htitle]
    rfl
  have hdistinct : (vs.map (·.name)).Pairwise fun d e => d.isSameKey e = false := by
    rw [hnames, List.pairwise_map]
    exact h.imp fun hne => beq_false_of_ne hne
  have hput : vs.foldl put [] = vs := foldl_put [] vs (List.pairwise_map.mp hdistinct)
  rw [resolve, hkeys, ok_bind, hput]
  rfl

end Immutable

namespace Build

/-! ### What is reported -/

/-- A place of which the start and the length are told. -/
def IsPlace (d : Document) : Prop := d.at? ["start"] ≠ none ∧ d.at? ["length"] ≠ none

def placeOf (d : Document) : Range :=
  .ofDocument (.list [(d.at? ["start"]).getD .null, (d.at? ["length"]).getD .null])

/-- The places that a list tells. -/
def placesOf : Document → List Range
  | .list xs => xs.map placeOf
  | _ => []

/-- A report on immutable variables: for ids, each of them once, a list of places. -/
structure IsReport (reports : Members) : Prop where
  nodup : reports.names.Nodup
  numerals : ∀ id ∈ reports.names, IsNumeral id
  places : ∀ id d, (id, d) ∈ reports → ∃ xs, d = .list xs ∧ ∀ x ∈ xs, IsPlace x

/-- The places that are reported of an id. -/
def placesAt (reports : Members) (id : String) : List Range :=
  placesOf ((Members.get? reports id).getD .null)

/-- The variable of an id that gets a name. -/
def variableOf (reports : Members) (title : String → String) (id : String) : Immutable :=
  ⟨.text (title id), placesAt reports id⟩

variable {names : Solidity.Names} {reports reports' : Members} {id : String} {d : Document}

theorem rangeOf_eq (h : IsPlace d) : rangeOf d = .ok (placeOf d) := by
  rw [rangeOf, Document.member_eq_ok h.1, Document.member_eq_ok h.2]
  rfl

namespace IsReport

theorem perm (h : IsReport reports) (hperm : reports'.Perm reports) : IsReport reports' where
  nodup := (Members.names_perm hperm).nodup_iff.mpr h.nodup
  numerals id hid := h.numerals id ((Members.names_perm hperm).mem_iff.mp hid)
  places id d hd := h.places id d (hperm.mem_iff.mp hd)

theorem placesAt_eq (h : IsReport reports) (hd : (id, d) ∈ reports) :
    placesAt reports id = placesOf d := by
  rw [placesAt, (Members.get?_eq_some_iff h.nodup).mpr hd, Option.getD_some]

/-- What is reported of an id is a list, and all its places are read. -/
theorem exists_reported (h : IsReport reports) (hid : id ∈ reports.names) :
    ∃ xs, reported (.object reports) (.text id) = .ok (.list xs) ∧
      xs.mapM rangeOf = .ok (placesAt reports id) := by
  obtain ⟨d, hd⟩ := Members.mem_names_iff.mp hid
  obtain ⟨xs, rfl, hplaces⟩ := h.places id d hd
  refine ⟨xs, ?_, ?_⟩
  · simp [reported, Document.plain, (Members.get?_eq_some_iff h.nodup).mpr hd]
  · rw [h.placesAt_eq hd]
    exact mapM_eq_ok fun x hx => rangeOf_eq (hplaces x hx)

end IsReport

/-! ### One name after the other -/

/-- A name that source code can give: a nonempty text without the mark that stands before ids. -/
def IsIdentifier (name : Document) : Prop := ∃ s, name = .text s ∧ s ≠ "" ∧ '#' ∉ s.toList

/-- What a variable is called unless another one is called so. -/
def baseName (names : Solidity.Names) (id : String) : String :=
  match Members.get? names id with
  | some (.text s) => s
  | _ => id

/-- A name with an id behind a mark. -/
def marked (name id : String) : String := name ++ "#" ++ id

/-- An id that gets a name: a numeral, of which an identifier is known if anything is. -/
structure IsNameable (names : Solidity.Names) (id : String) : Prop where
  numeral : IsNumeral id
  identifier : ∀ name, Members.get? names id = some name → IsIdentifier name

theorem not_mem_of_isNumeral (h : IsNumeral id) : '#' ∉ id.toList := fun hmark =>
  absurd (h.digits '#' hmark) (by decide)

namespace IsNameable

theorem nameOf_eq (h : IsNameable names id) :
    nameOf names (.text id) = .ok (.text (baseName names id)) := by
  rw [nameOf, baseName, Document.plain]
  cases hget : Members.get? names id with
  | none => rfl
  | some name =>
    obtain ⟨s, rfl, hne, -⟩ := h.identifier name hget
    simp [givenOr, Document.isGiven, hne, Document.asKey]

theorem not_mem_baseName (h : IsNameable names id) : '#' ∉ (baseName names id).toList := by
  rw [baseName]
  cases hget : Members.get? names id with
  | none => exact not_mem_of_isNumeral h.numeral
  | some name =>
    obtain ⟨s, rfl, -, hmark⟩ := h.identifier name hget
    exact hmark

end IsNameable

theorem mem_marked (name id : String) : '#' ∈ (marked name id).toList := by simp [marked]

theorem eq_of_marked_eq {name name' id' : String} (hname : '#' ∉ name.toList) (hid : '#' ∉ id.toList)
    (h : marked name id = marked name' id') : id = id' := by
  have hchars : name.toList ++ '#' :: id.toList = name'.toList ++ '#' :: id'.toList := by
    simpa [marked] using congrArg String.toList h
  exact String.toList_inj.mp ((List.append_cons_inj_of_notMem hname hid).mp hchars).2.2

theorem distinctName_text (used : List String) (name id : String) :
    distinctName (used.map .text) (.text name) id =
      .text (if name ∈ used then marked name id else name) := by
  have hused : (used.map Document.text).any (Document.isSameKey (.text name)) =
      decide (name ∈ used) := by
    rw [Bool.eq_iff_iff, List.any_eq_true, decide_eq_true_eq]
    simp [Document.isSameKey]
  rw [distinctName, hused]
  by_cases hmem : name ∈ used
  · simp [hmem, marked, Document.plain]
  · simp [hmem]

/-- Names for ids: those that they have, with the id behind a mark if need be, all different and none of
them used before. -/
structure AreTitles (names : Solidity.Names) (used ids : List String) (title : String → String) :
    Prop where
  form : ∀ id ∈ ids, title id = baseName names id ∨ title id = marked (baseName names id) id
  fresh : ∀ id ∈ ids, title id ∉ used
  nodup : (ids.map title).Nodup

/-- Names among which there is none that an id would get behind a mark. -/
def LeaveMarked (names : Solidity.Names) (used ids : List String) : Prop :=
  ∀ u ∈ used, ∀ id ∈ ids, u ≠ marked (baseName names id) id

/-- The name of the next id. -/
def nextTitle (names : Solidity.Names) (used : List String) (id : String) : String :=
  if baseName names id ∈ used then marked (baseName names id) id else baseName names id

section

variable {used ids : List String} {title : String → String}

theorem nextTitle_eq (names : Solidity.Names) (used : List String) (id : String) :
    nextTitle names used id = baseName names id ∧ baseName names id ∉ used ∨
      nextTitle names used id = marked (baseName names id) id := by
  by_cases hused : baseName names id ∈ used
  · exact .inr (if_pos hused)
  · exact .inl ⟨if_neg hused, hused⟩

theorem nextTitle_not_mem (hleave : LeaveMarked names used (id :: ids)) :
    nextTitle names used id ∉ used := by
  rcases nextTitle_eq names used id with ⟨htitle, hnew⟩ | htitle
  · rwa [htitle]
  · exact fun hmem => hleave _ hmem id (by simp) htitle

/-- No later id would get behind a mark what the next one is called: that has either no mark, or
another id behind it. -/
theorem leaveMarked_nextTitle (hid : IsNameable names id) (hnew : id ∉ ids)
    (hleave : LeaveMarked names used (id :: ids)) :
    LeaveMarked names (nextTitle names used id :: used) ids := by
  intro u hu id' hid'
  rcases List.mem_cons.mp hu with rfl | hu
  · intro h
    rcases nextTitle_eq names used id with ⟨htitle, -⟩ | htitle
    · rw [htitle] at h
      exact hid.not_mem_baseName (h ▸ mem_marked _ _)
    · rw [htitle] at h
      have hsame := eq_of_marked_eq hid.not_mem_baseName (not_mem_of_isNumeral hid.numeral) h
      exact hnew (hsame ▸ hid')
  · exact hleave u hu id' (List.mem_cons_of_mem id hid')

theorem update_of_mem (hnew : id ∉ ids) (title : String → String) (first : String) :
    ∀ id' ∈ ids, Function.update title id first id' = title id' := by
  rintro id' hid'
  refine Function.update_of_ne ?_ _ _
  rintro rfl
  exact hnew hid'

theorem AreTitles.cons (hnew : id ∉ ids) (hleave : LeaveMarked names used (id :: ids))
    (h : AreTitles names (nextTitle names used id :: used) ids title) :
    AreTitles names used (id :: ids) (Function.update title id (nextTitle names used id)) := by
  have hothers := update_of_mem hnew title (nextTitle names used id)
  refine ⟨?_, ?_, ?_⟩
  · rw [List.forall_mem_cons, Function.update_self]
    refine ⟨(nextTitle_eq names used id).imp_left And.left, fun id' hid' => ?_⟩
    rw [hothers id' hid']
    exact h.form id' hid'
  · rw [List.forall_mem_cons, Function.update_self]
    refine ⟨nextTitle_not_mem hleave, fun id' hid' hused => ?_⟩
    rw [hothers id' hid'] at hused
    exact h.fresh id' hid' (List.mem_cons_of_mem _ hused)
  · rw [List.map_cons, Function.update_self, List.map_congr_left hothers, List.nodup_cons]
    refine ⟨fun hmem => ?_, h.nodup⟩
    obtain ⟨id', hid', hsame⟩ := List.mem_map.mp hmem
    exact h.fresh id' hid' (hsame ▸ List.mem_cons_self)

theorem immutablesFrom_cons (hreport : IsReport reports) (hid : id ∈ reports.names)
    (hnameable : IsNameable names id) (used ids : List String) :
    immutablesFrom names (.object reports) (used.map .text) ((id :: ids).map .text) = (do
      let vs ← immutablesFrom names (.object reports)
        ((nextTitle names used id :: used).map .text) (ids.map .text)
      return ⟨.text (nextTitle names used id), placesAt reports id⟩ :: vs) := by
  obtain ⟨xs, hreported, hranges⟩ := hreport.exists_reported hid
  rw [List.map_cons, immutablesFrom, hnameable.nameOf_eq, ok_bind, Document.plain, distinctName_text,
    hreported, ok_bind]
  simp only [Document.elements, ok_bind, hranges]
  rfl

/-- The variables of ids are read in full, each under a name of its own. -/
theorem exists_titles (hreport : IsReport reports) (hids : ids.Nodup)
    (hmem : ∀ id ∈ ids, id ∈ reports.names) (hnameable : ∀ id ∈ ids, IsNameable names id)
    (hleave : LeaveMarked names used ids) :
    ∃ title, AreTitles names used ids title ∧
      immutablesFrom names (.object reports) (used.map .text) (ids.map .text) =
        .ok (ids.map (variableOf reports title)) := by
  induction ids generalizing used with
  | nil => exact ⟨id, ⟨by simp, by simp, by simp⟩, rfl⟩
  | cons id ids ih =>
    obtain ⟨hnew, hids⟩ := List.nodup_cons.mp hids
    obtain ⟨hid, hmem⟩ := List.forall_mem_cons.mp hmem
    obtain ⟨hfirst, hnameable⟩ := List.forall_mem_cons.mp hnameable
    obtain ⟨title, htitles, hread⟩ :=
      ih hids hmem hnameable (leaveMarked_nextTitle hfirst hnew hleave)
    have hrest : ids.map (variableOf reports (Function.update title id (nextTitle names used id))) =
        ids.map (variableOf reports title) := List.map_congr_left fun id' hid' => by
      rw [variableOf, update_of_mem hnew title _ id' hid']
      rfl
    refine ⟨Function.update title id (nextTitle names used id), htitles.cons hnew hleave, ?_⟩
    rw [immutablesFrom_cons hreport hid hfirst, hread, List.map_cons, hrest, variableOf,
      Function.update_self]
    rfl

theorem elements_object (reports : Members) :
    (Document.object reports).elements = .ok (reports.names.map .text) := by
  simp [Document.elements, Members.names]

theorem immutablesIn_nil : immutablesIn names (.object []) = .ok [] := by
  have hsorted : sortIds [] = .ok [] := by simp [sortIds, pure, Except.pure, bind, Except.bind]
  rw [immutablesIn, elements_object, ok_bind, Members.names, List.map_nil, List.map_nil, hsorted]
  rfl

/-- All that is reported is read, in the order of the ids' numbers. -/
theorem exists_immutablesIn (hreport : IsReport reports)
    (hnameable : ∀ id ∈ reports.names, IsNameable names id) :
    ∃ title, AreTitles names [] (inOrder reports.names) title ∧
      immutablesIn names (.object reports) =
        .ok ((inOrder reports.names).map (variableOf reports title)) := by
  have hperm := inOrder_perm reports.names
  have hleave : LeaveMarked names [] (inOrder reports.names) := by simp [LeaveMarked]
  obtain ⟨title, htitles, hread⟩ := exists_titles hreport (hperm.nodup_iff.mpr hreport.nodup)
    (fun id hid => hperm.mem_iff.mp hid) (fun id hid => hnameable id (hperm.mem_iff.mp hid)) hleave
  refine ⟨title, htitles, ?_⟩
  rw [immutablesIn, elements_object, ok_bind, sortIds_numerals hreport.numerals, ok_bind]
  exact hread

theorem immutablesFrom_congr {references references' : Document}
    (h : ∀ id, reported references id = reported references' id) (used ids : List Document) :
    immutablesFrom names references used ids = immutablesFrom names references' used ids := by
  induction ids generalizing used with
  | nil => rfl
  | cons id ids ih => simp only [immutablesFrom, h, ih]

/-- The order in which ids of different numbers are reported makes no difference. -/
theorem immutablesIn_eq_of_perm (hreport : IsReport reports) (h : reports'.Perm reports)
    (hnumbers : (reports.names.map number).Nodup) :
    immutablesIn names (.object reports') = immutablesIn names (.object reports) := by
  have hget (id : String) : Members.get? reports' id = Members.get? reports id := by
    refine Option.ext fun d => ?_
    rw [Members.get?_eq_some_iff hreport.nodup, Members.get?_eq_some_iff (hreport.perm h).nodup,
      h.mem_iff]
  have hreported (id : Document) :
      reported (.object reports') id = reported (.object reports) id := by
    simp only [reported, hget]
  rw [immutablesIn, immutablesIn, elements_object, elements_object, ok_bind, ok_bind,
    sortIds_numerals hreport.numerals, sortIds_numerals (hreport.perm h).numerals,
    inOrder_eq_of_perm (Members.names_perm h).symm hnumbers, ok_bind, ok_bind]
  exact immutablesFrom_congr hreported _ _

end

/-! ### Entries -/

/-- Where an entry reports on immutable variables. -/
def reportPath : List String := ["evm", "deployedBytecode", "immutableReferences"]

def syntaxTree (entry : Document) : Document := (entry.at? ["ast"]).getD .null

theorem givenOr_object (ms : Members) : givenOr (.object ms) (.object []) = .object ms := by
  cases ms <;> rfl

/-- The sections of an entry that tell of its code, with a report in the place of theirs. -/
def sectionsWith (ms ds : Members) (part : Document) : Document :=
  .object (Members.set ms "deployedBytecode" (.object (Members.set ds "immutableReferences" part)))

theorem codeText_sectionsWith {ms ds : Members}
    (hdeployed : Members.get? ms "deployedBytecode" = some (.object ds)) (part : Document)
    (name : String) : codeText (sectionsWith ms ds part) name = codeText (.object ms) name := by
  by_cases hname : "deployedBytecode" = name
  · subst hname
    rw [codeText, codeText, sectionsWith, Document.get_set_self, Document.get_eq_ok rfl,
      Document.at?_object hdeployed, ok_bind, ok_bind,
      Document.get_set_of_ne (by decide : "immutableReferences" ≠ "object")]
    rfl
  · rw [codeText, codeText, sectionsWith, Document.get_set_of_ne hname]

theorem map_lift (f : α → β) (x : Except Defect α) : f <$> lift x = lift (f <$> x) := by
  cases x <;> rfl

/-- A report decides nothing about an artifact but its variables. -/
theorem readEntry_put {entry old part : Document} {vs : List Immutable}
    (hreports : entry.at? reportPath = some old)
    (hvs : immutablesIn (Solidity.declaredNames (syntaxTree entry)) (givenOr part (.object [])) =
      .ok vs)
    (contract : ContractReference) :
    readEntry contract (entry.put reportPath part) =
      (fun a => { a with immutables := vs }) <$> readEntry contract (entry.put reportPath .null) := by
  obtain ⟨es, evm, rfl, hevm, hreports⟩ := Document.exists_member hreports
  obtain ⟨ms, deployed, rfl, hdeployed, hreports⟩ := Document.exists_member hreports
  obtain ⟨ds, report, rfl, hreport, -⟩ := Document.exists_member hreports
  have hput (part : Document) : (Document.object es).put reportPath part =
      .object (Members.set es "evm" (sectionsWith ms ds part)) := by
    rw [reportPath, Document.put_object hevm, Document.put_object hdeployed,
      Document.put_object hreport]
    rfl
  have hother (name : String) (hname : "evm" ≠ name) (part : Document) :
      (Document.object (Members.set es "evm" (sectionsWith ms ds part))).get name .null =
        .ok (((Document.object es).at? [name]).getD .null) := by
    rw [Document.get_set_of_ne hname, Document.get_eq_ok rfl]
  have hlater (part : Document) : (sectionsWith ms ds part).get "deployedBytecode" (.object []) =
      .ok (.object (Members.set ds "immutableReferences" part)) := Document.get_set_self ..
  have hnone : immutablesIn (Solidity.declaredNames (syntaxTree (.object es)))
      (givenOr .null (.object [])) = .ok [] := immutablesIn_nil
  have hlift (d : Document) : lift (.ok d) = .ok d := rfl
  -- Both entries are read in the same steps, which come to the same until the report is read.
  rw [hput, hput, readEntry, readEntry]
  simp only [Document.get_set_self, hlift, codeText_sectionsWith hdeployed, ok_bind, map_bind,
    hother "ast" (by decide), hother "abi" (by decide), hother "metadata" (by decide), hlater]
  refine bind_congr fun creationText => bind_congr fun runtimeText => bind_congr fun unlinked => ?_
  cases unlinked with
  | true => rfl
  | false =>
    simp only [Bool.false_eq_true, if_false, map_bind]
    refine bind_congr fun creation => bind_congr fun runtime => ?_
    split
    · rfl
    · rw [← syntaxTree, hvs, hnone, ok_bind, ok_bind, map_lift, map_bind]
      simp only [map_bind]
      rfl

/-! ### Every reported place is kept -/

/-- The name that is declared of an id, or the id itself if there is none, which may have the id behind
a mark. -/
def IsTitle (tree : Document) (id title : String) : Prop :=
  ∃ name, (Declares tree id (.text name) ∨ (∀ d, ¬Declares tree id d) ∧ name = id) ∧
    (title = name ∨ title = marked name id)

/-- What becomes of a report: each id has a variable with all its places, under a name of its own that
comes from a declaration of the id if there is any. -/
structure Represents (tree : Document) (reports : Members) (vs : List Immutable) : Prop where
  titled : ∃ title : String → String, (∀ id ∈ reports.names, IsTitle tree id (title id)) ∧
    vs.Perm (reports.map fun m => ⟨.text (title m.1), placesOf m.2⟩)
  distinct : (vs.map (·.name)).Nodup
  ranges : (vs.flatMap (·.ranges)).Perm (reports.flatMap fun m => placesOf m.2)

variable {tree entry : Document} {ids : List String} {title : String → String}

theorem isNameable_of_declares (hnumeral : IsNumeral id)
    (h : ∀ name, Declares tree id name → IsIdentifier name) :
    IsNameable (Solidity.declaredNames tree) id :=
  ⟨hnumeral, fun name hname => h name (Solidity.declares_of_get? hname)⟩

theorem baseName_declared (h : IsNameable (Solidity.declaredNames tree) id) :
    Declares tree id (.text (baseName (Solidity.declaredNames tree) id)) ∨
      (∀ d, ¬Declares tree id d) ∧ baseName (Solidity.declaredNames tree) id = id := by
  cases hget : Members.get? (Solidity.declaredNames tree) id with
  | none =>
    refine .inr ⟨fun d hd => ?_, by rw [baseName, hget]⟩
    obtain ⟨name, hname⟩ := Solidity.exists_get?_of_declares hd
    cases hget.symm.trans hname
  | some name =>
    obtain ⟨s, rfl, -⟩ := h.identifier name hget
    refine .inl ?_
    rw [baseName, hget]
    exact Solidity.declares_of_get? hget

theorem map_name_variableOf (ids : List String) :
    (ids.map (variableOf reports title)).map (·.name) = (ids.map title).map .text := by
  simp [variableOf]

theorem represents_of_titles (hreport : IsReport reports)
    (hnameable : ∀ id ∈ reports.names, IsNameable (Solidity.declaredNames tree) id)
    (h : AreTitles (Solidity.declaredNames tree) [] (inOrder reports.names) title) :
    Represents tree reports
      ((inOrder reports.names).map (variableOf reports title)) := by
  have hperm := inOrder_perm reports.names
  have hvariables : reports.names.map (variableOf reports title) =
      reports.map fun m => ⟨.text (title m.1), placesOf m.2⟩ := by
    rw [Members.names, List.map_map]
    exact List.map_congr_left fun m hm => by
      rw [Function.comp_apply, variableOf, hreport.placesAt_eq (show (m.1, m.2) ∈ reports from hm)]
  have hvs := hvariables ▸ hperm.map (variableOf reports title)
  refine ⟨⟨title, fun id hid => ?_, hvs⟩, ?_, ?_⟩
  · exact ⟨_, baseName_declared (hnameable id hid), h.form id (hperm.mem_iff.mpr hid)⟩
  · rw [map_name_variableOf]
    exact h.nodup.map fun _ _ hsame => Document.text.inj hsame
  · simpa [List.flatMap_map] using hvs.flatMap_right (·.ranges)

/-- Wherever ids of a report are numerals and the names that are declared of them are identifiers, every
place is kept. The report is never what keeps an artifact from being made. -/
theorem reported_immutables (entry : Document) (reports : Members)
    (hreports : entry.at? reportPath = some (.object reports)) (hreport : IsReport reports)
    (hnames : ∀ id ∈ reports.names, ∀ name, Declares (syntaxTree entry) id name →
      IsIdentifier name) :
    ∃ vs, Represents (syntaxTree entry) reports vs ∧
      (∀ contract, readEntry contract entry =
        (fun a => { a with immutables := vs }) <$> readEntry contract (entry.put reportPath .null)) ∧
      (∀ contract a, readEntry contract entry = .ok a →
        a.immutables = vs ∧ a.immutableMap = .ok vs) ∧
      ((reports.names.map number).Nodup → ∀ (contract) (reports' : Members),
        reports'.Perm reports →
          readEntry contract (entry.put reportPath (.object reports')) = readEntry contract entry) := by
  have hnameable : ∀ id ∈ reports.names,
      IsNameable (Solidity.declaredNames (syntaxTree entry)) id := fun id hid =>
    isNameable_of_declares (hreport.numerals id hid) (hnames id hid)
  obtain ⟨title, htitles, hread⟩ := exists_immutablesIn hreport hnameable
  have hwhole : entry.put reportPath (.object reports) = entry := Document.put_eq_self hreports
  have hentry (contract : ContractReference) :=
    readEntry_put hreports ((congrArg _ (givenOr_object reports)).trans hread) contract
  rw [hwhole] at hentry
  refine ⟨_, represents_of_titles hreport hnameable htitles, hentry, fun contract a ha => ?_,
    fun hnumbers contract reports' hperm => ?_⟩
  · rw [hentry] at ha
    cases hbare : readEntry contract (entry.put reportPath .null) with
    | error f =>
      rw [hbare] at ha
      cases ha
    | ok b =>
      rw [hbare] at ha
      cases ha
      exact ⟨rfl, Immutable.resolve_of_nodup (map_name_variableOf _) htitles.nodup⟩
  · rw [hentry]
    refine readEntry_put hreports ?_ contract
    rw [givenOr_object, immutablesIn_eq_of_perm hreport hperm hnumbers, hread]

/-! ### Two variables of one name, and an id that is too long -/

/-- An entry of little code, with a syntax tree and a report. -/
def bareEntry (tree : Document) (reports : Members) : Document :=
  .object [("ast", tree), ("evm", .object [
    ("bytecode", .object [("object", .text "60")]),
    ("deployedBytecode", .object [("object", .text "6000"),
      ("immutableReferences", .object reports)])])]

def bareArtifact (contract : ContractReference) (vs : List Immutable) : Artifact where
  contract := contract
  creationCode := [0x60]
  runtimeCode := [0x60, 0]
  abi := []
  immutables := vs
  metadataLength := (Trailer.split [0x60, 0]).trailer.length

theorem readEntry_bareEntry (contract : ContractReference) (tree : Document) (reports : Members) :
    readEntry contract (bareEntry tree reports) =
      lift (bareArtifact contract <$>
        immutablesIn (Solidity.declaredNames tree) (.object reports)) := by
  have hcreation : givenOr (.text "60") (.text "") = .text "60" := rfl
  have hruntime : givenOr (.text "6000") (.text "") = .text "6000" := rfl
  have hlinked : (Document.text "60").mentions linkMark = .ok false := rfl
  have hlinked' : (Document.text "6000").mentions linkMark = .ok false := rfl
  have hbytes : decodeCode (.text "60") = .ok [0x60] := rfl
  have hbytes' : decodeCode (.text "6000") = .ok [0x60, 0] := rfl
  have habi : (givenOr .null (.list [])).elements = .ok [] := rfl
  have hversion : compilerVersion .null = .ok .null := rfl
  cases hread : immutablesIn (Solidity.declaredNames tree) (.object reports) with
  | error e =>
    simp [readEntry, bareEntry, Document.get, Document.members, Members.get?, codeText, hcreation,
      hruntime, hlinked, hlinked', hbytes, hbytes', givenOr_object, hread, bind, Except.bind, pure,
      Except.pure, lift]
  | ok vs =>
    simp [readEntry, bareEntry, Document.get, Document.members, Members.get?, codeText, hcreation,
      hruntime, hlinked, hlinked', hbytes, hbytes', givenOr_object, habi, hversion, hread, bind,
      Except.bind, pure, Except.pure, lift]
    rfl

/-- A node that declares an immutable variable. -/
def variableNode (id : Int) (name : String) : Document :=
  .object [("nodeType", .text "VariableDeclaration"), ("mutability", .text "immutable"),
    ("id", .int id), ("name", .text name)]

/-- Two nodes that declare variables of the same name. -/
def twinTree : Document := .list [.list [variableNode 3 "x"], .list [variableNode 12 "x"]]

def place (start length : Int) : Document := .object [("start", .int start), ("length", .int length)]

/-- A report on these variables and on one that is not declared. -/
def twinReports : Members :=
  [("12", .list [place 0 1]), ("7", .list [place 1 1]), ("3", .list [place 1 1, place 0 1])]

theorem declares_variableNode {i : Int} {s : String} {name : Document} :
    Declares (variableNode i s) id name ↔ toString i = id ∧ .text s = name := by
  have htext (t : String) : ¬Declares (.text t) id name := Solidity.not_declares_of_not_nested rfl
  have hint : ¬Declares (.int i) id name := Solidity.not_declares_of_not_nested rfl
  simp [variableNode, Solidity.declares_object, Solidity.declaration?, Members.get?,
    Document.isText, Document.plain, Document.literal, htext, hint]

theorem isIdentifier_of_declares_twinTree {name : Document} (h : Declares twinTree id name) :
    IsIdentifier name := by
  simp only [twinTree, Solidity.declares_list, List.mem_cons, List.not_mem_nil, or_false,
    exists_eq_or_imp, exists_eq_left, declares_variableNode] at h
  obtain ⟨-, rfl⟩ | ⟨-, rfl⟩ := h
  all_goals exact ⟨"x", rfl, by decide, by decide⟩

theorem isPlace_place (start length : Int) : IsPlace (place start length) := by
  simp [IsPlace, place, Document.at?, Members.get?]

theorem isReport_twinReports : IsReport twinReports where
  nodup := by decide
  numerals := by
    intro id hid
    simp only [twinReports, Members.names, List.map_cons, List.map_nil, List.mem_cons,
      List.not_mem_nil, or_false] at hid
    obtain rfl | rfl | rfl := hid
    all_goals exact ⟨by decide, List.all_eq_true.mp rfl, by decide⟩
  places := by
    intro id d hd
    simp only [twinReports, List.mem_cons, List.not_mem_nil, or_false, Prod.mk.injEq] at hd
    obtain ⟨-, rfl⟩ | ⟨-, rfl⟩ | ⟨-, rfl⟩ := hd
    all_goals exact ⟨_, rfl, by simp [isPlace_place]⟩

theorem reported_immutables_twins :
    ∃ vs, Represents twinTree twinReports vs ∧
      ∀ contract, readEntry contract (bareEntry twinTree twinReports) =
        .ok (bareArtifact contract vs) := by
  have hidentifier (id : String) (name : Document) (h : Declares twinTree id name) :
      IsIdentifier name := isIdentifier_of_declares_twinTree h
  obtain ⟨vs, hrepresents, -, hread, -⟩ := reported_immutables (bareEntry twinTree twinReports)
    twinReports rfl isReport_twinReports fun id _ => hidentifier id
  obtain ⟨title, -, himmutables⟩ := exists_immutablesIn isReport_twinReports fun id hid =>
    isNameable_of_declares (isReport_twinReports.numerals id hid) (hidentifier id)
  refine ⟨vs, hrepresents, fun contract => ?_⟩
  have hentry := readEntry_bareEntry contract twinTree twinReports
  rw [himmutables] at hentry
  obtain ⟨rfl, -⟩ := hread contract _ hentry
  exact hentry

/-- An id of one digit more than can be read. -/
def longNumeral : String := String.ofList (List.replicate (Numeral.digitLimit + 1) '1')

theorem toList_longNumeral : longNumeral.toList = List.replicate (Numeral.digitLimit + 1) '1' :=
  String.toList_ofList

theorem digits_longNumeral : ∀ c ∈ longNumeral.toList, c.isDigit := by
  intro c hc
  rw [toList_longNumeral] at hc
  rw [List.eq_of_mem_replicate hc]
  rfl

theorem rank_longNumeral : rank (.text longNumeral) =
    .error (.badValue (Numeral.Fault.tooLong (Numeral.digitLimit + 1)).message) := by
  have hlength : longNumeral.length = Numeral.digitLimit + 1 := by
    rw [← String.length_toList, toList_longNumeral, List.length_replicate]
  have hne : longNumeral.toList ≠ [] := by
    rw [toList_longNumeral, List.replicate_succ]
    exact List.cons_ne_nil _ _
  rw [rank_of_digits hne digits_longNumeral, hlength, if_pos (Nat.lt_succ_self _)]

/-- Such an id keeps an artifact from being made. -/
theorem long_id_breaks_reading :
    (bareEntry .null [(longNumeral, .list [place 0 1])]).at? reportPath =
        some (.object [(longNumeral, .list [place 0 1])]) ∧
      (∀ c ∈ longNumeral.toList, c.isDigit) ∧
      ∀ contract, readEntry contract (bareEntry .null []) = .ok (bareArtifact contract []) ∧
        readEntry contract (bareEntry .null [(longNumeral, .list [place 0 1])]) =
          .error (.defect (.badValue (Numeral.Fault.tooLong (Numeral.digitLimit + 1)).message)) := by
  refine ⟨rfl, digits_longNumeral, fun contract => ⟨?_, ?_⟩⟩
  · rw [readEntry_bareEntry, immutablesIn_nil]
    rfl
  · have hids : (Document.object [(longNumeral, .list [place 0 1])]).elements =
        .ok [.text longNumeral] := rfl
    have hsorted : sortIds [.text longNumeral] =
        .error (.badValue (Numeral.Fault.tooLong (Numeral.digitLimit + 1)).message) := by
      rw [sortIds, List.mapM_cons, rank_longNumeral]
      rfl
    rw [readEntry_bareEntry, immutablesIn, hids, ok_bind, hsorted]
    rfl

end Build

end Attest
