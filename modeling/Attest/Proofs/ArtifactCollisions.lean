import Attest.Build.Forge
import Attest.Proofs.ContractLookup
import Attest.Proofs.OutputFlaws
import Mathlib.Data.List.Induction

/-! # Artifacts that hide each other

Artifacts are gathered file by file. Where several files denote the same contract, the last one of them
is all that a lookup sees; what is ambiguous is only noticed between files that denote different
ones. -/

namespace Attest

open Except

/-! ### Putting members in -/

namespace Members

variable {ms : Members} {e : String × Document} {k : String} {d : Document}

theorem names_set (ms : Members) (k : String) (d : Document) :
    names (set ms k d) = if k ∈ names ms then names ms else names ms ++ [k] := by
  induction ms with
  | nil => simp [set, names]
  | cons m ms ih =>
    by_cases hname : m.1 = k
    · simp [set, names, hname]
    · have hset : set (m :: ms) k d = m :: set ms k d := by simp [set, hname]
      have hmem : k ∈ names (m :: ms) ↔ k ∈ names ms := by simp [names, Ne.symm hname]
      have hnames : names (set (m :: ms) k d) = m.1 :: names (set ms k d) := by rw [hset, names]; rfl
      rw [hnames, ih, if_congr hmem rfl rfl]
      by_cases hk : k ∈ names ms
      · rw [if_pos hk, if_pos hk]
        rfl
      · rw [if_neg hk, if_neg hk]
        rfl

theorem nodup_set (h : ms.names.Nodup) (k : String) (d : Document) : (names (set ms k d)).Nodup := by
  rw [names_set]
  by_cases hk : k ∈ ms.names
  · rwa [if_pos hk]
  · rw [if_neg hk]
    exact List.Nodup.append h (List.nodup_singleton k) (by simpa using hk)

theorem mem_set_iff (h : ms.names.Nodup) :
    e ∈ ms.set k d ↔ e = (k, d) ∨ e.1 ≠ k ∧ e ∈ ms := by
  induction ms with
  | nil => simp [set]
  | cons m ms ih =>
    obtain ⟨hm, hms⟩ : m.1 ∉ names ms ∧ (names ms).Nodup := by simpa [names] using h
    by_cases hname : m.1 = k
    · have hother (he : e ∈ ms) : e.1 ≠ k := by
        rintro rfl
        exact hm (hname ▸ List.mem_map_of_mem he)
      simp only [set, hname, beq_self_eq_true, if_true, List.mem_cons]
      constructor
      · rintro (he | he)
        · exact .inl he
        · exact .inr ⟨hother he, .inr he⟩
      · rintro (he | ⟨hne, rfl | he⟩)
        · exact .inl he
        · exact absurd hname hne
        · exact .inr he
    · have hset : e ∈ set (m :: ms) k d ↔ e = m ∨ e ∈ set ms k d := by simp [set, hname]
      rw [hset, ih hms, List.mem_cons]
      by_cases he : e = m
      · simp [he, hname]
      · simp [he]

/-- Members put in under some names, all with one value. -/
theorem mem_foldl_set_iff (h : ms.names.Nodup) (ks : List String) (d : Document) :
    (names (ks.foldl (fun ms k => set ms k d) ms)).Nodup ∧
      ∀ e, e ∈ ks.foldl (fun ms k => set ms k d) ms ↔
        e.1 ∈ ks ∧ e.2 = d ∨ e.1 ∉ ks ∧ e ∈ ms := by
  induction ks generalizing ms with
  | nil => simpa using h
  | cons k ks ih =>
    obtain ⟨hnodup, hmem⟩ := ih (nodup_set h k d)
    refine ⟨hnodup, fun e => ?_⟩
    rw [List.foldl_cons, hmem, mem_set_iff h, Prod.ext_iff, List.mem_cons]
    by_cases hks : e.1 ∈ ks
    · simp [hks]
    · by_cases hk : e.1 = k
      · rw [hk] at hks ⊢
        simp [hks]
      · simp [hks, hk]

end Members

namespace Build.Forge

open Output

/-! ### Files and what they denote -/

/-- A file that is an artifact, with the entry that is made of it and its keys. -/
inductive Holds (t : Tree) (project path : Path) : Document → List String → Prop
  | artifact {s : String} {ms : Members} {bytecode entry : Document} {keys : List String}
      (hrecords : path.contains recordsDirectory = false) (htext : t.text? path = some s)
      (hread : Json.read? s = .ok (some (.object ms)))
      (hbytecode : Members.get? ms "bytecode" = some bytecode)
      (hentry : entryOf ms bytecode = .ok entry)
      (hkeys : (target ms >>= keysOf project path) = .ok keys) : Holds t project path entry keys

/-- A file that is an artifact with some key. -/
def Denotes (t : Tree) (project : Path) (k : String) (d : Document) (path : Path) : Prop :=
  ∃ keys, Holds t project path d keys ∧ k ∈ keys

/-- Whether there is an artifact with some key among files. -/
def IsDenoted (t : Tree) (project : Path) (files : List Path) (k : String) : Prop :=
  ∃ path ∈ files, ∃ d, Denotes t project k d path

/-- What the last one of the files with some key holds. -/
def LastDenotes (t : Tree) (project : Path) (files : List Path) (k : String) (d : Document) : Prop :=
  ∃ before path after, files = before ++ path :: after ∧ Denotes t project k d path ∧
    ¬IsDenoted t project after k

variable {t : Tree} {project path : Path} {files : List Path} {o o' : Output} {k : String}
  {d d' entry entry' : Document} {keys keys' : List String}

theorem Holds.unique (h : Holds t project path entry keys) (h' : Holds t project path entry' keys') :
    entry = entry' ∧ keys = keys' := by
  obtain ⟨-, htext, hread, hbytecode, hentry, hkeys⟩ := h
  obtain ⟨-, htext', hread', hbytecode', hentry', hkeys'⟩ := h'
  cases htext.symm.trans htext'
  cases hread.symm.trans hread'
  cases hbytecode.symm.trans hbytecode'
  cases hentry.symm.trans hentry'
  cases hkeys.symm.trans hkeys'
  exact ⟨rfl, rfl⟩

theorem Denotes.unique (h : Denotes t project k d path) (h' : Denotes t project k d' path) : d = d' := by
  obtain ⟨keys, hholds, -⟩ := h
  obtain ⟨keys', hholds', -⟩ := h'
  exact (hholds.unique hholds').1

theorem addFile_of_holds (h : Holds t project path entry keys) (o : Output) :
    addFile t project o path = .ok (keys.foldl (fun o k => Members.set o k entry) o) := by
  obtain ⟨hrecords, htext, hread, hbytecode, hentry, hkeys⟩ := h
  obtain ⟨d, htarget, hkeys⟩ := bind_eq_ok_iff.mp hkeys
  rw [addFile, hrecords, if_neg Bool.false_ne_true, Tree.read_eq_ok htext, ok_bind, hread, ok_bind]
  simp only [hbytecode, hentry, htarget, hkeys, ok_bind]
  rfl

/-- A file that is read and holds no object with code is no artifact. -/
theorem not_holds_of_read {s : String} {doc? : Option Document} (htext : t.text? path = some s)
    (hread : Json.read? s = .ok doc?)
    (h : ∀ ms bytecode, doc? = some (.object ms) → Members.get? ms "bytecode" ≠ some bytecode)
    (project : Path) (entry : Document) (keys : List String) :
    ¬Holds t project path entry keys := by
  rintro ⟨-, htext', hread', hbytecode, -, -⟩
  cases htext.symm.trans htext'
  cases hread.symm.trans hread'
  exact h _ _ rfl hbytecode

/-- A file adds its entry under all its keys, or it is no artifact and is skipped. -/
theorem addFile_cases (h : addFile t project o path = .ok o') :
    (∃ entry keys, Holds t project path entry keys ∧
      o' = keys.foldl (fun o k => Members.set o k entry) o) ∨
    (o' = o ∧ ∀ entry keys, ¬Holds t project path entry keys) := by
  rw [addFile] at h
  by_cases hrecords : path.contains recordsDirectory = true
  · rw [if_pos hrecords] at h
    cases h
    refine .inr ⟨rfl, fun entry keys hholds => ?_⟩
    obtain ⟨hno, -⟩ := hholds
    cases hno.symm.trans hrecords
  rw [if_neg hrecords] at h
  obtain ⟨s, hs, h⟩ := bind_eq_ok_iff.mp h
  obtain ⟨doc?, hread, h⟩ := bind_eq_ok_iff.mp h
  have htext := Tree.text?_of_read hs
  split at h
  · rename_i ms
    split at h
    · rename_i hbytecode
      cases h
      refine .inr ⟨rfl, not_holds_of_read htext hread (fun ms' bytecode hms => ?_) project⟩
      cases hms
      simp [hbytecode]
    · rename_i bytecode hbytecode
      obtain ⟨entry, hentry, h⟩ := bind_eq_ok_iff.mp h
      obtain ⟨d, htarget, h⟩ := bind_eq_ok_iff.mp h
      obtain ⟨keys, hkeys, h⟩ := bind_eq_ok_iff.mp h
      cases h
      refine .inl ⟨entry, keys, ?_, rfl⟩
      exact .artifact (Bool.not_eq_true _ ▸ hrecords) htext hread hbytecode hentry
        (bind_eq_ok_iff.mpr ⟨d, htarget, hkeys⟩)
  · rename_i hobject
    cases h
    exact .inr ⟨rfl, not_holds_of_read htext hread
      (fun ms bytecode hms => absurd hms (hobject ms)) project⟩

/-- One more file hides what earlier files hold under its keys, and leaves the rest. -/
theorem mem_addFile_iff (ho : (Members.names o).Nodup) (h : addFile t project o path = .ok o') :
    (Members.names o').Nodup ∧ ∀ k d, (k, d) ∈ o' ↔
      Denotes t project k d path ∨ (∀ d', ¬Denotes t project k d' path) ∧ (k, d) ∈ o := by
  rcases addFile_cases h with ⟨entry, keys, hholds, rfl⟩ | ⟨rfl, hskipped⟩
  · obtain ⟨hnodup, hmem⟩ := Members.mem_foldl_set_iff ho keys entry
    refine ⟨hnodup, fun k d => ?_⟩
    have hdenotes (d' : Document) : Denotes t project k d' path ↔ k ∈ keys ∧ d' = entry := by
      constructor
      · rintro ⟨keys', hholds', hk⟩
        obtain ⟨rfl, rfl⟩ := hholds'.unique hholds
        exact ⟨hk, rfl⟩
      · rintro ⟨hk, rfl⟩
        exact ⟨keys, hholds, hk⟩
    rw [hmem]
    simp only [hdenotes, not_and, forall_eq_apply_imp_iff]
  · refine ⟨ho, fun k d => ?_⟩
    have hnot (d' : Document) : ¬Denotes t project k d' path :=
      fun ⟨keys, hholds, _⟩ => hskipped d' keys hholds
    simp [hnot]

/-! ### All files -/

theorem isDenoted_append {files' : List Path} : IsDenoted t project (files ++ files') k ↔
    IsDenoted t project files k ∨ IsDenoted t project files' k := by
  simp only [IsDenoted, List.mem_append, or_and_right, exists_or]

theorem isDenoted_singleton : IsDenoted t project [path] k ↔ ∃ d, Denotes t project k d path := by
  simp [IsDenoted]

theorem not_lastDenotes_nil : ¬LastDenotes t project [] k d := by
  rintro ⟨before, path, after, hfiles, -⟩
  simp at hfiles

/-- With one more file, it is the last one, or the last one of the others if it has not the key. -/
theorem lastDenotes_append_singleton : LastDenotes t project (files ++ [path]) k d ↔
    Denotes t project k d path ∨
      (∀ d', ¬Denotes t project k d' path) ∧ LastDenotes t project files k d := by
  constructor
  · rintro ⟨before, q, after, hfiles, hq, hlast⟩
    induction after using List.reverseRecOn with
    | nil =>
      obtain ⟨rfl, hsame⟩ := List.append_inj' hfiles rfl
      cases hsame
      exact .inl hq
    | append_singleton after p _ =>
      rw [← List.cons_append, ← List.append_assoc] at hfiles
      obtain ⟨rfl, hsame⟩ := List.append_inj' hfiles rfl
      cases hsame
      rw [isDenoted_append, not_or, isDenoted_singleton, not_exists] at hlast
      exact .inr ⟨hlast.2, before, q, after, rfl, hq, hlast.1⟩
  · rintro (h | ⟨hnot, before, q, after, rfl, hq, hlast⟩)
    · exact ⟨files, path, [], rfl, h, by simp [IsDenoted]⟩
    · refine ⟨before, q, after ++ [path], by simp, hq, ?_⟩
      rw [isDenoted_append, not_or, isDenoted_singleton, not_exists]
      exact ⟨hlast, hnot⟩

/-- After all files, an entry is what the last one of those with its key holds. -/
theorem mem_addFiles_iff (h : files.foldlM (addFile t project) [] = .ok o) :
    (Members.names o).Nodup ∧ ∀ k d, (k, d) ∈ o ↔ LastDenotes t project files k d := by
  -- The last file is taken off, since it is what hides the others.
  induction files using List.reverseRecOn generalizing o with
  | nil =>
    cases h
    exact ⟨List.nodup_nil, fun k d => by simp [not_lastDenotes_nil]⟩
  | append_singleton files path ih =>
    rw [List.foldlM_append] at h
    obtain ⟨o', hfiles, h⟩ := bind_eq_ok_iff.mp h
    have hlast : addFile t project o' path = .ok o := by
      rwa [List.foldlM_cons, funext fun o => List.foldlM_nil, bind_pure] at h
    obtain ⟨hnodup, hbefore⟩ := ih hfiles
    obtain ⟨hnodup', hmem⟩ := mem_addFile_iff hnodup hlast
    refine ⟨hnodup', fun k d => ?_⟩
    rw [hmem, hbefore, lastDenotes_append_singleton]

theorem isDenoted_iff : IsDenoted t project files k ↔ ∃ d, LastDenotes t project files k d := by
  induction files using List.reverseRecOn with
  | nil => simp [IsDenoted, not_lastDenotes_nil]
  | append_singleton files path ih =>
    rw [isDenoted_append, isDenoted_singleton, ih]
    simp only [lastDenotes_append_singleton, exists_or, exists_and_left]
    by_cases hlast : ∃ d, Denotes t project k d path
    · simp [hlast]
    · simp only [hlast, or_false, false_or]
      exact (and_iff_right (not_exists.mp hlast)).symm

/-! ### Lookups -/

variable {directory : Path} {c : Contract}

theorem entryFor?_collect_iff (h : collect t project directory = .ok o) :
    entryFor? o c = some (k, d) ↔
      LastDenotes t project (t.find directory (Path.hasSuffix ".json")) k d ∧
        (k = c.text ∨ ¬IsDenoted t project (t.find directory (Path.hasSuffix ".json")) c.text ∧
          resembles c k = true ∧
            ∀ k', IsDenoted t project (t.find directory (Path.hasSuffix ".json")) k' →
              resembles c k' = true → k' = k) := by
  obtain ⟨hnodup, hmem⟩ := mem_addFiles_iff h
  have hnames (k : String) : k ∈ Members.names o ↔
      IsDenoted t project (t.find directory (Path.hasSuffix ".json")) k := by
    rw [Members.mem_names_iff, isDenoted_iff]
    exact exists_congr fun d => hmem k d
  rw [entryFor?_eq_some_iff hnodup, hmem]
  simp only [hnames]

/-- Only a later file with the same key hides what a file holds. -/
theorem LastDenotes.hides (h : LastDenotes t project files k d) (hpath : path ∈ files)
    (hdenotes : Denotes t project k d' path) (hne : d' ≠ d) :
    ∃ before after, files = before ++ path :: after ∧
      ∃ later ∈ after, Denotes t project k d later := by
  obtain ⟨before, q, after, rfl, hq, hlast⟩ := h
  rcases List.mem_append.mp hpath with hbefore | hrest
  · obtain ⟨front, back, rfl⟩ := List.append_of_mem hbefore
    exact ⟨front, back ++ q :: after, by simp, q, by simp, hq⟩
  · rcases List.mem_cons.mp hrest with rfl | hafter
    · exact absurd (hdenotes.unique hq) hne
    · exact absurd ⟨path, hafter, d', hdenotes⟩ hlast

/-- Of the artifacts with a contract's own key, or with the only key that resembles the contract, a
lookup finds what the last one holds. Keys that resemble the contract without being its own make it
ambiguous if there are two of them, but files with one key do not: all but the last are hidden,
whatever they hold. The directory of the artifacts is one that the tree leads to, not above it. -/
theorem lookup_in_collected (t : Tree) (project directory : Path) (o : Output) (c : Contract)
    (h : collect t project directory = .ok o) :
    let files := t.find directory (Path.hasSuffix ".json")
    (∀ k d, entryFor? o c = some (k, d) ↔ LastDenotes t project files k d ∧
      (k = c.text ∨ ¬IsDenoted t project files c.text ∧ resembles c k = true ∧
        ∀ k', IsDenoted t project files k' → resembles c k' = true → k' = k)) ∧
    (¬IsDenoted t project files c.text →
      ∀ k₁ k₂, IsDenoted t project files k₁ → IsDenoted t project files k₂ → k₁ ≠ k₂ →
        resembles c k₁ = true → resembles c k₂ = true → entryFor? o c = none) ∧
    ∀ k d, entryFor? o c = some (k, d) → ∀ path ∈ files, ∀ d', Denotes t project k d' path → d' ≠ d →
      ∃ before after, files = before ++ path :: after ∧
        ∃ later ∈ after, Denotes t project k d later := by
  intro files
  have hiff (k : String) (d : Document) := entryFor?_collect_iff (k := k) (d := d) (c := c) h
  refine ⟨hiff, fun hown k₁ k₂ h₁ h₂ hne hlike₁ hlike₂ => ?_, fun k d hfound path hpath d' hd' hne =>
    ((hiff k d).mp hfound).1.hides hpath hd' hne⟩
  rw [Option.eq_none_iff_forall_ne_some]
  rintro ⟨k, d⟩ hfound
  obtain ⟨hlast, rfl | ⟨-, -, honly⟩⟩ := (hiff k d).mp hfound
  · exact hown (isDenoted_iff.mpr ⟨d, hlast⟩)
  · exact hne ((honly k₁ h₁ hlike₁).trans (honly k₂ h₂ hlike₂).symm)

/-! ### Two artifacts with one target -/

/-- The creation code in an entry. -/
def codeOf (entry : Document) : Option String :=
  (entry.at? ["evm", "bytecode", "object"]).map Document.plain

/-- What a file denotes is what it adds to nothing. -/
theorem exists_denotes {code : String}
    (h : ((addFile t project [] path).toOption.bind fun o => o.find? fun e => e.1 == k).bind
      (fun e => codeOf e.2) = some code) :
    ∃ d, Denotes t project k d path ∧ codeOf d = some code := by
  obtain ⟨e, hfound, hcode⟩ := Option.bind_eq_some_iff.mp h
  obtain ⟨o, ho, hfind⟩ := Option.bind_eq_some_iff.mp hfound
  obtain ⟨hnodup, hmem⟩ := mem_addFile_iff (o := []) List.nodup_nil (eq_ok_of_toOption ho)
  obtain ⟨he, rfl⟩ := (Members.find?_name_eq_some_iff hnodup).mp hfind
  rcases (hmem e.1 e.2).mp he with hdenotes | ⟨-, hnil⟩
  · exact ⟨e.2, hdenotes, hcode⟩
  · cases hnil

/-- An artifact that says it was compiled from the counter's source. -/
def counterArtifact (code : String) : String :=
  "\x7b\"bytecode\":\x7b\"object\":\"" ++ code ++ "\"\x7d,\"metadata\":\x7b\"settings\":" ++
    "\x7b\"compilationTarget\":\x7b\"src/Counter.sol\":\"Counter\"\x7d\x7d\x7d\x7d"

def counter : Contract := ⟨"src/Counter.sol", "Counter"⟩

/-- Two artifacts of the same contract with different code. -/
def twice : Tree := .ofFiles
  [("out/a/Counter.json", counterArtifact "0x60"), ("out/b/Counter.json", counterArtifact "0x61")]

theorem find_twice : twice.find ["out"] (Path.hasSuffix ".json") =
    [["out", "a", "Counter.json"], ["out", "b", "Counter.json"]] := by
  have hplace : twice.place? ["out"] = some ["out"] := by decide
  have hsteps : (twice.files.flatMap fun f => Tree.stepsBelow ["out"] f.1).eraseDups =
      [["out", "a"], ["out", "a", "Counter.json"], ["out", "b"], ["out", "b", "Counter.json"]] := by
    decide +kernel
  rw [Tree.find, Tree.below, hplace]
  dsimp only
  rw [hsteps, Path.sort, List.mergeSort_of_pairwise (by decide)]
  decide

theorem exists_denotes_first : ∃ d, Denotes twice ["repo"] counter.text d
    ["out", "a", "Counter.json"] ∧ codeOf d = some "0x60" :=
  exists_denotes (by decide +kernel)

theorem exists_denotes_later : ∃ d, Denotes twice ["repo"] counter.text d
    ["out", "b", "Counter.json"] ∧ codeOf d = some "0x61" :=
  exists_denotes (by decide +kernel)

theorem collect_twice : ∃ o, collect twice ["repo"] ["out"] = .ok o := by
  obtain ⟨d₁, ⟨keys₁, hholds₁, -⟩, -⟩ := exists_denotes_first
  obtain ⟨d₂, ⟨keys₂, hholds₂, -⟩, -⟩ := exists_denotes_later
  rw [collect, find_twice, List.foldlM_cons, addFile_of_holds hholds₁, ok_bind, List.foldlM_cons,
    addFile_of_holds hholds₂, ok_bind]
  exact ⟨_, rfl⟩

theorem lastDenotes_later {d : Document}
    (h : Denotes twice ["repo"] counter.text d ["out", "b", "Counter.json"]) :
    LastDenotes twice ["repo"] (twice.find ["out"] (Path.hasSuffix ".json")) counter.text d := by
  rw [find_twice]
  exact ⟨[["out", "a", "Counter.json"]], _, [], rfl, h, by simp [IsDenoted]⟩

/-- Two artifacts of one contract differ, and what the later one holds is found as if there were no
other. -/
theorem later_artifact_found :
    ∃ o d₁ d₂, collect twice ["repo"] ["out"] = .ok o ∧
      Denotes twice ["repo"] counter.text d₁ ["out", "a", "Counter.json"] ∧
      codeOf d₁ = some "0x60" ∧
      Denotes twice ["repo"] counter.text d₂ ["out", "b", "Counter.json"] ∧
      codeOf d₂ = some "0x61" ∧ entryFor? o counter = some (counter.text, d₂) := by
  obtain ⟨o, ho⟩ := collect_twice
  obtain ⟨d₁, hdenotes₁, hcode₁⟩ := exists_denotes_first
  obtain ⟨d₂, hdenotes₂, hcode₂⟩ := exists_denotes_later
  exact ⟨o, d₁, d₂, ho, hdenotes₁, hcode₁, hdenotes₂, hcode₂,
    (entryFor?_collect_iff ho).mpr ⟨lastDenotes_later hdenotes₂, .inl rfl⟩⟩

theorem lookup_in_collected_twice :
    ∃ o d, collect twice ["repo"] ["out"] = .ok o ∧
      LastDenotes twice ["repo"] (twice.find ["out"] (Path.hasSuffix ".json")) counter.text d ∧
      entryFor? o counter = some (counter.text, d) := by
  obtain ⟨o, ho⟩ := collect_twice
  obtain ⟨d, hdenotes, -⟩ := exists_denotes_later
  have hlast := lastDenotes_later hdenotes
  have hlookup := lookup_in_collected twice ["repo"] ["out"] o counter ho
  exact ⟨o, d, ho, hlast, (hlookup.1 counter.text d).mpr ⟨hlast, .inl rfl⟩⟩

end Build.Forge

end Attest
