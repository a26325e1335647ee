import Attest.Project.Profile
import Attest.Proofs.Outcome
import Mathlib.Data.List.Basic

/-! # Remappings of a profile and of a project

The remappings of a profile keep their places. Those of the project's file come behind them, each once and
in the order in which the file has them first, unless the profile has them already. -/

namespace Attest.Project

variable {own : List Document} {lines added : List String} {line : String}

/-! ## Lines that count -/

/-- The lines of the remappings file without the blanks around them. There are none without a file. -/
def fileLines (t : Tree) : List String :=
  ((t.text? remappingsFile).map fun s => (Text.lines s).map Text.trim).getD []

theorem isRemapping_iff : isRemapping line = true ↔ line ≠ "" ∧ line.toList.head? ≠ some '#' := by
  rw [isRemapping, String.front_eq, String.front?_eq]
  cases h : line.toList with
  | nil =>
    have hempty : line = "" := String.toList_eq_nil_iff.mp h
    simp [hempty]
  | cons c cs =>
    have hne : line ≠ "" := by
      intro hempty
      simp [hempty] at h
    simp [hne]

theorem any_isText_iff : own.any (Document.isText line) = true ↔ .text line ∈ own := by
  have htext (d : Document) : Document.isText line d = true ↔ .text line = d := by
    cases d <;> simp [Document.isText]
  simp [htext]

theorem remappings_eq {t : Tree} {settings : Members}
    (h : ((Members.get? settings "remappings").getD (.list [])).elements = .ok own) :
    remappings t settings = .ok (addLines own ((fileLines t).filter isRemapping)) := by
  rw [remappings, h, Except.ok_bind, fileLines]
  cases t.text? remappingsFile with
  | none => rfl
  | some s => rfl

/-! ## Lines that are added -/

/-- Lines come first in the same order with another one in front of all. -/
theorem pairwise_idxOf_cons (h : added.Pairwise fun a b => lines.idxOf a < lines.idxOf b)
    (hne : ∀ a ∈ added, line ≠ a) :
    added.Pairwise fun a b => (line :: lines).idxOf a < (line :: lines).idxOf b := by
  apply h.imp_of_mem
  intro a b ha hb hlt
  rw [List.idxOf_cons_ne _ (hne a ha), List.idxOf_cons_ne _ (hne b hb)]
  exact Nat.succ_lt_succ hlt

/-- The lines that are not there yet, each once, in the order in which they occur first. -/
structure Adds (own : List Document) (lines added : List String) : Prop where
  mem_iff (line : String) : line ∈ added ↔ line ∈ lines ∧ isRemapping line = true ∧ .text line ∉ own
  ordered : added.Pairwise fun a b => lines.idxOf a < lines.idxOf b

namespace Adds

theorem nodup (h : Adds own lines added) : added.Nodup :=
  h.ordered.imp fun hlt heq => by simp [heq] at hlt

/-- A line that is no remapping, or that is there already, changes nothing. -/
theorem skip (h : Adds own lines added) (hline : isRemapping line = true → .text line ∈ own) :
    Adds own (line :: lines) added := by
  have hne : ∀ a ∈ added, line ≠ a := by
    rintro a ha rfl
    obtain ⟨-, hcounts, hnew⟩ := (h.mem_iff line).mp ha
    exact hnew (hline hcounts)
  constructor
  · intro a
    rw [h.mem_iff, List.mem_cons]
    constructor
    · rintro ⟨hmem, hcounts, hnew⟩
      exact ⟨.inr hmem, hcounts, hnew⟩
    · rintro ⟨rfl | hmem, hcounts, hnew⟩
      · exact absurd (hline hcounts) hnew
      · exact ⟨hmem, hcounts, hnew⟩
  · exact pairwise_idxOf_cons h.ordered hne

/-- A new line comes before those that are added after it. -/
theorem cons (h : Adds (own ++ [.text line]) lines added) (hcounts : isRemapping line = true)
    (hnew : .text line ∉ own) : Adds own (line :: lines) (line :: added) := by
  have hne : ∀ a ∈ added, line ≠ a := by
    rintro a ha rfl
    obtain ⟨-, -, hfresh⟩ := (h.mem_iff line).mp ha
    exact hfresh (by simp)
  constructor
  · intro a
    rw [List.mem_cons, List.mem_cons, h.mem_iff]
    constructor
    · rintro (rfl | ⟨hmem, hremapping, hfresh⟩)
      · exact ⟨.inl rfl, hcounts, hnew⟩
      · exact ⟨.inr hmem, hremapping, fun hown => hfresh (by simp [hown])⟩
    · rintro ⟨rfl | hmem, hremapping, hfresh⟩
      · exact .inl rfl
      · by_cases ha : a = line
        · exact .inl ha
        · exact .inr ⟨hmem, hremapping, by simpa [ha] using hfresh⟩
  · apply List.pairwise_cons.mpr
    constructor
    · intro a ha
      rw [List.idxOf_cons_self, List.idxOf_cons_ne _ (hne a ha)]
      exact Nat.succ_pos _
    · exact pairwise_idxOf_cons h.ordered hne

end Adds

theorem exists_adds (own : List Document) (lines : List String) :
    ∃ added : List String,
      addLines own (lines.filter isRemapping) = own ++ added.map .text ∧ Adds own lines added := by
  induction lines generalizing own with
  | nil => exact ⟨[], by simp [addLines], by constructor <;> simp⟩
  | cons line lines ih =>
    by_cases hcounts : isRemapping line = true
    · rw [List.filter_cons_of_pos hcounts, addLines]
      by_cases hthere : .text line ∈ own
      · obtain ⟨added, hresult, hadds⟩ := ih own
        rw [if_pos (any_isText_iff.mpr hthere)]
        exact ⟨added, hresult, hadds.skip fun _ => hthere⟩
      · obtain ⟨added, hresult, hadds⟩ := ih (own ++ [.text line])
        rw [if_neg (by rwa [any_isText_iff]), hresult]
        exact ⟨line :: added, by simp, hadds.cons hcounts hthere⟩
    · obtain ⟨added, hresult, hadds⟩ := ih own
      rw [List.filter_cons_of_neg hcounts]
      exact ⟨added, hresult, hadds.skip fun h => absurd h hcounts⟩

theorem addLines_eq_self (h : ∀ line ∈ lines, .text line ∈ own) : addLines own lines = own := by
  induction lines with
  | nil => rfl
  | cons line lines ih =>
    obtain ⟨hline, hlines⟩ := List.forall_mem_cons.mp h
    rw [addLines, if_pos (any_isText_iff.mpr hline)]
    exact ih hlines

/-- The remappings of a profile are followed by the lines of the file that say something and are not among
them, each once and in the order in which they occur first. A profile with all of these has nothing
added. -/
theorem remappings_merge {t : Tree} {settings : Members} {own : List Document}
    (h : ((Members.get? settings "remappings").getD (.list [])).elements = .ok own) :
    ∃ added : List String,
      remappings t settings = .ok (own ++ added.map .text) ∧ added.Nodup ∧
      (∀ line, line ∈ added ↔
        line ∈ fileLines t ∧ line ≠ "" ∧ line.toList.head? ≠ some '#' ∧ .text line ∉ own) ∧
      added.Pairwise (fun a b => (fileLines t).idxOf a < (fileLines t).idxOf b) ∧
      ∀ merged, Members.get? merged "remappings" = some (.list (own ++ added.map .text)) →
        remappings t merged = .ok (own ++ added.map .text) := by
  obtain ⟨added, hresult, hadds⟩ := exists_adds own (fileLines t)
  refine ⟨added, ?_, hadds.nodup, ?_, hadds.ordered, ?_⟩
  · rw [remappings_eq h, hresult]
  · intro line
    rw [hadds.mem_iff, isRemapping_iff, and_assoc]
  · intro merged hmerged
    have hall : ∀ line ∈ (fileLines t).filter isRemapping, .text line ∈ own ++ added.map .text := by
      intro line hline
      obtain ⟨hmem, hcounts⟩ := List.mem_filter.mp hline
      by_cases hthere : .text line ∈ own
      · exact List.mem_append_left _ hthere
      · apply List.mem_append_right
        exact List.mem_map_of_mem ((hadds.mem_iff line).mpr ⟨hmem, hcounts, hthere⟩)
    rw [remappings_eq (by rw [hmerged]; rfl), addLines_eq_self hall]

/-- A file with a comment, an empty line, a line that the profile has, and two that are the same but for
blanks. -/
def remappingsTree : Tree :=
  .ofFiles [("remappings.txt",
    " forge/=lib/forge/\n# local\n\nds/=lib/ds/\r\noz/=lib/oz/\nforge/=lib/forge/\t\n")]

theorem remappings_merge_repeated :
    ((Members.get? [("remappings", .list [.text "ds/=lib/ds/"])] "remappings").getD
      (.list [])).elements = .ok [.text "ds/=lib/ds/"] ∧
    fileLines remappingsTree =
      ["forge/=lib/forge/", "# local", "", "ds/=lib/ds/", "oz/=lib/oz/", "forge/=lib/forge/"] ∧
    ∃ added : List String,
      remappings remappingsTree [("remappings", .list [.text "ds/=lib/ds/"])] =
        .ok ([.text "ds/=lib/ds/"] ++ added.map .text) ∧ added.Nodup ∧
      (∀ line, line ∈ added ↔ line ∈ fileLines remappingsTree ∧ line ≠ "" ∧
        line.toList.head? ≠ some '#' ∧ .text line ∉ [Document.text "ds/=lib/ds/"]) ∧
      added.Pairwise
        (fun a b => (fileLines remappingsTree).idxOf a < (fileLines remappingsTree).idxOf b) ∧
      ∀ merged, Members.get? merged "remappings" =
          some (.list ([.text "ds/=lib/ds/"] ++ added.map .text)) →
        remappings remappingsTree merged = .ok ([.text "ds/=lib/ds/"] ++ added.map .text) :=
  ⟨rfl, by decide +kernel, remappings_merge rfl⟩

end Attest.Project
