import Attest.Proofs.ReorderedDocuments

/-! # What can be written

A document can be written if none of its integers is too long and there is room for all its levels, and
else it cannot. What stops the writing first does not depend on the order of members. -/

namespace Attest.Json

open Document

variable {indent : Indent} {room : Nat} {d d' : Document} {defect : Defect}

theorem itemObstacle?_eq (indent : Indent) (room : Nat) (xs : List Document) :
    itemObstacle? indent room xs = (xs.map (obstacle? indent room)).findSome? id := by
  induction xs with
  | nil => rfl
  | cons x xs ih =>
    rw [itemObstacle?, ih, List.map_cons, List.findSome?_cons]
    cases obstacle? indent room x <;> rfl

theorem memberObstacles_eq_map (indent : Indent) (room : Nat) (ms : Members) :
    memberObstacles indent room ms = ms.map (Prod.map id (obstacle? indent room)) := by
  induction ms with
  | nil => rfl
  | cons m ms ih =>
    obtain ⟨name, v⟩ := m
    rw [memberObstacles, memberObstacle, ih, List.map_cons, Prod.map_apply, id]

/-! ### Levels -/

@[simp] theorem obstacle?_list_zero (xs : List Document) :
    obstacle? indent 0 (.list xs) = some (.tooDeep (activity indent)) := by
  rw [obstacle?, Nesting.enter_one_zero]

theorem obstacle?_list_succ (xs : List Document) :
    obstacle? indent (room + 1) (.list xs) = (xs.map (obstacle? indent room)).findSome? id := by
  rw [obstacle?, Nesting.enter_one_succ]
  exact itemObstacle?_eq indent room xs

@[simp] theorem obstacle?_object_zero (ms : Members) :
    obstacle? indent 0 (.object ms) = some (.tooDeep (activity indent)) := by
  rw [obstacle?, Nesting.enter_one_zero]

theorem obstacle?_object_succ (ms : Members) :
    obstacle? indent (room + 1) (.object ms) =
      (Members.ordered (ms.map (Prod.map id (obstacle? indent room)))).findSome? (·.2) := by
  rw [obstacle?, Nesting.enter_one_succ, ← memberObstacles_eq_map]
  rfl

/-! ### What stops the writing -/

theorem obstacle?_eq_none_iff : obstacle? indent room d = none ↔
    (∀ i ∈ d.integers, Numeral.isWritable i) ∧ d.levels ≤ room := by
  induction d using Document.induction generalizing room with
  | int i => simp [obstacle?, integers, levels]
  | list xs ih =>
    cases room with
    | zero => simp [levels]
    | succ room =>
      rw [obstacle?_list_succ, List.findSome?_eq_none_iff, List.forall_mem_map,
        forall_mem_integers_list, levels, Nat.succ_le_succ_iff, itemLevels_le_iff, ← forall₂_and]
      exact forall₂_congr fun x hx => ih x hx
  | object ms ih =>
    cases room with
    | zero => simp [levels]
    | succ room =>
      rw [obstacle?_object_succ, List.findSome?_eq_none_iff, forall_mem_integers_object, levels,
        Nat.succ_le_succ_iff, memberLevels_le_iff, ← forall₂_and, ← Members.map_ordered,
        List.forall_mem_map]
      simp only [Members.mem_ordered]
      exact forall₂_congr fun m hm => ih m hm
  | _ => simp [obstacle?, integers, levels]

/-- What stands in the way of a document where there is some room: an integer that is too long, or a level
too many. -/
def Stops (indent : Indent) (room : Nat) (d : Document) (defect : Defect) : Prop :=
  (defect = .badValue Numeral.unwritableText ∧ ¬∀ i ∈ d.integers, Numeral.isWritable i) ∨
    (defect = .tooDeep (activity indent) ∧ room < d.levels)

/-- What stops a part one level further down stops the whole. -/
theorem Stops.of_part {part : Document} (h : Stops indent room part defect)
    (hintegers : (∀ i ∈ d.integers, Numeral.isWritable i) → ∀ i ∈ part.integers, Numeral.isWritable i)
    (hlevels : part.levels < d.levels) : Stops indent (room + 1) d defect := by
  apply h.imp
  · exact And.imp_right fun hlong hall => hlong (hintegers hall)
  · exact And.imp_right fun hdeep => Nat.lt_of_le_of_lt hdeep hlevels

theorem stops_of_obstacle? (h : obstacle? indent room d = some defect) :
    Stops indent room d defect := by
  induction d using Document.induction generalizing room with
  | int i =>
    rw [obstacle?] at h
    split at h
    · cases h
    · next hlong =>
      cases h
      exact .inl ⟨rfl, by simpa [integers] using hlong⟩
  | list xs ih =>
    cases room with
    | zero =>
      rw [obstacle?_list_zero] at h
      cases h
      exact .inr ⟨rfl, Nat.succ_pos _⟩
    | succ room =>
      rw [obstacle?_list_succ] at h
      obtain ⟨found, hfound, hx⟩ := List.exists_of_findSome?_eq_some h
      obtain ⟨x, hmem, rfl⟩ := List.mem_map.mp hfound
      apply (ih x hmem hx).of_part
      · exact fun hall => forall_mem_integers_list.mp hall x hmem
      · rw [levels]
        exact Nat.lt_succ_of_le (itemLevels_le_iff.mp (Nat.le_refl _) x hmem)
  | object ms ih =>
    cases room with
    | zero =>
      rw [obstacle?_object_zero] at h
      cases h
      exact .inr ⟨rfl, Nat.succ_pos _⟩
    | succ room =>
      rw [obstacle?_object_succ] at h
      obtain ⟨found, hfound, hm⟩ := List.exists_of_findSome?_eq_some h
      obtain ⟨m, hmem, rfl⟩ := List.mem_map.mp (Members.mem_ordered.mp hfound)
      apply (ih m hmem hm).of_part
      · exact fun hall => forall_mem_integers_object.mp hall m hmem
      · rw [levels]
        exact Nat.lt_succ_of_le (memberLevels_le_iff.mp (Nat.le_refl _) m hmem)
  | _ => simp [obstacle?] at h

theorem obstacle?_eq_of_reordered (h : Reordered d d') (hplain : IsPlain d) (indent : Indent)
    (room : Nat) : obstacle? indent room d = obstacle? indent room d' := by
  induction h generalizing room with
  | same d => rfl
  | @list xs ys length items ih =>
    cases room with
    | zero => rw [obstacle?_list_zero, obstacle?_list_zero]
    | succ room =>
      rw [isPlain_list] at hplain
      have hitems : xs.map (obstacle? indent room) = ys.map (obstacle? indent room) :=
        map_eq_of_items length fun i x y hx hy =>
          ih i x y hx hy (hplain x (List.mem_of_getElem? hx)) room
      rw [obstacle?_list_succ, obstacle?_list_succ, hitems]
  | @object ms ns names values ih =>
    cases room with
    | zero => rw [obstacle?_object_zero, obstacle?_object_zero]
    | succ room =>
      obtain ⟨hnodup, hplain⟩ := isPlain_object.mp hplain
      have hordered := Members.ordered_map_eq names hnodup fun m hm n hn hname =>
        ih m hm n hn hname (hplain m hm) room
      rw [obstacle?_object_succ, obstacle?_object_succ, hordered]

/-! ### The text -/

theorem write_eq_ok_iff {text : String} : write room indent d = .ok text ↔
    ((∀ i ∈ d.integers, Numeral.isWritable i) ∧ d.levels ≤ room) ∧ render indent d = text := by
  rw [← obstacle?_eq_none_iff, write]
  cases obstacle? indent room d with
  | none => simp
  | some defect => simp

theorem stops_of_write (h : write room indent d = .error defect) : Stops indent room d defect := by
  rw [write] at h
  split at h
  · next hobstacle =>
    cases h
    exact stops_of_obstacle? hobstacle
  · cases h

/-- Documents that differ only in the order of members have the same text, or cannot be written for the
same reason. -/
theorem write_eq_of_reordered (h : Reordered d d') (hplain : IsPlain d) (room : Nat)
    (indent : Indent) : write room indent d = write room indent d' := by
  rw [write, write, obstacle?_eq_of_reordered h hplain, render, render,
    writeChars_eq_of_reordered h hplain]

end Attest.Json
