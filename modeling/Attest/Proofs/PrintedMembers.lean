import Mathlib.Data.List.Basic
import Attest.Json.Writer

/-! # Members in printed documents

The order of an object's members depends on their names only. Two objects that differ in one member
therefore print the same only if this member does, and two lists that differ in one item only if this
item does. -/

namespace Attest.Json

/-- What stands before and after a part does not depend on the part. -/
theorem exists_intercalate {α : Type*} (sep : List α) (before after : List (List α)) :
    ∃ front back, ∀ part, sep.intercalate (before ++ part :: after) = front ++ part ++ back := by
  induction before with
  | nil =>
    cases after with
    | nil => exact ⟨[], [], fun part => by simp⟩
    | cons next after =>
      exact ⟨[], sep ++ sep.intercalate (next :: after), fun part => by simp⟩
  | cons first before ih =>
    obtain ⟨front, back, h⟩ := ih
    refine ⟨first ++ sep ++ front, back, fun part => ?_⟩
    obtain ⟨second, rest, hrest⟩ := List.exists_cons_of_ne_nil
      (List.append_ne_nil_of_right_ne_nil before (List.cons_ne_nil part after))
    rw [List.cons_append, hrest, List.intercalate_cons_cons, ← hrest, h]
    simp only [List.append_assoc]

theorem exists_bracketed (indent : Indent) (depth : Nat) (opening closing : Char)
    (before after : List (List Char)) :
    ∃ front back, ∀ part, bracketed indent depth opening closing (before ++ part :: after) =
      front ++ part ++ back := by
  obtain ⟨front, back, h⟩ := exists_intercalate (separator indent (depth + 1)) before after
  refine ⟨opening :: newline indent (depth + 1) ++ front, back ++ newline indent depth ++ [closing],
    fun part => ?_⟩
  rw [bracketed, h]
  · simp only [List.append_assoc, List.cons_append]
  · exact List.append_ne_nil_of_right_ne_nil before (List.cons_ne_nil part after)

/-- A part whose content may be left open, with the content put in. -/
def fill (content : List Char) (part : String × Option (List Char)) : String × List Char :=
  (part.1, part.2.getD content)

theorem map_fill_some (content : List Char) (parts : List (String × List Char)) :
    (parts.map (Prod.map id some)).map (fill content) = parts := by
  rw [List.map_map]
  exact List.map_id parts

/-- The order of names does not look at contents. -/
theorem inNameOrder_map_fill (content : List Char) (parts : List (String × Option (List Char))) :
    inNameOrder (parts.map (fill content)) =
      (parts.mergeSort fun a b => !decide (b.1 < a.1)).map (fill content) :=
  (List.map_mergeSort (f := fill content) fun _ _ _ _ => rfl).symm

/-- Where a part stands in the order of names does not depend on its content. -/
theorem exists_inNameOrder (before after : List (String × List Char)) (name : String) :
    ∃ front back, ∀ content, inNameOrder (before ++ (name, content) :: after) =
      front ++ (name, content) :: back := by
  have hperm := List.mergeSort_perm
    (before.map (Prod.map id some) ++ (name, none) :: after.map (Prod.map id some))
    fun a b => !decide (b.1 < a.1)
  obtain ⟨front, back, hsorted⟩ := List.append_of_mem
    (hperm.mem_iff.mpr (List.mem_append_right _ List.mem_cons_self))
  -- the open part is the only one, so that the others are as they were
  rw [hsorted] at hperm
  have hrest : (front ++ back).Perm
      (before.map (Prod.map id some) ++ after.map (Prod.map id some)) :=
    (List.perm_cons _).mp (List.perm_middle.symm.trans (hperm.trans List.perm_middle))
  have hclosed {part : String × Option (List Char)} (h : part ∈ front ++ back)
      (content : List Char) : fill content part = fill [] part := by
    rw [hrest.mem_iff, ← List.map_append] at h
    obtain ⟨plain, _, rfl⟩ := List.mem_map.mp h
    rfl
  refine ⟨front.map (fill []), back.map (fill []), fun content => ?_⟩
  have hfilled := inNameOrder_map_fill content
    (before.map (Prod.map id some) ++ (name, none) :: after.map (Prod.map id some))
  rw [hsorted, List.map_append, List.map_append, List.map_cons, List.map_cons, map_fill_some,
    map_fill_some] at hfilled
  refine hfilled.trans ?_
  rw [List.map_congr_left fun part h => hclosed (List.mem_append_left _ h) content,
    List.map_congr_left fun part h => hclosed (List.mem_append_right _ h) content]
  rfl

theorem writeMembers_append (indent : Indent) (depth : Nat) (before after : List (String × Document)) :
    writeMembers indent depth (before ++ after) =
      writeMembers indent depth before ++ writeMembers indent depth after := by
  induction before with
  | nil => rfl
  | cons m before ih => rw [List.cons_append, writeMembers, writeMembers, ih, List.cons_append]

/-- Objects that differ in one member print the same only if this member does. -/
theorem member_of_writeChars {indent : Indent} {depth : Nat} {name : String}
    {before after : List (String × Document)} {v v' : Document}
    (h : writeChars indent depth (.object (before ++ (name, v) :: after)) =
      writeChars indent depth (.object (before ++ (name, v') :: after))) :
    writeChars indent (depth + 1) v = writeChars indent (depth + 1) v' := by
  obtain ⟨front, back, horder⟩ := exists_inNameOrder (writeMembers indent (depth + 1) before)
    (writeMembers indent (depth + 1) after) name
  obtain ⟨left, right, hbracketed⟩ := exists_bracketed indent depth '\x7b' '\x7d'
    (front.map namedPart) (back.map namedPart)
  have hwritten (v : Document) :
      writeChars indent depth (.object (before ++ (name, v) :: after)) =
        left ++ namedPart (name, writeChars indent (depth + 1) v) ++ right := by
    rw [writeChars, writeMembers_append, writeMembers, writeMember, horder, List.map_append,
      List.map_cons, hbracketed]
  rw [hwritten, hwritten] at h
  have hpart := List.append_cancel_left (List.append_cancel_right h)
  exact List.tail_eq_of_cons_eq (List.tail_eq_of_cons_eq (List.append_cancel_left hpart))

theorem writeItems_append (indent : Indent) (depth : Nat) (before after : List Document) :
    writeItems indent depth (before ++ after) =
      writeItems indent depth before ++ writeItems indent depth after := by
  induction before with
  | nil => rfl
  | cons x before ih => rw [List.cons_append, writeItems, writeItems, ih, List.cons_append]

/-- Lists that differ in one item print the same only if this item does. -/
theorem item_of_writeChars {indent : Indent} {depth : Nat} {before after : List Document}
    {v v' : Document}
    (h : writeChars indent depth (.list (before ++ v :: after)) =
      writeChars indent depth (.list (before ++ v' :: after))) :
    writeChars indent (depth + 1) v = writeChars indent (depth + 1) v' := by
  obtain ⟨left, right, hbracketed⟩ := exists_bracketed indent depth '[' ']'
    (writeItems indent (depth + 1) before) (writeItems indent (depth + 1) after)
  have hwritten (v : Document) :
      writeChars indent depth (.list (before ++ v :: after)) =
        left ++ writeChars indent (depth + 1) v ++ right := by
    rw [writeChars, writeItems_append, writeItems, hbracketed]
  rw [hwritten, hwritten] at h
  exact List.append_cancel_left (List.append_cancel_right h)

end Attest.Json
