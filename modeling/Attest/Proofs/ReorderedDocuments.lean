import Attest.Json.Writer
import Mathlib.Data.List.Nodup

/-! # Documents up to the order of members

Documents that differ only in the order in which their objects hold their members, at any depth, are
written as the same text. Among them is one whose members are in order throughout. -/

namespace Attest

/-- Lists that hold alike at each place. -/
theorem map_eq_of_items {α β : Type} {f : α → β} {xs ys : List α} (hlength : xs.length = ys.length)
    (h : ∀ (i : Nat) x y, xs[i]? = some x → ys[i]? = some y → f x = f y) : xs.map f = ys.map f := by
  apply List.ext_getElem
  · rw [List.length_map, List.length_map, hlength]
  · intro i hx hy
    rw [List.length_map] at hx hy
    rw [List.getElem_map, List.getElem_map]
    exact h i _ _ (List.getElem?_eq_getElem hx) (List.getElem?_eq_getElem hy)

namespace Members

variable {α : Type} {ms ns : List (String × α)}

/-- Members in the order of their names. -/
def ordered (ms : List (String × α)) : List (String × α) :=
  ms.mergeSort fun m n => !decide (n.1 < m.1)

theorem ordered_perm (ms : List (String × α)) : (ordered ms).Perm ms := List.mergeSort_perm ms _

@[simp] theorem mem_ordered {m : String × α} : m ∈ ordered ms ↔ m ∈ ms := (ordered_perm ms).mem_iff

theorem map_ordered {β : Type} (f : α → β) (ms : List (String × α)) :
    (ordered ms).map (Prod.map id f) = ordered (ms.map (Prod.map id f)) :=
  List.map_mergeSort fun _ _ _ _ => rfl

theorem pairwise_ordered (ms : List (String × α)) :
    (ordered ms).Pairwise fun m n => ¬n.1 < m.1 := by
  have hbefore (m n : String × α) : (!decide (n.1 < m.1)) = true ↔ ¬n.1 < m.1 := by
    rw [Bool.not_eq_true', decide_eq_false_iff_not]
  have hsorted : (ordered ms).Pairwise fun m n => (!decide (n.1 < m.1)) = true := by
    refine List.pairwise_mergeSort (fun l m n hlm hmn => ?_) (fun m n => ?_) ms
    · rw [hbefore] at hlm hmn ⊢
      exact String.le_trans hlm hmn
    · rw [Bool.or_eq_true, hbefore, hbefore]
      exact String.le_total m.1 n.1
  exact hsorted.imp fun {m n} => (hbefore m n).mp

/-- Members of different names have one order only. -/
theorem ordered_eq_of_perm (h : ms.Perm ns) (hnames : (ms.map (·.1)).Nodup) :
    ordered ms = ordered ns := by
  have hperm : (ordered ms).Perm (ordered ns) :=
    (ordered_perm ms).trans (h.trans (ordered_perm ns).symm)
  refine hperm.eq_of_pairwise (fun m n hm hn hmn hnm => ?_) (pairwise_ordered ms)
    (pairwise_ordered ns)
  exact List.inj_on_of_nodup_map hnames (mem_ordered.mp hm) (h.mem_iff.mpr (mem_ordered.mp hn))
    (String.le_antisymm hmn hnm)

/-- Members of different names that hold the same under each name are the same up to their order. -/
theorem perm_of_names (hnames : (ms.map (·.1)).Perm (ns.map (·.1))) (hnodup : (ms.map (·.1)).Nodup)
    (h : ∀ m ∈ ms, ∀ n ∈ ns, m.1 = n.1 → m.2 = n.2) : ms.Perm ns := by
  have hnodup' : (ns.map (·.1)).Nodup := hnames.nodup_iff.mp hnodup
  refine (List.perm_ext_iff_of_nodup hnodup.of_map hnodup'.of_map).mpr fun m => ?_
  constructor
  · intro hm
    obtain ⟨n, hn, hname⟩ := List.mem_map.mp (hnames.mem_iff.mp (List.mem_map_of_mem hm))
    rwa [Prod.ext hname.symm (h m hm n hn hname.symm)]
  · intro hm
    obtain ⟨n, hn, hname⟩ := List.mem_map.mp (hnames.mem_iff.mpr (List.mem_map_of_mem hm))
    rwa [← Prod.ext hname (h n hn m hm hname)]

/-- Members of different names that hold alike under each name are alike in order. -/
theorem ordered_map_eq {β : Type} {f : α → β} (hnames : (ms.map (·.1)).Perm (ns.map (·.1)))
    (hnodup : (ms.map (·.1)).Nodup) (h : ∀ m ∈ ms, ∀ n ∈ ns, m.1 = n.1 → f m.2 = f n.2) :
    ordered (ms.map (Prod.map id f)) = ordered (ns.map (Prod.map id f)) := by
  have hfst (ms : List (String × α)) : (ms.map (Prod.map id f)).map (·.1) = ms.map (·.1) := by
    rw [List.map_map]
    rfl
  apply ordered_eq_of_perm
  · apply perm_of_names
    · rwa [hfst, hfst]
    · rwa [hfst]
    · intro part hpart part' hpart' hname
      obtain ⟨m, hm, rfl⟩ := List.mem_map.mp hpart
      obtain ⟨n, hn, rfl⟩ := List.mem_map.mp hpart'
      exact h m hm n hn hname
  · rwa [hfst]

end Members

namespace Document

/-- Documents with the same items and members, but not the same order of members. -/
inductive Reordered : Document → Document → Prop where
  | same (d : Document) : Reordered d d
  | list {xs ys : List Document} (length : xs.length = ys.length)
      (items : ∀ (i : Nat) (x y : Document), xs[i]? = some x → ys[i]? = some y → Reordered x y) :
      Reordered (.list xs) (.list ys)
  | object {ms ns : Members} (names : ms.names.Perm ns.names)
      (values : ∀ m ∈ ms, ∀ n ∈ ns, m.1 = n.1 → Reordered m.2 n.2) :
      Reordered (.object ms) (.object ns)

/-- A property of all documents, from the items of lists and the values of objects upwards. -/
@[elab_as_elim]
theorem induction {p : Document → Prop} (null : p null) (bool : ∀ b, p (bool b))
    (int : ∀ i, p (int i)) (float : ∀ x, p (float x)) (text : ∀ s, p (text s))
    (list : ∀ xs, (∀ x ∈ xs, p x) → p (list xs))
    (object : ∀ ms, (∀ m ∈ ms, p m.2) → p (object ms)) (d : Document) : p d :=
  @Document.rec p (fun xs => ∀ x ∈ xs, p x) (fun ms => ∀ m ∈ ms, p m.2) (fun m => p m.2)
    null bool int float text list object (fun _ h => nomatch h)
    (fun _ _ hx hxs => List.forall_mem_cons.mpr ⟨hx, hxs⟩) (fun _ h => nomatch h)
    (fun _ _ hm hms => List.forall_mem_cons.mpr ⟨hm, hms⟩) (fun _ _ h => h) d

/-- Documents without doubles whose objects hold each name once. -/
inductive IsPlain : Document → Prop where
  | null : IsPlain .null
  | bool (b : Bool) : IsPlain (.bool b)
  | int (i : Int) : IsPlain (.int i)
  | text (s : String) : IsPlain (.text s)
  | list {xs : List Document} (items : ∀ x ∈ xs, IsPlain x) : IsPlain (.list xs)
  | object {ms : Members} (names : ms.names.Nodup) (values : ∀ m ∈ ms, IsPlain m.2) :
      IsPlain (.object ms)

theorem isPlain_list {xs : List Document} : IsPlain (.list xs) ↔ ∀ x ∈ xs, IsPlain x :=
  ⟨fun | .list items => items, .list⟩

theorem isPlain_object {ms : Members} :
    IsPlain (.object ms) ↔ ms.names.Nodup ∧ ∀ m ∈ ms, IsPlain m.2 :=
  ⟨fun | .object names values => ⟨names, values⟩, fun h => .object h.1 h.2⟩

/-- Members that are the same but not in the same order. -/
theorem Reordered.of_perm {ms ns : Members} (h : ms.Perm ns) (hnames : ms.names.Nodup) :
    Reordered (.object ms) (.object ns) := by
  refine .object (h.map _) fun m hm n hn hname => ?_
  rw [List.inj_on_of_nodup_map hnames hm (h.mem_iff.mpr hn) hname]
  exact .same n.2

/-! ### Depth and integers -/

mutual
/-- How many lists and objects stand inside one another. -/
def levels : Document → Nat
  | list xs => itemLevels xs + 1
  | object ms => memberLevels ms + 1
  | _ => 0

def itemLevels : List Document → Nat
  | [] => 0
  | x :: xs => max x.levels (itemLevels xs)

def memberLevels : List (String × Document) → Nat
  | [] => 0
  | (_, v) :: ms => max v.levels (memberLevels ms)
end

theorem itemLevels_le_iff {xs : List Document} {n : Nat} :
    itemLevels xs ≤ n ↔ ∀ x ∈ xs, x.levels ≤ n := by
  induction xs with
  | nil => simp [itemLevels]
  | cons x xs ih => rw [itemLevels, Nat.max_le, ih, List.forall_mem_cons]

theorem memberLevels_le_iff {ms : Members} {n : Nat} :
    memberLevels ms ≤ n ↔ ∀ m ∈ ms, m.2.levels ≤ n := by
  induction ms with
  | nil => simp [memberLevels]
  | cons m ms ih => rw [memberLevels, Nat.max_le, ih, List.forall_mem_cons]

mutual
/-- The integers that stand anywhere in a document. -/
def integers : Document → List Int
  | int i => [i]
  | list xs => itemIntegers xs
  | object ms => memberIntegers ms
  | _ => []

def itemIntegers : List Document → List Int
  | [] => []
  | x :: xs => x.integers ++ itemIntegers xs

def memberIntegers : List (String × Document) → List Int
  | [] => []
  | (_, v) :: ms => v.integers ++ memberIntegers ms
end

@[simp] theorem forall_mem_integers_list {xs : List Document} {p : Int → Prop} :
    (∀ i ∈ (list xs).integers, p i) ↔ ∀ x ∈ xs, ∀ i ∈ x.integers, p i := by
  rw [integers]
  induction xs with
  | nil => simp [itemIntegers]
  | cons x xs ih => rw [itemIntegers, List.forall_mem_append, ih, List.forall_mem_cons]

@[simp] theorem forall_mem_integers_object {ms : Members} {p : Int → Prop} :
    (∀ i ∈ (object ms).integers, p i) ↔ ∀ m ∈ ms, ∀ i ∈ m.2.integers, p i := by
  rw [integers]
  induction ms with
  | nil => simp [memberIntegers]
  | cons m ms ih => rw [memberIntegers, List.forall_mem_append, ih, List.forall_mem_cons]

/-! ### The order of names throughout -/

mutual
/-- The document with the members of every object in the order of their names. -/
def sorted : Document → Document
  | list xs => .list (sortedItems xs)
  | object ms => .object (Members.ordered (sortedMembers ms))
  | d => d

def sortedItems : List Document → List Document
  | [] => []
  | x :: xs => x.sorted :: sortedItems xs

def sortedMembers : List (String × Document) → List (String × Document)
  | [] => []
  | (name, v) :: ms => (name, v.sorted) :: sortedMembers ms
end

theorem sorted_list (xs : List Document) : (list xs).sorted = .list (xs.map sorted) := by
  have hitems : sortedItems xs = xs.map sorted := by
    induction xs with
    | nil => rfl
    | cons x xs ih => rw [sortedItems, ih, List.map_cons]
  rw [sorted, hitems]

theorem sorted_object (ms : Members) :
    (object ms).sorted = .object ((Members.ordered ms).map (Prod.map id sorted)) := by
  have hmembers : sortedMembers ms = ms.map (Prod.map id sorted) := by
    induction ms with
    | nil => rfl
    | cons m ms ih => rw [sortedMembers, ih, List.map_cons]; rfl
  rw [sorted, hmembers, Members.map_ordered]

theorem IsPlain.reordered_sorted {d : Document} (h : IsPlain d) : Reordered d d.sorted := by
  induction h with
  | null => exact .same _
  | bool b => exact .same _
  | int i => exact .same _
  | text s => exact .same _
  | @list xs items ih =>
    rw [sorted_list]
    refine .list (List.length_map _).symm fun i x y hx hy => ?_
    rw [List.getElem?_map, hx] at hy
    cases hy
    exact ih x (List.mem_of_getElem? hx)
  | @object ms names values ih =>
    rw [sorted_object]
    refine .object ?_ fun m hm n hn hname => ?_
    · rw [Members.names, Members.names, List.map_map]
      exact ((Members.ordered_perm ms).map _).symm
    · obtain ⟨k, hk, rfl⟩ := List.mem_map.mp hn
      obtain rfl : m = k := List.inj_on_of_nodup_map names hm (Members.mem_ordered.mp hk) hname
      exact ih m hm

end Document

namespace Json

open Document

theorem writeItems_eq_map (indent : Indent) (depth : Nat) (xs : List Document) :
    writeItems indent depth xs = xs.map (writeChars indent depth) := by
  induction xs with
  | nil => rfl
  | cons x xs ih => rw [writeItems, ih, List.map_cons]

theorem writeMembers_eq_map (indent : Indent) (depth : Nat) (ms : Members) :
    writeMembers indent depth ms = ms.map (Prod.map id (writeChars indent depth)) := by
  induction ms with
  | nil => rfl
  | cons m ms ih =>
    obtain ⟨name, v⟩ := m
    rw [writeMembers, writeMember, ih, List.map_cons, Prod.map_apply, id]

/-- Documents that differ only in the order of members are written alike. -/
theorem writeChars_eq_of_reordered {d d' : Document} (h : Reordered d d') (hplain : IsPlain d)
    (indent : Indent) (depth : Nat) : writeChars indent depth d = writeChars indent depth d' := by
  induction h generalizing depth with
  | same d => rfl
  | @list xs ys length items ih =>
    rw [isPlain_list] at hplain
    have hitems :
        xs.map (writeChars indent (depth + 1)) = ys.map (writeChars indent (depth + 1)) :=
      map_eq_of_items length fun i x y hx hy =>
        ih i x y hx hy (hplain x (List.mem_of_getElem? hx)) _
    rw [writeChars, writeChars, writeItems_eq_map, writeItems_eq_map, hitems]
  | @object ms ns names values ih =>
    obtain ⟨hnodup, hplain⟩ := isPlain_object.mp hplain
    have hordered := Members.ordered_map_eq names hnodup fun m hm n hn hname =>
      ih m hm n hn hname (hplain m hm) (depth + 1)
    rw [writeChars, writeChars, writeMembers_eq_map, writeMembers_eq_map]
    exact congrArg (fun parts => bracketed indent depth '\x7b' '\x7d' (parts.map namedPart))
      hordered

end Json

end Attest
