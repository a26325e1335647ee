import Attest.Proofs.JsonScalars
import Attest.Proofs.ReorderedDocuments

/-! # What was written is read back

A document that was written is read as the document in which the members of every object are in
order, on one line or on many, provided that there is room for its lists and objects. -/

namespace Attest

namespace Members

theorem set_of_notMem {ms : Members} {name : String} (h : name ∉ ms.names) (v : Document) :
    ms.set name v = ms ++ [(name, v)] := by
  induction ms with
  | nil => rfl
  | cons m ms ih =>
    rw [names, List.map_cons, List.mem_cons, not_or] at h
    have hname : (m.1 == name) = false := beq_false_of_ne (Ne.symm h.1)
    rw [set, hname, if_neg Bool.false_ne_true, ih h.2, List.cons_append]

/-- Where every name stands once there is nothing to resolve. -/
theorem ofPairs_of_nodup {ms : Members} (h : ms.names.Nodup) : ofPairs ms = ms := by
  have hfold (ms done : Members) (h : (names (done ++ ms)).Nodup) :
      ms.foldl (fun ms p => set ms p.1 p.2) done = done ++ ms := by
    induction ms generalizing done with
    | nil => simp
    | cons m ms ih =>
      have hfresh : m.1 ∉ names done := fun hm => by
        rw [names, List.map_append, List.nodup_append] at h
        exact h.2.2 m.1 hm m.1 (by simp) rfl
      have hsplit : done ++ m :: ms = done ++ [(m.1, m.2)] ++ ms := by simp
      rw [List.foldl_cons, set_of_notMem hfresh, hsplit]
      exact ih _ (by rwa [← hsplit])
  exact hfold ms [] h

end Members

namespace Json

open Document

variable {indent : Indent} {depth room : Nat} {cs rest tail : List Char} {d : Document}

/-! ## Blanks -/

theorem skip_append_of_blank {blanks : List Char} (h : ∀ c ∈ blanks, isSpace c) (cs : List Char) :
    skip (blanks ++ cs) = skip cs :=
  List.dropWhile_append_of_pos h

theorem skip_cons_of_not {c : Char} (h : isSpace c = false) (cs : List Char) :
    skip (c :: cs) = c :: cs := by
  rw [skip, List.dropWhile_cons_of_neg (by simp [h])]

theorem isSpace_of_mem_newline : ∀ c ∈ newline indent depth, isSpace c := by
  intro c hc
  cases indent with
  | none => cases hc
  | some width =>
    rcases List.mem_cons.mp hc with rfl | hc
    · rfl
    · rw [(List.mem_replicate.mp hc).2]
      rfl

theorem isSpace_of_isDigit {c : Char} (h : c.isDigit) : isSpace c = false := by
  rw [Bool.eq_false_iff]
  intro hspace
  simp only [isSpace, Bool.or_eq_true, beq_iff_eq] at hspace
  rcases hspace with ((rfl | rfl) | rfl) | rfl <;> simp at h

theorem exists_separator (indent : Indent) (depth : Nat) :
    ∃ blanks, separator indent depth = ',' :: blanks ∧ ∀ c ∈ blanks, isSpace c := by
  cases indent with
  | none => exact ⟨[' '], rfl, by simp [isSpace]⟩
  | some width => exact ⟨newline (some width) depth, rfl, isSpace_of_mem_newline⟩

/-- Between items is a comma, and then blanks. -/
theorem skip_separator (indent : Indent) (depth : Nat) (cs : List Char) :
    ∃ next, skip (separator indent depth ++ cs) = ',' :: next ∧ skip next = skip cs := by
  obtain ⟨blanks, hseparator, hblanks⟩ := exists_separator indent depth
  refine ⟨blanks ++ cs, ?_, skip_append_of_blank hblanks cs⟩
  rw [hseparator]
  rfl

theorem length_separator_pos (indent : Indent) (depth : Nat) :
    0 < (separator indent depth).length := by
  obtain ⟨blanks, hseparator, -⟩ := exists_separator indent depth
  simp [hseparator]

theorem endsNumber_separator : EndsNumber (separator indent depth ++ cs) := by
  obtain ⟨blanks, hseparator, -⟩ := exists_separator indent depth
  simp [EndsNumber, hseparator]

/-- What can stand behind the last item: blanks, and the closing bracket. -/
structure Closes (closing : Char) (tail rest : List Char) : Prop where
  skip : skip tail = closing :: rest
  ends : EndsNumber tail

theorem closes_newline {closing : Char} (h : closing = ']' ∨ closing = '\x7d') :
    Closes closing (newline indent depth ++ closing :: rest) rest := by
  constructor
  · rw [skip_append_of_blank isSpace_of_mem_newline]
    rcases h with rfl | rfl
    · rfl
    · rfl
  · cases indent with
    | none => rcases h with rfl | rfl <;> simp [EndsNumber, newline]
    | some width => simp [EndsNumber, newline]

/-! ## Values -/

/-- How every value begins. -/
def StartsValue (cs : List Char) : Prop :=
  ∃ c rest, cs = c :: rest ∧ isSpace c = false ∧ c ≠ ']' ∧ c ≠ '\x7d' ∧ c ≠ '\ufeff'

theorem exists_bracketed_cons (indent : Indent) (depth : Nat) (opening closing : Char)
    (parts : List (List Char)) :
    ∃ rest, bracketed indent depth opening closing parts = opening :: rest := by
  cases parts with
  | nil => exact ⟨[closing], rfl⟩
  | cons part parts => exact ⟨_, rfl⟩

theorem startsValue_writeChars (h : IsPlain d) : StartsValue (writeChars indent depth d) := by
  cases h with
  | null => exact ⟨'n', _, rfl, by decide⟩
  | bool b =>
    cases b with
    | false => exact ⟨'f', _, rfl, by decide⟩
    | true => exact ⟨'t', _, rfl, by decide⟩
  | int i =>
    obtain ⟨c, ds, hc, htext | htext⟩ := toList_toString i
    · exact ⟨c, ds, htext, isSpace_of_isDigit hc, Numeral.ne_of_isDigit hc rfl,
        Numeral.ne_of_isDigit hc rfl, Numeral.ne_of_isDigit hc rfl⟩
    · exact ⟨'-', c :: ds, htext, by decide⟩
  | text s => exact ⟨'"', _, rfl, by decide⟩
  | @list xs items =>
    obtain ⟨rest, hrest⟩ := exists_bracketed_cons indent depth '[' ']'
      (writeItems indent (depth + 1) xs)
    exact ⟨'[', rest, hrest, by decide⟩
  | @object ms names values =>
    obtain ⟨rest, hrest⟩ := exists_bracketed_cons indent depth '\x7b' '\x7d'
      ((inNameOrder (writeMembers indent (depth + 1) ms)).map namedPart)
    exact ⟨'\x7b', rest, hrest, by decide⟩

theorem skip_of_startsValue (h : StartsValue cs) (rest : List Char) :
    skip (cs ++ rest) = cs ++ rest := by
  obtain ⟨c, cs, rfl, hspace, -⟩ := h
  exact skip_cons_of_not hspace _

theorem skip_newline_append (h : StartsValue cs) (rest : List Char) :
    skip (newline indent depth ++ (cs ++ rest)) = cs ++ rest := by
  rw [skip_append_of_blank isSpace_of_mem_newline, skip_of_startsValue h]

theorem exists_intercalate_cons (separator part : List Char) (parts : List (List Char)) :
    ∃ rest, separator.intercalate (part :: parts) = part ++ rest := by
  cases parts with
  | nil => exact ⟨[], by simp⟩
  | cons next parts =>
    rw [List.intercalate_cons_cons, List.append_assoc]
    exact ⟨_, rfl⟩

theorem intercalate_map_cons {α : Type} (separator : List Char) (f : α → List Char) (x y : α)
    (ys : List α) : separator.intercalate ((x :: y :: ys).map f) =
      f x ++ (separator ++ separator.intercalate ((y :: ys).map f)) := by
  rw [List.map_cons, List.map_cons, List.intercalate_cons_cons, List.append_assoc]

theorem StartsValue.append (h : StartsValue cs) (rest : List Char) : StartsValue (cs ++ rest) := by
  obtain ⟨c, cs, rfl, hc⟩ := h
  exact ⟨c, cs ++ rest, rfl, hc⟩

theorem startsValue_intercalate {part : List Char} (h : StartsValue part) (separator : List Char)
    (parts : List (List Char)) : StartsValue (separator.intercalate (part :: parts)) := by
  obtain ⟨rest, hrest⟩ := exists_intercalate_cons separator part parts
  rw [hrest]
  exact h.append rest

theorem length_pos_of_startsValue (h : StartsValue cs) : 0 < cs.length := by
  obtain ⟨c, cs, rfl, -⟩ := h
  exact Nat.succ_pos _

/-! ### Steps of the reader -/

section

variable {fuel : Nat} {after next text : List Char} {name : String} {xs : List Document}
  {ms : List (String × Document)}

theorem value_list_nil :
    value (fuel + 1) (room + 1) ('[' :: ']' :: rest) = .ok (.list [], rest) := by
  rw [value, enter_succ]
  rfl

theorem value_list (hcs : skip cs = text) (hstarts : StartsValue text)
    (h : items fuel room text = .ok (xs, rest)) :
    value (fuel + 1) (room + 1) ('[' :: cs) = .ok (.list xs, rest) := by
  obtain ⟨c, text, rfl, -, hbracket, -⟩ := hstarts
  rw [value, enter_succ, Except.ok_bind, hcs]
  split
  · simp_all
  · rw [h]
    rfl

theorem value_object_nil :
    value (fuel + 1) (room + 1) ('\x7b' :: '\x7d' :: rest) = .ok (.object [], rest) := by
  rw [value, enter_succ]
  rfl

theorem value_object (hcs : skip cs = text) (hstarts : StartsValue text)
    (h : members fuel room text = .ok (ms, rest)) :
    value (fuel + 1) (room + 1) ('\x7b' :: cs) = .ok (.object (Members.ofPairs ms), rest) := by
  obtain ⟨c, text, rfl, -, -, hbrace, -⟩ := hstarts
  rw [value, enter_succ, Except.ok_bind, hcs]
  split
  · simp_all
  · rw [h]
    rfl

theorem items_last (h : value fuel room cs = .ok (d, tail)) (htail : skip tail = ']' :: rest) :
    items (fuel + 1) room cs = .ok ([d], rest) := by
  rw [items, h, Except.ok_bind]
  simp only [htail]

theorem items_next (h : value fuel room cs = .ok (d, after)) (hafter : skip after = ',' :: next)
    (hrest : items fuel room (skip next) = .ok (xs, rest)) :
    items (fuel + 1) room cs = .ok (d :: xs, rest) := by
  rw [items, h, Except.ok_bind]
  simp only [hafter, hrest, Except.ok_bind]

theorem namedPart_append (name : String) (text after : List Char) :
    namedPart (name, text) ++ after =
      '"' :: (name.toList.flatMap escapeJson ++ '"' :: ':' :: ' ' :: (text ++ after)) := by
  simp [namedPart, writeText]

theorem members_last (hstarts : StartsValue text)
    (h : value fuel room (text ++ tail) = .ok (d, tail)) (htail : skip tail = '\x7d' :: rest) :
    members (fuel + 1) room (namedPart (name, text) ++ tail) = .ok ([(name, d)], rest) := by
  have hcolon : skip (':' :: ' ' :: (text ++ tail)) = ':' :: ' ' :: (text ++ tail) := rfl
  have hvalue : skip (' ' :: (text ++ tail)) = text ++ tail := skip_of_startsValue hstarts tail
  rw [namedPart_append, members, textFrom_writeText, Except.ok_bind]
  simp only [hcolon, hvalue, h, Except.ok_bind, htail]

theorem members_next (hstarts : StartsValue text)
    (h : value fuel room (text ++ after) = .ok (d, after)) (hafter : skip after = ',' :: next)
    (hrest : members fuel room (skip next) = .ok (ms, rest)) :
    members (fuel + 1) room (namedPart (name, text) ++ after) = .ok ((name, d) :: ms, rest) := by
  have hcolon : skip (':' :: ' ' :: (text ++ after)) = ':' :: ' ' :: (text ++ after) := rfl
  have hvalue : skip (' ' :: (text ++ after)) = text ++ after := skip_of_startsValue hstarts after
  rw [namedPart_append, members, textFrom_writeText, Except.ok_bind]
  simp only [hcolon, hvalue, h, Except.ok_bind, hafter, hrest]

end

/-! ### Lists and objects -/

/-- A member as it is written. -/
def writeNamed (indent : Indent) (depth : Nat) (m : String × Document) : List Char :=
  namedPart (m.1, writeChars indent depth m.2)

theorem length_lt_writeNamed (indent : Indent) (depth : Nat) (m : String × Document) :
    (writeChars indent depth m.2).length < (writeNamed indent depth m).length := by
  simp only [writeNamed, namedPart, List.length_append, List.length_cons]
  omega

/-- Whatever follows it, the written document is read as its sorted form, if there is fuel for each of
its characters. -/
def ReadsBack (indent : Indent) (depth room : Nat) (d : Document) : Prop :=
  ∀ fuel rest, (writeChars indent depth d).length ≤ fuel → EndsNumber rest →
    value fuel room (writeChars indent depth d ++ rest) = .ok (d.sorted, rest)

/-- Parts with separators between them are read one after the other, by any reader that does the right
thing with the last part and with one that another comes after. -/
theorem read_separated {α β : Type} (read : Nat → List Char → Except Fault (Parsed (List β)))
    {text : α → List Char} {result : α → β} {xs : List α} {fuel : Nat}
    (hne : xs ≠ []) (hstarts : ∀ x ∈ xs, StartsValue (text x))
    (hlast : ∀ x ∈ xs, ∀ fuel, (text x).length ≤ fuel →
      read (fuel + 1) (text x ++ tail) = .ok ([result x], rest))
    (hnext : ∀ x ∈ xs, ∀ fuel after next ys, (text x).length ≤ fuel → EndsNumber after →
      skip after = ',' :: next → read fuel (skip next) = .ok (ys, rest) →
        read (fuel + 1) (text x ++ after) = .ok (result x :: ys, rest))
    (hfuel : ((separator indent depth).intercalate (xs.map text)).length < fuel) :
    read fuel ((separator indent depth).intercalate (xs.map text) ++ tail) =
      .ok (xs.map result, rest) := by
  induction xs generalizing fuel with
  | nil => exact absurd rfl hne
  | cons x xs ih =>
    obtain ⟨fuel, rfl⟩ : ∃ k, fuel = k + 1 := ⟨fuel - 1, by omega⟩
    cases xs with
    | nil =>
      rw [List.map_singleton, List.intercalate_singleton] at hfuel ⊢
      exact hlast x List.mem_cons_self fuel (by omega)
    | cons y ys =>
      have hrest : StartsValue ((separator indent depth).intercalate ((y :: ys).map text)) :=
        startsValue_intercalate (hstarts y (by simp)) _ _
      have hcomma := length_separator_pos indent depth
      rw [intercalate_map_cons] at hfuel ⊢
      rw [List.length_append, List.length_append] at hfuel
      rw [List.append_assoc, List.append_assoc]
      obtain ⟨next, hskip, hafter⟩ := skip_separator indent depth
        ((separator indent depth).intercalate ((y :: ys).map text) ++ tail)
      -- the comma alone makes what is left shorter by more than the fuel of one part
      refine hnext x List.mem_cons_self fuel _ next _ (by omega) endsNumber_separator hskip ?_
      rw [hafter, skip_of_startsValue hrest]
      exact ih (List.cons_ne_nil y ys) (fun z hz => hstarts z (List.mem_cons_of_mem x hz))
        (fun z hz => hlast z (List.mem_cons_of_mem x hz))
        (fun z hz => hnext z (List.mem_cons_of_mem x hz)) (by omega)

theorem items_writeChars {fuel : Nat} {xs : List Document} (hne : xs ≠ [])
    (hplain : ∀ x ∈ xs, IsPlain x) (hreads : ∀ x ∈ xs, ReadsBack indent depth room x)
    (hfuel :
      ((separator indent depth).intercalate (xs.map (writeChars indent depth))).length < fuel)
    (htail : Closes ']' tail rest) :
    items fuel room
      ((separator indent depth).intercalate (xs.map (writeChars indent depth)) ++ tail) =
        .ok (xs.map sorted, rest) := by
  refine read_separated (fun fuel => items fuel room) hne
    (fun x hx => startsValue_writeChars (hplain x hx)) ?_ ?_ hfuel
  · intro x hx fuel hlength
    exact items_last (hreads x hx fuel tail hlength htail.ends) htail.skip
  · intro x hx fuel after next ys hlength hends hafter hrest
    exact items_next (hreads x hx fuel after hlength hends) hafter hrest

theorem members_writeChars {fuel : Nat} {ms : Members} (hne : ms ≠ [])
    (hplain : ∀ m ∈ ms, IsPlain m.2) (hreads : ∀ m ∈ ms, ReadsBack indent depth room m.2)
    (hfuel :
      ((separator indent depth).intercalate (ms.map (writeNamed indent depth))).length < fuel)
    (htail : Closes '\x7d' tail rest) :
    members fuel room
      ((separator indent depth).intercalate (ms.map (writeNamed indent depth)) ++ tail) =
        .ok (ms.map (Prod.map id sorted), rest) := by
  refine read_separated (fun fuel => members fuel room) hne
    (fun m _ => ⟨'"', _, rfl, by decide⟩) ?_ ?_ hfuel
  · intro m hm fuel hlength
    have hlength := Nat.le_of_lt (Nat.lt_of_lt_of_le (length_lt_writeNamed indent depth m) hlength)
    exact members_last (startsValue_writeChars (hplain m hm))
      (hreads m hm fuel tail hlength htail.ends) htail.skip
  · intro m hm fuel after next ys hlength hends hafter hrest
    have hlength := Nat.le_of_lt (Nat.lt_of_lt_of_le (length_lt_writeNamed indent depth m) hlength)
    exact members_next (startsValue_writeChars (hplain m hm))
      (hreads m hm fuel after hlength hends) hafter hrest

theorem readsBack_of_succ (h : IsPlain d)
    (hread : ∀ fuel rest, (writeChars indent depth d).length ≤ fuel + 1 → EndsNumber rest →
      value (fuel + 1) room (writeChars indent depth d ++ rest) = .ok (d.sorted, rest)) :
    ReadsBack indent depth room d := by
  intro fuel rest hfuel hrest
  have hstarts : StartsValue (writeChars indent depth d) := startsValue_writeChars h
  have hlength := length_pos_of_startsValue hstarts
  obtain ⟨fuel, rfl⟩ : ∃ k, fuel = k + 1 := ⟨fuel - 1, by omega⟩
  exact hread fuel rest hfuel hrest

/-- What stands between brackets, and after them. -/
theorem bracketed_append {opening closing : Char} {parts : List (List Char)} (hne : parts ≠ [])
    (rest : List Char) : bracketed indent depth opening closing parts ++ rest =
      opening :: (newline indent (depth + 1) ++ ((separator indent (depth + 1)).intercalate parts ++
        (newline indent depth ++ closing :: rest))) := by
  rw [bracketed]
  · simp
  · exact hne

theorem length_intercalate_lt {opening closing : Char} {parts : List (List Char)}
    (hne : parts ≠ []) : ((separator indent (depth + 1)).intercalate parts).length + 1 <
      (bracketed indent depth opening closing parts).length := by
  have hbracketed : bracketed indent depth opening closing parts ++ [] = _ := bracketed_append hne []
  rw [List.append_nil] at hbracketed
  rw [hbracketed]
  simp only [List.length_append, List.length_cons]
  omega

theorem readsBack_list {xs : List Document} (h : ∀ x ∈ xs, IsPlain x)
    (hreads : ∀ x ∈ xs, ReadsBack indent (depth + 1) room x) :
    ReadsBack indent depth (room + 1) (.list xs) := by
  refine readsBack_of_succ (.list h) fun fuel rest hfuel _ => ?_
  rw [writeChars, writeItems_eq_map] at hfuel ⊢
  rw [sorted_list]
  cases xs with
  | nil => exact value_list_nil
  | cons x xs =>
    have hne : (x :: xs).map (writeChars indent (depth + 1)) ≠ [] := by simp
    have hstarts : StartsValue ((separator indent (depth + 1)).intercalate
        ((x :: xs).map (writeChars indent (depth + 1)))) :=
      startsValue_intercalate (startsValue_writeChars (h x (by simp))) _ _
    have hlength := Nat.lt_of_lt_of_le (length_intercalate_lt hne) hfuel
    rw [bracketed_append hne]
    exact value_list (skip_newline_append hstarts _) (hstarts.append _)
      (items_writeChars (by simp) h hreads (by omega) (closes_newline (.inl rfl)))

theorem readsBack_object {ms : Members} (hnames : ms.names.Nodup) (h : ∀ m ∈ ms, IsPlain m.2)
    (hreads : ∀ m ∈ ms, ReadsBack indent (depth + 1) room m.2) :
    ReadsBack indent depth (room + 1) (.object ms) := by
  refine readsBack_of_succ (.object hnames h) fun fuel rest hfuel _ => ?_
  have hparts : (inNameOrder (writeMembers indent (depth + 1) ms)).map namedPart =
      (Members.ordered ms).map (writeNamed indent (depth + 1)) := by
    rw [writeMembers_eq_map]
    refine (congrArg (List.map namedPart) (Members.map_ordered _ ms).symm).trans ?_
    rw [List.map_map]
    rfl
  have hordered : (Members.names ((Members.ordered ms).map (Prod.map id sorted))).Nodup := by
    rw [Members.names, List.map_map]
    exact ((Members.ordered_perm ms).map _).nodup_iff.mpr hnames
  have hmem : ∀ m ∈ Members.ordered ms, m ∈ ms := fun _ => Members.mem_ordered.mp
  rw [writeChars, hparts] at hfuel ⊢
  rw [sorted_object, ← Members.ofPairs_of_nodup hordered]
  -- from here on the order does not matter, only that these are members of the object
  generalize Members.ordered ms = ns at hfuel hmem
  cases ns with
  | nil => exact value_object_nil
  | cons n ns =>
    have hne : (n :: ns).map (writeNamed indent (depth + 1)) ≠ [] := by simp
    have hstarts : StartsValue ((separator indent (depth + 1)).intercalate
        ((n :: ns).map (writeNamed indent (depth + 1)))) :=
      startsValue_intercalate ⟨'"', _, rfl, by decide⟩ _ _
    have hlength := Nat.lt_of_lt_of_le (length_intercalate_lt hne) hfuel
    rw [bracketed_append hne]
    exact value_object (skip_newline_append hstarts _) (hstarts.append _)
      (members_writeChars (by simp) (fun m hm => h m (hmem m hm)) (fun m hm => hreads m (hmem m hm))
        (by omega) (closes_newline (.inr rfl)))

/-- A plain document that was written is read back, with its members in order. -/
theorem readsBack (h : IsPlain d) (hintegers : ∀ i ∈ d.integers, Numeral.isWritable i)
    (hroom : d.levels ≤ room) : ReadsBack indent depth room d := by
  induction h generalizing depth room with
  | null => exact readsBack_of_succ .null fun _ _ _ _ => rfl
  | bool b =>
    refine readsBack_of_succ (.bool b) fun _ _ _ _ => ?_
    cases b with
    | false => rfl
    | true => rfl
  | int i =>
    refine readsBack_of_succ (.int i) fun fuel rest _ hrest => ?_
    rw [writeChars]
    refine Eq.trans ?_ (scalar_toString (hintegers i (List.mem_singleton_self i)) hrest)
    obtain ⟨c, ds, hc, htext | htext⟩ := toList_toString i
    · rw [htext]
      exact value_eq_scalar (Numeral.ne_of_isDigit hc rfl) (Numeral.ne_of_isDigit hc rfl)
        (Numeral.ne_of_isDigit hc rfl)
    · rw [htext]
      exact value_eq_scalar (by decide) (by decide) (by decide)
  | text s =>
    refine readsBack_of_succ (.text s) fun fuel rest _ _ => ?_
    have htext : writeChars indent depth (.text s) ++ rest =
        '"' :: (s.toList.flatMap escapeJson ++ '"' :: rest) := by simp [writeChars, writeText]
    rw [htext, value, textFrom_writeText]
    rfl
  | @list xs items ih =>
    obtain ⟨room, rfl⟩ : ∃ k, room = k + 1 := ⟨room - 1, by rw [levels] at hroom; omega⟩
    rw [levels, Nat.succ_le_succ_iff, itemLevels_le_iff] at hroom
    rw [forall_mem_integers_list] at hintegers
    exact readsBack_list items fun x hx => ih x hx (hintegers x hx) (hroom x hx)
  | @object ms names values ih =>
    obtain ⟨room, rfl⟩ : ∃ k, room = k + 1 := ⟨room - 1, by rw [levels] at hroom; omega⟩
    rw [levels, Nat.succ_le_succ_iff, memberLevels_le_iff] at hroom
    rw [forall_mem_integers_object] at hintegers
    exact readsBack_object names values fun m hm => ih m hm (hintegers m hm) (hroom m hm)

/-- A written document is read as its sorted form, wherever there is room for its levels. -/
theorem readChars_writeChars (h : IsPlain d) (hintegers : ∀ i ∈ d.integers, Numeral.isWritable i)
    (hroom : d.levels ≤ room) (indent : Indent) :
    readChars room (writeChars indent 0 d) = .ok d.sorted := by
  have hstarts : StartsValue (writeChars indent 0 d) := startsValue_writeChars h
  have hskip : skip (writeChars indent 0 d) = writeChars indent 0 d := by
    simpa using skip_of_startsValue hstarts []
  have hread : value (2 * (writeChars indent 0 d).length + 2) room (writeChars indent 0 d) =
      .ok (d.sorted, []) := by
    simpa using readsBack h hintegers hroom _ [] (by omega) (by simp [EndsNumber])
  obtain ⟨c, cs, htext, -, -, -, hmark⟩ := hstarts
  rw [htext] at hskip hread ⊢
  rw [readChars, hskip, hread]
  · rfl
  · -- the mark that the reader refuses begins no value
    rintro rest hrest
    exact hmark (List.head_eq_of_cons_eq hrest)

end Json

end Attest
