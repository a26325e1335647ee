import Attest.Build.Solc
import Mathlib.Data.List.TakeWhile

/-! # The directive that a compiler's version is taken from

The search for a version directive looks at the characters of a source only. Which of them are code, and
which stand in a comment or in a text between quotes, is told here by a scanner of its own. The search
finds the first place where the words of a directive are written; this is the first directive of the code
if no comment and no quoted text has a part in either. -/

namespace Attest

namespace Solidity

/-! ### The code proper -/

/-- What a character of a source belongs to. -/
inductive Region where
  | code
  | comment
  | quoted
  deriving DecidableEq, Repr

/-- What a scanner is inside of. -/
inductive Mode where
  | code
  | lineComment
  | blockComment
  /-- A text that ends with this quote. -/
  | quoted (quote : Char)

/-- The characters that end a line, and with it a comment that is not in brackets. -/
def endsLine (c : Char) : Bool :=
  let n := c.toNat
  (0x0a ≤ n && n ≤ 0x0d) || n == 0x85 || n == 0x2028 || n == 0x2029

/-- What each character belongs to. In a quoted text a backslash takes the character after it along, and
an open one ends with the line. -/
def regions : Mode → List Char → List Region
  | _, [] => []
  | .code, '/' :: '/' :: cs => .comment :: .comment :: regions .lineComment cs
  | .code, '/' :: '*' :: cs => .comment :: .comment :: regions .blockComment cs
  | .code, c :: cs =>
      if c = '"' ∨ c = '\'' then .quoted :: regions (.quoted c) cs else .code :: regions .code cs
  | .lineComment, c :: cs =>
      if endsLine c then .code :: regions .code cs else .comment :: regions .lineComment cs
  | .blockComment, '*' :: '/' :: cs => .comment :: .comment :: regions .code cs
  | .blockComment, _ :: cs => .comment :: regions .blockComment cs
  | .quoted quote, '\\' :: _ :: cs => .quoted :: .quoted :: regions (.quoted quote) cs
  | .quoted quote, c :: cs =>
      if c = quote ∨ endsLine c then .quoted :: regions .code cs
      else .quoted :: regions (.quoted quote) cs

/-- Comments count as blanks, and nothing is seen of a quoted text but its place. -/
def seen (c : Char) : Region → Char
  | .code => c
  | .comment => ' '
  | .quoted => '"'

/-- The source as code, character by character. -/
def codeView (cs : List Char) : List Char := List.zipWith seen cs (regions .code cs)

example : String.ofList (codeView "a /* b */ = \"c // d\"; // e\nf".toList) =
    "a         = \"\"\"\"\"\"\"\";     \nf" := by
  decide +kernel

/-- Some characters from a place on are all code. -/
def AllCode (cs : List Char) (i count : Nat) : Prop :=
  ∀ r ∈ ((regions .code cs).drop i).take count, r = .code

theorem length_regions (mode : Mode) (cs : List Char) : (regions mode cs).length = cs.length := by
  fun_induction regions mode cs <;> simp_all

theorem zipWith_seen_of_code {cs : List Char} {rs : List Region} (hlength : cs.length ≤ rs.length)
    (h : ∀ r ∈ rs, r = .code) : List.zipWith seen cs rs = cs := by
  induction cs generalizing rs with
  | nil => rfl
  | cons c cs ih =>
    cases rs with
    | nil => simp at hlength
    | cons r rs =>
      obtain ⟨rfl, hrs⟩ := List.forall_mem_cons.mp h
      rw [List.zipWith_cons_cons, ih (by simpa using hlength) hrs]
      rfl

/-- Where all is code the view is the source. -/
theorem take_drop_codeView {cs : List Char} {i count : Nat} (h : AllCode cs i count) :
    ((codeView cs).drop i).take count = (cs.drop i).take count := by
  rw [codeView, List.drop_zipWith, List.take_zipWith]
  exact zipWith_seen_of_code (by simp [length_regions]) h

/-! ### Directives -/

/-- How a directive is written: what stands after each of its two words, and what it asks for. -/
structure Directive where
  gap : List Char
  space : List Char
  constraint : List Char

/-- The two words. -/
def keyword : List Char := ['p', 'r', 'a', 'g', 'm', 'a']

def subject : List Char := ['s', 'o', 'l', 'i', 'd', 'i', 't', 'y']

def Directive.text (d : Directive) : List Char :=
  keyword ++ d.gap ++ subject ++ d.space ++ d.constraint ++ [';']

theorem text_append (d : Directive) (rest : List Char) :
    d.text ++ rest = keyword ++ (d.gap ++ (subject ++ (d.space ++ (d.constraint ++ ';' :: rest)))) := by
  simp only [Directive.text, List.append_assoc, List.singleton_append]

/-- One blank or more. -/
def IsGap (cs : List Char) : Prop := cs ≠ [] ∧ ∀ c ∈ cs, Text.isBlank c = true

/-- A text that does not begin with a blank. -/
def IsFull (cs : List Char) : Prop := ∃ c ∈ cs.head?, Text.isBlank c = false

theorem IsFull.ne_nil {cs : List Char} (h : IsFull cs) : cs ≠ [] := by
  obtain ⟨c, hc, -⟩ := h
  exact List.ne_nil_of_mem (List.mem_of_mem_head? hc)

/-- The characters of names. -/
def isNameChar (c : Char) : Bool := c.isAlphanum || c == '_' || c == '$'

/-- No name reaches up to the place. -/
def BeginsWord (cs : List Char) (i : Nat) : Prop :=
  ∀ c ∈ ((codeView cs).take i).getLast?, isNameChar c = false

/-- The characters of a directive stand at a place, whatever they belong to, with a blank before the
constraint. The constraint may be a lone blank. -/
structure WrittenAt (cs : List Char) (i : Nat) (d : Directive) : Prop where
  text : d.text <+: cs.drop i
  gap : IsGap d.gap
  space : IsGap d.space
  closed : ';' ∉ d.constraint
  full : IsFull d.constraint ∨ ∃ c, d.constraint = [c] ∧ Text.isBlank c = true

/-- A directive of the code proper stands at a place. -/
structure StandsAt (cs : List Char) (i : Nat) (d : Directive) : Prop where
  word : BeginsWord cs i
  text : d.text <+: (codeView cs).drop i
  gap : IsGap d.gap
  space : ∀ c ∈ d.space, Text.isBlank c = true
  closed : ';' ∉ d.constraint
  full : IsFull d.constraint
  apart : d.space = [] → ∀ c ∈ d.constraint.head?, isNameChar c = false

-- The instances go through truth values, so that nothing is decided for every character there is.

theorem all_head?_iff {p : Char → Bool} {c? : Option Char} :
    c?.all (fun c => !p c) = true ↔ ∀ c ∈ c?, p c = false := by
  simp [Option.all_eq_true]

instance (cs : List Char) : Decidable (IsGap cs) :=
  decidable_of_iff (cs ≠ [] ∧ cs.all Text.isBlank = true) (and_congr_right' List.all_eq_true)

instance (cs : List Char) : Decidable (IsFull cs) :=
  decidable_of_iff (cs.head?.any (fun c => !Text.isBlank c) = true) (by simp [IsFull, Option.any_eq_true])

instance (cs : List Char) (i count : Nat) : Decidable (AllCode cs i count) :=
  inferInstanceAs (Decidable (∀ r ∈ _, _))

instance (cs : List Char) (i : Nat) : Decidable (BeginsWord cs i) :=
  decidable_of_iff (((codeView cs).take i).getLast?.all (fun c => !isNameChar c) = true)
    all_head?_iff

instance (cs : List Char) (i : Nat) (d : Directive) : Decidable (StandsAt cs i d) :=
  decidable_of_iff
    (BeginsWord cs i ∧ d.text <+: (codeView cs).drop i ∧ IsGap d.gap ∧
      d.space.all Text.isBlank = true ∧ ';' ∉ d.constraint ∧ IsFull d.constraint ∧
      (d.space = [] → d.constraint.head?.all (fun c => !isNameChar c) = true))
    ⟨fun ⟨word, text, gap, space, closed, full, apart⟩ =>
      ⟨word, text, gap, List.all_eq_true.mp space, closed, full, fun h => all_head?_iff.mp (apart h)⟩,
     fun ⟨word, text, gap, space, closed, full, apart⟩ =>
      ⟨word, text, gap, List.all_eq_true.mpr space, closed, full,
        fun h => all_head?_iff.mpr (apart h)⟩⟩

/-- There is a directive at a place and none before it. -/
def First (places : Nat → Directive → Prop) (i : Nat) (d : Directive) : Prop :=
  places i d ∧ ∀ j < i, ∀ d', ¬places j d'

theorem exists_first {places : Nat → Directive → Prop} {i : Nat} {d : Directive} (h : places i d) :
    ∃ j d', j ≤ i ∧ First places j d' := by
  induction i using Nat.strongRecOn generalizing d with
  | ind i ih =>
    by_cases hearlier : ∃ j, j < i ∧ ∃ d', places j d'
    · obtain ⟨j, hj, d', hd'⟩ := hearlier
      obtain ⟨k, d'', hk, hfirst⟩ := ih j hj hd'
      exact ⟨k, d'', by omega, hfirst⟩
    · exact ⟨i, d, le_rfl, h, fun j hj d' hd' => hearlier ⟨j, hj, d', hd'⟩⟩

/-! ### What the search finds -/

theorem afterWord?_eq_some_iff {word cs rest : List Char} :
    afterWord? word cs = some rest ↔ cs = word ++ rest := by
  unfold afterWord?
  constructor
  · intro h
    split at h
    · rename_i hprefix
      obtain ⟨after, rfl⟩ := List.isPrefixOf_iff_prefix.mp hprefix
      rw [List.drop_left] at h
      cases h
      rfl
    · cases h
  · rintro rfl
    rw [if_pos (List.isPrefixOf_iff_prefix.mpr (List.prefix_append _ _)), List.drop_left]

/-- All blanks are taken, so what is left begins with none. -/
theorem afterBlanks?_eq_some_iff {cs blanks rest : List Char} :
    afterBlanks? cs = some (blanks, rest) ↔
      cs = blanks ++ rest ∧ IsGap blanks ∧ ∀ c ∈ rest.head?, Text.isBlank c = false := by
  simp only [afterBlanks?]
  constructor
  · intro h
    split at h
    · cases h
    · rename_i hne
      cases h
      refine ⟨List.takeWhile_append_dropWhile.symm, ⟨by simpa using hne, ?_⟩, ?_⟩
      · exact fun c hc => List.mem_takeWhile_imp hc
      · intro c hc
        have hhead := List.head?_dropWhile_not Text.isBlank cs
        rw [Option.mem_def.mp hc] at hhead
        simpa using hhead
  · rintro ⟨rfl, ⟨hne, hblanks⟩, hrest⟩
    have hstop : rest.takeWhile Text.isBlank = [] ∧ rest.dropWhile Text.isBlank = rest := by
      cases rest with
      | nil => simp
      | cons c rest => simp [hrest c rfl]
    rw [List.takeWhile_append_of_pos hblanks, List.dropWhile_append_of_pos hblanks, hstop.1, hstop.2,
      List.append_nil, if_neg (by simpa using hne)]

theorem upToSemicolon?_eq_some_iff {cs body : List Char} :
    upToSemicolon? cs = some body ↔
      body ≠ [] ∧ ';' ∉ body ∧ ∃ rest, cs = body ++ ';' :: rest := by
  simp only [upToSemicolon?]
  constructor
  · intro h
    split at h
    · cases h
    · rename_i hends
      cases h
      simp only [Bool.or_eq_true, List.isEmpty_iff, decide_eq_true_eq, not_or] at hends
      have hsplit := List.takeWhile_append_dropWhile (p := (· ≠ ';')) (l := cs)
      refine ⟨hends.1, fun hmem => by simpa using List.mem_takeWhile_imp hmem, ?_⟩
      cases hdrop : cs.dropWhile (· ≠ ';') with
      | nil =>
        rw [hdrop, List.append_nil] at hsplit
        exact absurd (congrArg List.length hsplit) hends.2
      | cons c rest =>
        have hhead := List.head?_dropWhile_not (· ≠ ';') cs
        rw [hdrop] at hhead
        obtain rfl : c = ';' := by simpa using hhead
        exact ⟨rest, by rw [← hdrop, hsplit]⟩
  · rintro ⟨hne, hbody, rest, rfl⟩
    have hall : ∀ c ∈ body, decide (c ≠ ';') = true := by
      intro c hc
      simpa using fun e : c = ';' => hbody (e ▸ hc)
    have htake : (body ++ ';' :: rest).takeWhile (· ≠ ';') = body := by
      rw [List.takeWhile_append_of_pos hall]
      simp
    rw [htake, if_neg]
    simp [hne]

theorem head?_append_semicolon {c rest : List Char} (h : IsFull c) :
    (c ++ ';' :: rest).head? = c.head? := by
  obtain ⟨x, hx, -⟩ := h
  rw [List.head?_append, Option.mem_def.mp hx, Option.some_or]

/-- The search takes the constraint of what is written as a directive. -/
theorem directive?_eq_some_iff {cs c : List Char} :
    directive? cs = some c ↔ ∃ d, WrittenAt cs 0 d ∧ d.constraint = c := by
  have hkeyword : "pragma".toList = keyword := rfl
  have hsubject : "solidity".toList = subject := rfl
  simp only [directive?, hkeyword, hsubject, Option.bind_eq_bind, Option.bind_eq_some_iff,
    afterWord?_eq_some_iff, Prod.exists, afterBlanks?_eq_some_iff]
  constructor
  · rintro ⟨_, rfl, gap, _, ⟨rfl, hgap, -⟩, _, rfl, space, rest, ⟨rfl, hspace, hrest⟩, h⟩
    split at h
    · -- the constraint is the last of the blanks, and there is another one before it
      rename_i hempty
      obtain ⟨rest', rfl⟩ := List.head?_eq_some_iff.mp hempty
      obtain ⟨b, hlast, rfl⟩ := Option.map_eq_some_iff.mp h
      obtain ⟨x, xs, rfl⟩ := List.exists_cons_of_ne_nil hspace.1
      obtain ⟨ys, rfl⟩ := List.getLast?_eq_some_iff.mp hlast
      have hblank : ∀ c ∈ x :: ys, Text.isBlank c = true :=
        fun c hc => hspace.2 c (List.mem_append_left [b] hc)
      have hb : Text.isBlank b = true := hspace.2 b (by simp)
      have hclosed : b ≠ ';' := by
        rintro rfl
        exact absurd hb (by decide)
      exact ⟨⟨gap, x :: ys, [b]⟩, ⟨⟨rest', by simp [text_append]⟩, hgap, ⟨by simp, hblank⟩,
        by simpa using hclosed.symm, .inr ⟨b, rfl, hb⟩⟩, rfl⟩
    · obtain ⟨hne, hclosed, rest', rfl⟩ := upToSemicolon?_eq_some_iff.mp h
      obtain ⟨x, xs, rfl⟩ := List.exists_cons_of_ne_nil hne
      exact ⟨⟨gap, space, x :: xs⟩, ⟨⟨rest', text_append _ _⟩, hgap, hspace, hclosed,
        .inl ⟨x, rfl, hrest x rfl⟩⟩, rfl⟩
  · rintro ⟨⟨gap, space, c⟩, ⟨⟨rest, htext⟩, hgap, hspace, hclosed, hconstraint⟩, rfl⟩
    have hcs := htext.symm.trans (text_append _ _)
    have hword (cs : List Char) : ∀ c ∈ (subject ++ cs).head?, Text.isBlank c = false := by
      rintro c ⟨⟩
      decide
    rcases hconstraint with hfull | ⟨b, rfl, hb⟩
    · have hhead : (c ++ ';' :: rest).head? = c.head? := head?_append_semicolon hfull
      obtain ⟨x, hx, hblank⟩ := hfull
      have hne : x ≠ ';' := fun e => hclosed (e ▸ List.mem_of_mem_head? hx)
      refine ⟨_, hcs, gap, _, ⟨rfl, hgap, hword _⟩, _, rfl, space, c ++ ';' :: rest,
        ⟨rfl, hspace, ?_⟩, ?_⟩
      · rw [hhead]
        rintro y hy
        rwa [Option.mem_unique hy hx]
      · rw [hhead, if_neg, upToSemicolon?_eq_some_iff]
        · exact ⟨List.ne_nil_of_mem (List.mem_of_mem_head? hx), hclosed, rest, rfl⟩
        · rw [Option.mem_def.mp hx]
          simpa using hne
    · have hspaces : ∀ c ∈ space ++ [b], Text.isBlank c = true := by
        simpa [or_imp, forall_and, hb] using hspace.2
      refine ⟨_, hcs, gap, _, ⟨rfl, hgap, hword _⟩, _, rfl, space ++ [b], ';' :: rest,
        ⟨by simp, ⟨by simp, hspaces⟩, by simp; decide⟩, ?_⟩
      obtain ⟨x, xs, rfl⟩ := List.exists_cons_of_ne_nil hspace.1
      simp

theorem writtenAt_drop_iff {cs : List Char} {i : Nat} {d : Directive} :
    WrittenAt (cs.drop i) 0 d ↔ WrittenAt cs i d :=
  ⟨fun ⟨text, gap, space, closed, full⟩ => ⟨text, gap, space, closed, full⟩,
    fun ⟨text, gap, space, closed, full⟩ => ⟨text, gap, space, closed, full⟩⟩

theorem writtenAt_succ_iff {c : Char} {cs : List Char} {i : Nat} {d : Directive} :
    WrittenAt (c :: cs) (i + 1) d ↔ WrittenAt cs i d :=
  ⟨fun ⟨text, gap, space, closed, full⟩ => ⟨text, gap, space, closed, full⟩,
    fun ⟨text, gap, space, closed, full⟩ => ⟨text, gap, space, closed, full⟩⟩

theorem not_writtenAt_nil (i : Nat) (d : Directive) : ¬WrittenAt [] i d := by
  intro h
  have hnil : d.text = [] := by simpa using h.text
  simp [Directive.text] at hnil

/-- What is written as a directive at a place has one constraint only. -/
theorem WrittenAt.constraint_eq {cs : List Char} {i : Nat} {d d' : Directive} (h : WrittenAt cs i d)
    (h' : WrittenAt cs i d') : d.constraint = d'.constraint := by
  have hd := directive?_eq_some_iff.mpr ⟨d, writtenAt_drop_iff.mpr h, rfl⟩
  have hd' := directive?_eq_some_iff.mpr ⟨d', writtenAt_drop_iff.mpr h', rfl⟩
  exact Option.some.inj (hd.symm.trans hd')

/-- The constraint is that of the first place where a directive is written. -/
theorem constraintIn_eq_some_iff {cs c : List Char} :
    constraintIn cs = some c ↔ ∃ i d, First (WrittenAt cs) i d ∧ d.constraint = c := by
  induction cs with
  | nil => simp [constraintIn, First, not_writtenAt_nil]
  | cons x cs ih =>
    rw [constraintIn]
    cases hhere : directive? (x :: cs) with
    | some c' =>
      obtain ⟨d, hd, rfl⟩ := directive?_eq_some_iff.mp hhere
      rw [Option.some_or, Option.some_inj]
      constructor
      · rintro rfl
        exact ⟨0, d, ⟨hd, by simp⟩, rfl⟩
      · rintro ⟨i, d', ⟨hd', hfirst⟩, rfl⟩
        cases i with
        | zero => exact hd.constraint_eq hd'
        | succ i => exact absurd hd (hfirst 0 i.succ_pos d)
    | none =>
      have hnone (d : Directive) : ¬WrittenAt (x :: cs) 0 d := fun hd => by
        rw [directive?_eq_some_iff.mpr ⟨d, hd, rfl⟩] at hhere
        cases hhere
      rw [Option.none_or, ih]
      constructor
      · rintro ⟨i, d, ⟨hd, hfirst⟩, rfl⟩
        refine ⟨i + 1, d, ⟨writtenAt_succ_iff.mpr hd, ?_⟩, rfl⟩
        intro j hj d' hd'
        cases j with
        | zero => exact hnone d' hd'
        | succ j => exact hfirst j (by omega) d' (writtenAt_succ_iff.mp hd')
      · rintro ⟨i, d, ⟨hd, hfirst⟩, rfl⟩
        cases i with
        | zero => exact absurd hd (hnone d)
        | succ i =>
          refine ⟨i, d, ⟨writtenAt_succ_iff.mp hd, ?_⟩, rfl⟩
          exact fun j hj d' hd' => hfirst (j + 1) (by omega) d' (writtenAt_succ_iff.mpr hd')

/-! ### Sources that are plainly written -/

/-- What first reads like a directive is one, and the first directive of the code reads like one: neither
has any part in a comment or a quoted text, the former is not the end of a longer name and asks for
something, and the latter has a blank before what it asks for. -/
structure IsPlain (cs : List Char) : Prop where
  written : ∀ i d, First (WrittenAt cs) i d →
    AllCode cs i d.text.length ∧ BeginsWord cs i ∧ IsFull d.constraint
  standing : ∀ i d, First (StandsAt cs) i d → AllCode cs i d.text.length ∧ d.space ≠ []

theorem prefix_codeView_iff {cs : List Char} {i : Nat} {d : Directive}
    (h : AllCode cs i d.text.length) : d.text <+: (codeView cs).drop i ↔ d.text <+: cs.drop i := by
  rw [List.prefix_iff_eq_take, List.prefix_iff_eq_take, take_drop_codeView h]

/-- Blanks are told apart from what follows them. -/
theorem eq_of_blanks_append {blanks blanks' rest rest' : List Char}
    (h : blanks ++ rest = blanks' ++ rest') (hblanks : ∀ c ∈ blanks, Text.isBlank c = true)
    (hblanks' : ∀ c ∈ blanks', Text.isBlank c = true)
    (hrest : ∃ c ∈ rest.head?, Text.isBlank c = false)
    (hrest' : ∃ c ∈ rest'.head?, Text.isBlank c = false) : blanks = blanks' ∧ rest = rest' := by
  have htake {blanks rest : List Char} (hblanks : ∀ c ∈ blanks, Text.isBlank c = true)
      (hrest : ∃ c ∈ rest.head?, Text.isBlank c = false) :
      (blanks ++ rest).takeWhile Text.isBlank = blanks := by
    obtain ⟨c, hc, hblank⟩ := hrest
    obtain ⟨rest, rfl⟩ := List.head?_eq_some_iff.mp hc
    rw [List.takeWhile_append_of_pos hblanks]
    simp [hblank]
  have heq : blanks = blanks' := by rw [← htake hblanks hrest, h, htake hblanks' hrest']
  subst heq
  exact ⟨rfl, List.append_cancel_left h⟩

/-- There is one way only to read a directive that asks for something. -/
theorem eq_of_prefix {cs : List Char} {d d' : Directive} (h : d.text <+: cs) (h' : d'.text <+: cs)
    (hgap : IsGap d.gap) (hgap' : IsGap d'.gap) (hspace : ∀ c ∈ d.space, Text.isBlank c = true)
    (hspace' : ∀ c ∈ d'.space, Text.isBlank c = true) (hclosed : ';' ∉ d.constraint)
    (hclosed' : ';' ∉ d'.constraint) (hfull : IsFull d.constraint) (hfull' : IsFull d'.constraint) :
    d = d' := by
  obtain ⟨rest, rfl⟩ := h
  obtain ⟨rest', h⟩ := h'
  have hsubject (cs : List Char) : ∃ c ∈ (subject ++ cs).head?, Text.isBlank c = false :=
    ⟨'s', rfl, by decide⟩
  rw [text_append, text_append] at h
  obtain ⟨heq, h⟩ := eq_of_blanks_append (List.append_cancel_left h) hgap'.2 hgap.2 (hsubject _)
    (hsubject _)
  obtain ⟨heq', h⟩ := eq_of_blanks_append (List.append_cancel_left h) hspace' hspace
    (by rwa [head?_append_semicolon hfull']) (by rwa [head?_append_semicolon hfull])
  have hbody := upToSemicolon?_eq_some_iff.mpr ⟨hfull.ne_nil, hclosed, rest, rfl⟩
  have hbody' := upToSemicolon?_eq_some_iff.mpr ⟨hfull'.ne_nil, hclosed', rest', rfl⟩
  rw [h, hbody] at hbody'
  obtain ⟨gap, space, c⟩ := d
  obtain ⟨gap', space', c'⟩ := d'
  cases heq
  cases heq'
  cases hbody'
  rfl

namespace IsPlain

variable {cs : List Char} {i : Nat} {d : Directive}

theorem standsAt (h : IsPlain cs) (hfirst : First (WrittenAt cs) i d) : StandsAt cs i d := by
  obtain ⟨hcode, hword, hfull⟩ := h.written i d hfirst
  obtain ⟨htext, hgap, hspace, hclosed, -⟩ := hfirst.1
  exact ⟨hword, (prefix_codeView_iff hcode).mpr htext, hgap, hspace.2, hclosed, hfull,
    fun hnone => absurd hnone hspace.1⟩

theorem writtenAt (h : IsPlain cs) (hfirst : First (StandsAt cs) i d) : WrittenAt cs i d := by
  obtain ⟨hcode, hspace⟩ := h.standing i d hfirst
  obtain ⟨-, htext, hgap, hblanks, hclosed, hfull, -⟩ := hfirst.1
  exact ⟨(prefix_codeView_iff hcode).mp htext, hgap, ⟨hspace, hblanks⟩, hclosed, .inl hfull⟩

/-- The first directive that is written is the first one of the code. -/
theorem constraintIn_eq_some_iff (h : IsPlain cs) {c : List Char} :
    constraintIn cs = some c ↔ ∃ i d, First (StandsAt cs) i d ∧ d.constraint = c := by
  rw [Solidity.constraintIn_eq_some_iff]
  constructor
  · rintro ⟨i, d, hfirst, rfl⟩
    obtain ⟨j, d', hj, hfirst'⟩ := exists_first (h.standsAt hfirst)
    have hwritten := h.writtenAt hfirst'
    obtain rfl | hlt := hj.eq_or_lt
    · exact ⟨j, d', hfirst', hwritten.constraint_eq hfirst.1⟩
    · exact absurd hwritten (hfirst.2 j hlt d')
  · rintro ⟨i, d, hfirst, rfl⟩
    have hwritten := h.writtenAt hfirst
    obtain ⟨j, d', hj, hfirst'⟩ := exists_first hwritten
    obtain rfl | hlt := hj.eq_or_lt
    · exact ⟨j, d', hfirst', hfirst'.1.constraint_eq hwritten⟩
    · exact absurd (h.standsAt hfirst') (hfirst.2 j hlt d')

end IsPlain

/-- What is seen as letters is letters. -/
theorem prefix_of_codeView {word cs : List Char} (hword : ' ' ∉ word ∧ '"' ∉ word) {i : Nat}
    (h : word <+: (codeView cs).drop i) : word <+: cs.drop i := by
  have hzip (word cs : List Char) (rs : List Region) (hword : ' ' ∉ word ∧ '"' ∉ word)
      (h : word <+: List.zipWith seen cs rs) : word <+: cs := by
    induction word generalizing cs rs with
    | nil => exact List.nil_prefix
    | cons x word ih =>
      cases cs with
      | nil => simp at h
      | cons c cs =>
        cases rs with
        | nil => simp at h
        | cons r rs =>
          rw [List.zipWith_cons_cons, List.cons_prefix_cons] at h
          simp only [List.mem_cons, not_or] at hword
          obtain ⟨rfl, h⟩ := h
          rw [List.cons_prefix_cons]
          cases r with
          | code => exact ⟨rfl, ih cs rs ⟨hword.1.2, hword.2.2⟩ h⟩
          | comment => exact absurd rfl hword.1.1
          | quoted => exact absurd rfl hword.2.1
  rw [codeView, List.drop_zipWith] at h
  exact hzip _ _ _ hword h

theorem prefix_keyword {cs : List Char} {d : Directive} (h : d.text <+: cs) : keyword <+: cs := by
  refine List.IsPrefix.trans ?_ h
  simp only [Directive.text, List.append_assoc]
  exact List.prefix_append _ _

/-- A source whose first keyword is that of a directive of the code, with nothing of it in a comment or a
quoted text and a blank before what it asks for, is plainly written. -/
theorem isPlain_of_keyword {cs : List Char} {i : Nat} {d : Directive} (h : StandsAt cs i d)
    (hcode : AllCode cs i d.text.length) (hspace : d.space ≠ [])
    (hfirst : ∀ j < i, ¬keyword <+: cs.drop j) : IsPlain cs := by
  have hwritten : WrittenAt cs i d := ⟨(prefix_codeView_iff hcode).mp h.text, h.gap, ⟨hspace, h.space⟩,
    h.closed, .inl h.full⟩
  constructor
  · intro j d' hd'
    obtain hlt | rfl | hlt := Nat.lt_trichotomy j i
    · exact absurd (prefix_keyword hd'.1.text) (hfirst j hlt)
    · have hfull : IsFull d'.constraint := hd'.1.constraint_eq hwritten ▸ h.full
      have heq : d' = d := eq_of_prefix hd'.1.text hwritten.text hd'.1.gap h.gap hd'.1.space.2 h.space
        hd'.1.closed h.closed hfull h.full
      exact heq ▸ ⟨hcode, h.word, h.full⟩
    · exact absurd hwritten (hd'.2 i hlt d)
  · intro j d' hd'
    obtain hlt | rfl | hlt := Nat.lt_trichotomy j i
    · exact absurd (prefix_of_codeView (by decide) (prefix_keyword hd'.1.text)) (hfirst j hlt)
    · have heq : d' = d := eq_of_prefix hd'.1.text h.text hd'.1.gap h.gap hd'.1.space h.space
        hd'.1.closed h.closed hd'.1.full h.full
      exact heq ▸ ⟨hcode, hspace⟩
    · exact absurd h (hd'.2 i hlt d)

end Solidity

namespace Build.Solc

open Solidity

/-! ### What is installed -/

/-- A compiler for a constraint is asked for, and nothing else is done. -/
structure Requests (constraint : String) (w : Workshop) (r : Except Failure Document × Workshop) :
    Prop where
  calls : r.2 = { w with compilerCalls :=
    w.compilerCalls ++ [.list [.text "install_solc_pragma", .text constraint]] }
  result : r.1 = match w.compiler.installError with
    | some details => .error (.fault (.installation "" details))
    | none => .ok w.compiler.resolved

section

variable {settings : Members} (h : (profileVersion settings).isGiven = false) (file : String)
  {source constraint : String} (w : Workshop)

include h

theorem install_requests (hconstraint : constraint? source = some constraint) :
    Requests constraint w ((install settings file source).run.run w) := by
  unfold install
  simp only [h, hconstraint]
  obtain ⟨clock, git, forge, ⟨resolved, error, output, refusal, delay⟩, repository, commands, calls,
    scratch⟩ := w
  cases error with
  | none => exact ⟨rfl, rfl⟩
  | some details => exact ⟨rfl, rfl⟩

theorem install_refuses (hconstraint : constraint? source = none) :
    (install settings file source).run.run w = (.error (.fault (.noVersion file)), w) := by
  unfold install
  simp only [h, hconstraint]
  rfl

end

/-- Where the profile asks for no version, the compiler is asked for with the constraint at the first place
of the source where a directive is written, whatever that place belongs to; if there is none anywhere,
no compiler is asked for and the build is at fault. In a source that is plainly written this is the
constraint of the first directive of the code proper, and there is none just when the code has none. -/
theorem install_directive {settings : Members} (h : (profileVersion settings).isGiven = false)
    (file source : String) (w : Workshop) :
    (∀ constraint, constraint? source = some constraint →
      Requests constraint w ((install settings file source).run.run w)) ∧
    (constraint? source = none →
      (install settings file source).run.run w = (.error (.fault (.noVersion file)), w)) ∧
    (∀ constraint, constraint? source = some constraint ↔
      ∃ i d, First (WrittenAt source.toList) i d ∧ String.ofList d.constraint = constraint) ∧
    (IsPlain source.toList → ∀ constraint, constraint? source = some constraint ↔
      ∃ i d, First (StandsAt source.toList) i d ∧ String.ofList d.constraint = constraint) := by
  have hconstraint (places : Nat → Directive → Prop)
      (hplaces : ∀ c, constraintIn source.toList = some c ↔ ∃ i d, First places i d ∧ d.constraint = c)
      (constraint : String) : constraint? source = some constraint ↔
        ∃ i d, First places i d ∧ String.ofList d.constraint = constraint := by
    rw [constraint?, Option.map_eq_some_iff]
    constructor
    · rintro ⟨c, hc, rfl⟩
      obtain ⟨i, d, hfirst, rfl⟩ := (hplaces c).mp hc
      exact ⟨i, d, hfirst, rfl⟩
    · rintro ⟨i, d, hfirst, rfl⟩
      exact ⟨_, (hplaces _).mpr ⟨i, d, hfirst, rfl⟩, rfl⟩
  exact ⟨fun _ => install_requests h file w, install_refuses h file w,
    hconstraint _ fun c => constraintIn_eq_some_iff,
    fun hplain => hconstraint _ fun c => hplain.constraintIn_eq_some_iff⟩

/-- There are comments and quotes before the directive. -/
theorem install_directive_commented :
    let source := "// \"for\" ^0.4\n/* a\nb */\npragma solidity ^0.8.13;\ncontract C {}\n"
    (profileVersion []).isGiven = false ∧ IsPlain source.toList ∧
      Requests "^0.8.13" {} ((install [] "C.sol" source).run.run {}) ∧
      ∃ i d, First (StandsAt source.toList) i d ∧ String.ofList d.constraint = "^0.8.13" := by
  intro source
  have hplain : IsPlain source.toList := by
    apply isPlain_of_keyword (i := 24) (d := ⟨[' '], [' '], "^0.8.13".toList⟩)
    · decide +kernel
    · decide +kernel
    · decide
    · decide +kernel
  have hfound : constraint? source = some "^0.8.13" := by decide +kernel
  have hsettings : (profileVersion []).isGiven = false := rfl
  obtain ⟨hrequests, -, -, hstands⟩ := install_directive hsettings "C.sol" source {}
  exact ⟨hsettings, hplain, hrequests _ hfound, (hstands hplain _).mp hfound⟩

/-- A constraint is taken from a comment, although the code has a directive of its own. -/
theorem constraint_from_comment :
    let source := "// pragma solidity ^0.4.0;\npragma solidity ^0.8.0;\n"
    Requests "^0.4.0" {} ((install [] "C.sol" source).run.run {}) ∧
      ∃ i d, First (StandsAt source.toList) i d ∧ String.ofList d.constraint = "^0.8.0" := by
  intro source
  refine ⟨install_requests rfl "C.sol" {} (by decide +kernel), 27, ⟨[' '], [' '], "^0.8.0".toList⟩,
    ⟨by decide +kernel, fun j hj d hd => ?_⟩, by decide +kernel⟩
  have hnone : ∀ j < 27, ¬keyword <+: (codeView source.toList).drop j := by decide +kernel
  exact hnone j hj (prefix_keyword hd.text)

end Build.Solc

end Attest
