import Attest.Json.Reader
import Attest.Json.Writer
import Attest.Proofs.Numerals
import Attest.Proofs.Outcome
import Mathlib.Data.List.Basic
import Mathlib.Tactic.SplitIfs

/-! # Texts, integers and levels in JSON

What is written of a text is read as that text, whatever its characters, and what is written of an
integer as that integer, provided that its digits end where they should. Every level takes some room. -/

namespace Attest.Json

variable {c : Char} {cs after rest : List Char} {opening : Nat}

/-! ## Escapes -/

theorem hexDigits_succ {count : Nat} (hcount : 0 < count) (n : Nat) :
    (Text.hexDigits (count + 1) n).toList =
      (Text.hexDigits count (n / 16)).toList ++ [Nat.digitChar (n % 16)] := by
  simp only [Text.hexDigits, String.toList_ofList]
  by_cases h : n < 16
  · obtain ⟨k, rfl⟩ : ∃ k, count = k + 1 := ⟨count - 1, by omega⟩
    rw [Nat.toDigits_of_lt_base h, Nat.div_eq_of_lt h, Nat.mod_eq_of_lt h, Nat.toDigits_zero]
    simp [List.replicate_succ']
  · rw [Nat.toDigits_of_base_le (by decide) (Nat.not_lt.mp h)]
    simp

theorem hexDigits_four {u : Nat} (h : u < 0x10000) :
    (Text.hexDigits 4 u).toList =
      [Nat.digitChar (u / 16 / 16 / 16), Nat.digitChar (u / 16 / 16 % 16),
        Nat.digitChar (u / 16 % 16), Nat.digitChar (u % 16)] := by
  have hfirst : u / 16 / 16 / 16 < 16 := by omega
  rw [hexDigits_succ (by decide), hexDigits_succ (by decide), hexDigits_succ (by decide),
    Text.hexDigits, Nat.toDigits_of_lt_base hfirst]
  simp

theorem digitValue?_digitChar {d : Nat} (h : d < 16) :
    Numeral.digitValue? 16 (Nat.digitChar d) = some d := by
  have hall : ∀ d : Fin 16, Numeral.digitValue? 16 (Nat.digitChar d) = some d.val := by decide
  exact hall ⟨d, h⟩

theorem piecesFrom_escapeUnit {u : Nat} (h : u < 0x10000) (hrest : rest ≠ []) :
    piecesFrom opening (escapeUnit u ++ rest) = prepend (.unit u) (piecesFrom opening rest) := by
  have hunit : unit? (Nat.digitChar (u / 16 / 16 / 16)) (Nat.digitChar (u / 16 / 16 % 16))
      (Nat.digitChar (u / 16 % 16)) (Nat.digitChar (u % 16)) = some u := by
    rw [unit?, digitValue?_digitChar (by omega), digitValue?_digitChar (by omega),
      digitValue?_digitChar (by omega), digitValue?_digitChar (by omega)]
    simp only [Option.bind_eq_bind, Option.bind_some, Option.some.injEq]
    omega
  have hnonempty : rest.isEmpty = false := List.isEmpty_eq_false_iff.mpr hrest
  rw [escapeUnit, hexDigits_four h]
  simp [piecesFrom, hunit, hnonempty]

/-! ## Texts -/

/-- The characters that the pieces spell which were read. -/
def spelt (r : Except Fault (Parsed (List Piece))) : Except Fault (Parsed (List Char)) :=
  r.map fun (ps, rest) => (spell ps, rest)

theorem spelt_prepend_char {r : Except Fault (Parsed (List Piece))} (h : spelt r = .ok (cs, rest))
    (c : Char) : spelt (prepend (.char c) r) = .ok (c :: cs, rest) := by
  obtain ⟨⟨ps, rest⟩, rfl, hspelt⟩ := Except.map_eq_ok_iff.mp h
  cases hspelt
  rfl

theorem spell_unit {u : Nat} (h : isHigh u = false) (ps : List Piece) :
    spell (.unit u :: ps) = charOfUnit u :: spell ps := by
  cases ps with
  | nil => rfl
  | cons p ps =>
    cases p with
    | char c => rfl
    | unit v => rw [spell, h, Bool.false_and, if_neg Bool.false_ne_true]

theorem spelt_prepend_unit {r : Except Fault (Parsed (List Piece))} {u : Nat}
    (h : spelt r = .ok (cs, rest)) (hu : isHigh u = false) :
    spelt (prepend (.unit u) r) = .ok (charOfUnit u :: cs, rest) := by
  obtain ⟨⟨ps, rest⟩, rfl, hspelt⟩ := Except.map_eq_ok_iff.mp h
  cases hspelt
  exact congrArg (fun cs => Except.ok (cs, rest)) (spell_unit hu ps)

/-- The units of a pair are read as its character. This is said of any two units: with the numbers of a
character put in, comparing terms would take differences of large numbers apart. -/
theorem spelt_escapeUnits {u v : Nat} (h : spelt (piecesFrom opening rest) = .ok (cs, after))
    (hu : isHigh u) (hv : isLow v) :
    spelt (piecesFrom opening (escapeUnit u ++ (escapeUnit v ++ rest))) =
      .ok (charOfPair u v :: cs, after) := by
  have hrest : rest ≠ [] := by
    rintro rfl
    cases h
  have hboundu : u < 0x10000 := by
    simp only [isHigh, Bool.and_eq_true, decide_eq_true_eq] at hu
    omega
  have hboundv : v < 0x10000 := by
    simp only [isLow, Bool.and_eq_true, decide_eq_true_eq] at hv
    omega
  rw [piecesFrom_escapeUnit hboundu (by simp [escapeUnit]), piecesFrom_escapeUnit hboundv hrest]
  obtain ⟨⟨ps, after⟩, hread, hspelt⟩ := Except.map_eq_ok_iff.mp h
  cases hspelt
  rw [hread]
  refine congrArg (fun cs => Except.ok (cs, after)) ?_
  rw [spell, hu, hv, Bool.true_and, if_pos rfl]

theorem not_isHigh_of_char (c : Char) : isHigh c.toNat = false ∧ isLow c.toNat = false := by
  have hvalid : c.toNat < 0xd800 ∨ 0xdfff < c.toNat ∧ c.toNat < 0x110000 := c.valid
  simp only [isHigh, isLow, Bool.and_eq_false_iff, decide_eq_false_iff_not]
  omega

theorem piecesFrom_plain (hquote : c ≠ '"') (hbackslash : c ≠ '\\') (hprintable : 0x20 ≤ c.toNat) :
    piecesFrom opening (c :: rest) = prepend (.char c) (piecesFrom opening rest) := by
  rw [piecesFrom]
  · rw [if_neg (by omega)]
  all_goals simp_all

/-- Characters beyond sixteen bits are written as a high unit and a low one. -/
theorem units_of_char (h : 0x10000 ≤ c.toNat) :
    isHigh (0xd800 + (c.toNat - 0x10000) / 0x400) ∧ isLow (0xdc00 + (c.toNat - 0x10000) % 0x400) ∧
      charOfPair (0xd800 + (c.toNat - 0x10000) / 0x400)
        (0xdc00 + (c.toNat - 0x10000) % 0x400) = c := by
  have hbound : c.toNat < 0x110000 := by
    have hvalid : c.toNat < 0xd800 ∨ 0xdfff < c.toNat ∧ c.toNat < 0x110000 := c.valid
    omega
  have hcode : 0x10000 + (0xd800 + (c.toNat - 0x10000) / 0x400 - 0xd800) * 0x400 +
      (0xdc00 + (c.toNat - 0x10000) % 0x400 - 0xdc00) = c.toNat := by omega
  refine ⟨?_, ?_, ?_⟩
  · simp only [isHigh, Bool.and_eq_true, decide_eq_true_eq]
    omega
  · simp only [isLow, Bool.and_eq_true, decide_eq_true_eq]
    omega
  · rw [charOfPair, hcode, Char.ofNat_toNat]

/-- The escape of a character is read as the character. -/
theorem spelt_escapeJson (h : spelt (piecesFrom opening rest) = .ok (cs, after)) (c : Char) :
    spelt (piecesFrom opening (escapeJson c ++ rest)) = .ok (c :: cs, after) := by
  have hrest : rest ≠ [] := by
    rintro rfl
    cases h
  have hchar := spelt_prepend_char h c
  unfold escapeJson
  dsimp only
  split_ifs with hself hn hr ht hf hb hprintable hbasic
  · rcases hself with rfl | rfl
    · exact hchar
    · exact hchar
  · exact hn ▸ hchar
  · exact hr ▸ hchar
  · exact ht ▸ hchar
  · exact hf ▸ hchar
  · exact hb ▸ hchar
  · rw [not_or] at hself
    rw [List.singleton_append, piecesFrom_plain hself.1 hself.2 hprintable.1]
    exact hchar
  · obtain ⟨hhigh, hlow⟩ := not_isHigh_of_char c
    have hunit := spelt_prepend_unit h hhigh
    rw [piecesFrom_escapeUnit hbasic hrest, hunit, charOfUnit, hhigh, hlow, Bool.or_false,
      if_neg Bool.false_ne_true, Char.ofNat_toNat]
  · obtain ⟨hhigh, hlow, hpair⟩ := units_of_char (Nat.not_lt.mp hbasic)
    have hunits := spelt_escapeUnits h hhigh hlow
    rw [hpair] at hunits
    rw [List.append_assoc]
    exact hunits

/-- A text that was written is read to its closing quote. -/
theorem textFrom_writeText (opening : Nat) (s : String) (rest : List Char) :
    textFrom opening (s.toList.flatMap escapeJson ++ '"' :: rest) = .ok (s, rest) := by
  have hspelt (cs : List Char) :
      spelt (piecesFrom opening (cs.flatMap escapeJson ++ '"' :: rest)) = .ok (cs, rest) := by
    induction cs with
    | nil => rfl
    | cons c cs ih =>
      rw [List.flatMap_cons, List.append_assoc]
      exact spelt_escapeJson ih c
  obtain ⟨⟨ps, after⟩, hread, hsame⟩ := Except.map_eq_ok_iff.mp (hspelt s.toList)
  obtain ⟨hspell, rfl⟩ := Prod.mk.inj hsame
  rw [textFrom, hread]
  simp only [Except.map, hspell, String.ofList_toList]

/-! ## Integers -/

/-- Digits before this text are the last of their number, and nothing of it belongs to them. -/
def EndsNumber (rest : List Char) : Prop :=
  ∀ c ∈ rest.head?, c.isDigit = false ∧ c ≠ '.' ∧ c ≠ 'e' ∧ c ≠ 'E'

theorem fraction_eq (h : EndsNumber rest) : fraction rest = ([], rest) := by
  fun_cases fraction rest with
  | case1 => rfl
  | case2 => exact absurd rfl (h '.' rfl).2.1
  | case3 => rfl

theorem exponent_eq (h : EndsNumber rest) : exponent rest = (none, rest) := by
  cases rest with
  | nil => rfl
  | cons c rest =>
    obtain ⟨-, -, he, hE⟩ := h c rfl
    rw [exponent, if_neg (by simp [he, hE])]

theorem head?_toDigits {n : Nat} (h : 0 < n) : (Nat.toDigits 10 n).head? ≠ some '0' := by
  induction n using Nat.strongRecOn with
  | ind n ih =>
    by_cases hsmall : n < 10
    · have hall : ∀ d : Fin 10, 0 < d.val → Nat.digitChar d ≠ '0' := by decide
      rw [Nat.toDigits_of_lt_base hsmall, List.head?_cons, ne_eq, Option.some.injEq]
      exact hall ⟨n, hsmall⟩ h
    · rw [Nat.toDigits_of_base_le (by decide) (Nat.not_lt.mp hsmall),
        List.head?_append_of_ne_nil _ Nat.toDigits_ne_nil]
      exact ih (n / 10) (by omega) (by omega)

theorem isDigit_of_mem_toDigits {n : Nat} (h : c ∈ Nat.toDigits 10 n) : c.isDigit :=
  Nat.isDigit_of_mem_toDigits (by decide) (by decide) h

theorem exists_toDigits (n : Nat) : ∃ d ds, Nat.toDigits 10 n = d :: ds ∧ d.isDigit := by
  obtain ⟨d, ds, hdigits⟩ := List.exists_cons_of_ne_nil (Nat.toDigits_ne_nil (n := n) (b := 10))
  exact ⟨d, ds, hdigits, isDigit_of_mem_toDigits (hdigits ▸ List.mem_cons_self)⟩

/-- The digits of a number are taken to the last. -/
theorem wholeDigits_toDigits (n : Nat) (h : EndsNumber rest) :
    wholeDigits (Nat.toDigits 10 n ++ rest) = (Nat.toDigits 10 n, rest) := by
  have hstop : rest.takeWhile Char.isDigit = [] ∧ rest.dropWhile Char.isDigit = rest := by
    cases rest with
    | nil => exact ⟨rfl, rfl⟩
    | cons c rest => simp [(h c rfl).1]
  by_cases hn : n = 0
  · subst hn
    rfl
  · have hhead : ∀ rest', Nat.toDigits 10 n ++ rest ≠ '0' :: rest' := fun rest' hzero => by
      have hzero := congrArg List.head? hzero
      rw [List.head?_append_of_ne_nil _ Nat.toDigits_ne_nil] at hzero
      exact head?_toDigits (Nat.pos_of_ne_zero hn) hzero
    rw [wholeDigits]
    · rw [List.takeWhile_append_of_pos fun _ => isDigit_of_mem_toDigits,
        List.dropWhile_append_of_pos fun _ => isDigit_of_mem_toDigits, hstop.1, hstop.2,
        List.append_nil]
    · exact hhead

theorem naturalOf_eq (ds : List Char) : Numeral.naturalOf ds = Nat.ofDigitChars 10 ds 0 := by
  rw [Numeral.naturalOf, Nat.ofDigitChars_eq_foldl]
  simp only [Nat.mul_comm]
  rfl

theorem numberOf_toDigits {n : Nat} (h : n < Numeral.writableBound) (negative : Bool) :
    numberOf negative (Nat.toDigits 10 n) [] none =
      .ok (.int (if negative then -(n : Int) else n)) := by
  have hlength : (Nat.toDigits 10 n).length ≤ Numeral.digitLimit := by
    apply Numeral.length_toDigits_le (by decide)
    unfold Numeral.writableBound at h
    exact h
  have hvalue : Numeral.naturalOf (Nat.toDigits 10 n) = n := by
    rw [naturalOf_eq]
    exact Nat.ofDigitChars_toDigits (by decide) (by decide)
  simp only [numberOf, List.isEmpty_nil, Option.isNone_none, Bool.and_self, if_true,
    Nat.not_lt.mpr hlength, if_false, hvalue]

theorem toList_toString_negSucc (n : Nat) :
    (toString (Int.negSucc n)).toList = '-' :: Nat.toDigits 10 (n + 1) := by
  have htext : toString (Int.negSucc n) = "-" ++ (n + 1).repr := rfl
  rw [htext, String.toList_append, Nat.toList_repr]
  rfl

/-- An integer that was written is read to its last digit. -/
theorem number_toString {i : Int} (hi : Numeral.isWritable i) (h : EndsNumber rest) :
    number ((toString i).toList ++ rest) = .ok (.int i, rest) := by
  have hi : i.natAbs < Numeral.writableBound := of_decide_eq_true hi
  have hne (n : Nat) : (Nat.toDigits 10 n).isEmpty = false :=
    List.isEmpty_eq_false_iff.mpr Nat.toDigits_ne_nil
  cases i with
  | ofNat n =>
    have htext : (toString (Int.ofNat n)).toList = Nat.toDigits 10 n := Nat.toList_repr
    have hminus : ∀ rest', Nat.toDigits 10 n ++ rest ≠ '-' :: rest' := fun rest' hminus => by
      obtain ⟨d, ds, hdigits, hd⟩ := exists_toDigits n
      rw [hdigits] at hminus
      cases hminus
      cases hd
    have hread : numberOf false (Nat.toDigits 10 n) [] none = .ok (.int n) :=
      numberOf_toDigits hi false
    rw [htext, number]
    · simp only [wholeDigits_toDigits n h, fraction_eq h, exponent_eq h, hne, hread,
        Bool.false_eq_true, if_false]
      rfl
    · exact hminus
  | negSucc n =>
    have hread : numberOf true (Nat.toDigits 10 (n + 1)) [] none = .ok (.int (Int.negSucc n)) :=
      numberOf_toDigits hi true
    rw [toList_toString_negSucc, List.cons_append, number]
    simp only [wholeDigits_toDigits (n + 1) h, fraction_eq h, exponent_eq h, hne, hread,
      Bool.false_eq_true, if_false]

theorem scalar_eq_number (h : ∀ w ∈ words, w.1.toList.isPrefixOf cs = false) :
    scalar cs = number cs := by
  unfold scalar
  split
  · next r hword =>
    obtain ⟨w, hw, hword⟩ := List.exists_of_findSome?_eq_some hword
    simp [dropWord?, h w hw] at hword
  · rfl

/-- No word begins like an integer. -/
theorem isPrefixOf_digit (h : c.isDigit) (cs : List Char) :
    ∀ w ∈ words, w.1.toList.isPrefixOf (c :: cs) = false := by
  have hword : ∀ w ∈ words, ∃ d ds, w.1.toList = d :: ds ∧ d.isDigit = false := by simp [words]
  intro w hw
  obtain ⟨d, ds, hd, hnot⟩ := hword w hw
  rw [hd, List.isPrefixOf, beq_false_of_ne (Numeral.ne_of_isDigit h hnot).symm, Bool.false_and]

theorem isPrefixOf_minus (h : c.isDigit) (cs : List Char) :
    ∀ w ∈ words, w.1.toList.isPrefixOf ('-' :: c :: cs) = false := by
  have hne : 'I' ≠ c := (Numeral.ne_of_isDigit h rfl).symm
  simp [words, List.isPrefixOf, hne]

theorem toList_toString (i : Int) :
    ∃ d ds, d.isDigit ∧ ((toString i).toList = d :: ds ∨ (toString i).toList = '-' :: d :: ds) := by
  cases i with
  | ofNat n =>
    obtain ⟨d, ds, hdigits, hd⟩ := exists_toDigits n
    exact ⟨d, ds, hd, .inl (Nat.toList_repr.trans hdigits)⟩
  | negSucc n =>
    obtain ⟨d, ds, hdigits, hd⟩ := exists_toDigits (n + 1)
    exact ⟨d, ds, hd, .inr ((toList_toString_negSucc n).trans (congrArg _ hdigits))⟩

theorem scalar_toString {i : Int} (hi : Numeral.isWritable i) (h : EndsNumber rest) :
    scalar ((toString i).toList ++ rest) = .ok (.int i, rest) := by
  rw [← number_toString hi h]
  apply scalar_eq_number
  obtain ⟨d, ds, hd, htext | htext⟩ := toList_toString i
  · rw [htext]
    exact isPrefixOf_digit hd _
  · rw [htext]
    exact isPrefixOf_minus hd _

theorem value_eq_scalar {fuel room : Nat} (hquote : c ≠ '"') (hbracket : c ≠ '[') (hbrace : c ≠ '\x7b') :
    value (fuel + 1) room (c :: cs) = scalar (c :: cs) := by
  rw [value]
  all_goals simp_all

/-! ## Levels -/

theorem enter_succ (room : Nat) (activity : String) (cs : List Char) :
    enter (room + 1) activity cs = .ok room := by
  rw [enter, levelCost, Nesting.enter_one_succ]
  rfl

theorem room_of_enter {room inner : Nat} {activity : String} (h : enter room activity cs = .ok inner) :
    room = inner + 1 := by
  cases room with
  | zero => cases h
  | succ room =>
    rw [enter_succ] at h
    cases h
    rfl

end Attest.Json
