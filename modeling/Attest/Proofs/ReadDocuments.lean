import Attest.Proofs.ArtifactCollisions
import Attest.Proofs.JsonScalars
import Attest.Proofs.WritableDocuments

/-! # What JSON is read as

A document that was read from JSON holds each name once, no integer in it has too many digits to be
written, and its levels fit in the room of the reader. So it can be written where there is as much room,
and it is plain unless there is a double in it. -/

namespace Attest

open Except

namespace Members

variable {pairs : List (String × Document)} {m : String × Document}

theorem nodup_ofPairs (pairs : List (String × Document)) : (ofPairs pairs).names.Nodup := by
  have hfold (pairs : List (String × Document)) (ms : Members) (h : ms.names.Nodup) :
      (names (pairs.foldl (fun ms p => ms.set p.1 p.2) ms)).Nodup := by
    induction pairs generalizing ms with
    | nil => exact h
    | cons p pairs ih => exact ih _ (nodup_set h p.1 p.2)
  exact hfold pairs [] List.nodup_nil

theorem mem_of_mem_set {ms : Members} {name : String} {v : Document} (h : m ∈ ms.set name v) :
    m = (name, v) ∨ m ∈ ms := by
  induction ms with
  | nil => exact .inl (List.mem_singleton.mp h)
  | cons n ns ih =>
    rw [set] at h
    split at h
    · rcases List.mem_cons.mp h with rfl | h
      · exact .inl rfl
      · exact .inr (List.mem_cons_of_mem n h)
    · rcases List.mem_cons.mp h with rfl | h
      · exact .inr List.mem_cons_self
      · exact (ih h).imp_right (List.mem_cons_of_mem n)

theorem mem_of_mem_ofPairs (h : m ∈ ofPairs pairs) : m ∈ pairs := by
  have hfold (pairs : List (String × Document)) (ms : Members)
      (h : m ∈ pairs.foldl (fun ms p => ms.set p.1 p.2) ms) : m ∈ pairs ∨ m ∈ ms := by
    induction pairs generalizing ms with
    | nil => exact .inr h
    | cons p pairs ih =>
      rcases ih _ h with h | h
      · exact .inl (List.mem_cons_of_mem p h)
      · rcases mem_of_mem_set h with rfl | h
        · exact .inl List.mem_cons_self
        · exact .inr h
  exact (hfold pairs [] h).resolve_right List.not_mem_nil

end Members

namespace Document

/-- Somewhere in the document stands a double. -/
inductive HasDouble : Document → Prop where
  | float (x : Binary64) : HasDouble (.float x)
  | item {xs : List Document} {x : Document} (h : x ∈ xs) (hx : HasDouble x) : HasDouble (.list xs)
  | value {ms : Members} {m : String × Document} (h : m ∈ ms) (hm : HasDouble m.2) :
      HasDouble (.object ms)

@[simp] theorem not_hasDouble_int (i : Int) : ¬HasDouble (.int i) := nofun

@[simp] theorem not_hasDouble_text (s : String) : ¬HasDouble (.text s) := nofun

@[simp] theorem hasDouble_list {xs : List Document} :
    HasDouble (.list xs) ↔ ∃ x ∈ xs, HasDouble x :=
  ⟨fun | .item h hx => ⟨_, h, hx⟩, fun ⟨_, h, hx⟩ => .item h hx⟩

@[simp] theorem hasDouble_object {ms : Members} :
    HasDouble (.object ms) ↔ ∃ m ∈ ms, HasDouble m.2 :=
  ⟨fun | .value h hm => ⟨_, h, hm⟩, fun ⟨_, h, hm⟩ => .value h hm⟩

theorem IsPlain.not_hasDouble {d : Document} (h : IsPlain d) : ¬HasDouble d := by
  induction h with
  | list items ih => simpa using ih
  | object names values ih =>
    rw [hasDouble_object]
    rintro ⟨m, hm, hdouble⟩
    exact ih m hm hdouble
  | _ => exact nofun

/-- What reading with some room makes sure of. -/
structure IsRead (room : Nat) (d : Document) : Prop where
  plain : IsPlain d ∨ HasDouble d
  integers : ∀ i ∈ d.integers, Numeral.isWritable i
  levels : d.levels ≤ room

namespace IsRead

variable {room : Nat}

theorem null : IsRead room .null := ⟨.inl .null, by simp [Document.integers], Nat.zero_le room⟩

theorem bool (b : Bool) : IsRead room (.bool b) :=
  ⟨.inl (.bool b), by simp [Document.integers], Nat.zero_le room⟩

theorem int {i : Int} (h : Numeral.isWritable i) : IsRead room (.int i) :=
  ⟨.inl (.int i), by simpa [Document.integers] using h, Nat.zero_le room⟩

theorem float (x : Binary64) : IsRead room (.float x) :=
  ⟨.inr (.float x), by simp [Document.integers], Nat.zero_le room⟩

theorem text (s : String) : IsRead room (.text s) :=
  ⟨.inl (.text s), by simp [Document.integers], Nat.zero_le room⟩

theorem list {xs : List Document} (h : ∀ x ∈ xs, IsRead room x) : IsRead (room + 1) (.list xs) where
  plain := by
    rw [hasDouble_list, or_iff_not_imp_right]
    exact fun hnone => .list fun x hx => (h x hx).plain.resolve_right fun hd => hnone ⟨x, hx, hd⟩
  integers := forall_mem_integers_list.mpr fun x hx => (h x hx).integers
  levels := Nat.succ_le_succ (itemLevels_le_iff.mpr fun x hx => (h x hx).levels)

theorem object {ms : Members} (hnames : ms.names.Nodup) (h : ∀ m ∈ ms, IsRead room m.2) :
    IsRead (room + 1) (.object ms) where
  plain := by
    rw [hasDouble_object, or_iff_not_imp_right]
    exact fun hnone => .object hnames fun m hm =>
      (h m hm).plain.resolve_right fun hd => hnone ⟨m, hm, hd⟩
  integers := forall_mem_integers_object.mpr fun m hm => (h m hm).integers
  levels := Nat.succ_le_succ (memberLevels_le_iff.mpr fun m hm => (h m hm).levels)

end IsRead

end Document

namespace Json

open Document

variable {cs rest : List Char} {d : Document} {room : Nat}

theorem ofDigitChars_lt {ds : List Char} (h : ∀ c ∈ ds, c.isDigit) :
    Nat.ofDigitChars 10 ds 0 < Nat.pow 10 ds.length := by
  induction ds using List.reverseRecOn with
  | nil => exact Nat.one_pos
  | append_singleton ds c ih =>
    have hc := Numeral.toNat_of_isDigit (h c (by simp))
    have hds := ih fun d hd => h d (by simp [hd])
    have hpow : Nat.pow 10 (ds.length + 1) = Nat.pow 10 ds.length * 10 := rfl
    rw [Nat.ofDigitChars_append, List.length_append, List.length_singleton, hpow]
    simp only [Nat.ofDigitChars_cons, Nat.ofDigitChars_nil]
    have hzero : '0'.toNat = 48 := rfl
    omega

theorem ofDigitChars_lt_pow {ds : List Char} {limit : Nat} (h : ∀ c ∈ ds, c.isDigit)
    (hlength : ds.length ≤ limit) : Nat.ofDigitChars 10 ds 0 < Nat.pow 10 limit :=
  Nat.lt_of_lt_of_le (ofDigitChars_lt h) (Nat.pow_le_pow_right (by decide) hlength)

theorem isDigit_of_mem_wholeDigits {c : Char} (h : c ∈ (wholeDigits cs).1) : c.isDigit := by
  fun_cases wholeDigits cs with
  | case1 rest =>
    obtain rfl := List.mem_singleton.mp h
    rfl
  | case2 =>
    rw [wholeDigits] at h
    · exact List.mem_takeWhile_imp h
    · assumption

/-- Digits are counted before they are taken for an integer. -/
theorem isRead_of_numberOf {negative : Bool} {whole frac : List Char} {exp : Option Int}
    (hdigits : ∀ c ∈ whole, c.isDigit) (h : numberOf negative whole frac exp = .ok d) :
    IsRead room d := by
  unfold numberOf at h
  split at h
  · split at h
    · cases h
    · next hlong =>
      cases h
      have hvalue : Numeral.naturalOf whole < Numeral.writableBound := by
        rw [naturalOf_eq]
        unfold Numeral.writableBound
        exact ofDigitChars_lt_pow hdigits (Nat.not_lt.mp hlong)
      apply IsRead.int
      apply decide_eq_true
      split
      · rwa [Int.natAbs_neg, Int.natAbs_natCast]
      · rwa [Int.natAbs_natCast]
  · cases h
    exact .float _

theorem isRead_of_number (h : number cs = .ok (d, rest)) : IsRead room d := by
  revert h
  fun_cases number cs with
  | case1 =>
    intro h
    cases h
  | case2 =>
    intro h
    cases h
  | case3 negative body hsign whole after hwhole hne frac _ hfrac exp _ hexp d' hnumber =>
    intro h
    cases h
    apply isRead_of_numberOf _ hnumber
    intro c hc
    have hc : c ∈ (wholeDigits body).1 := by rwa [hwhole]
    exact isDigit_of_mem_wholeDigits hc

theorem isRead_of_scalar (h : scalar cs = .ok (d, rest)) : IsRead room d := by
  have hwords : ∀ w ∈ words, IsRead room w.2 := by
    simp only [words, List.forall_mem_cons]
    exact ⟨.null, .bool _, .bool _, .float _, .float _, .float _, by simp⟩
  unfold scalar at h
  split at h
  · next r hword =>
    cases h
    obtain ⟨w, hw, hword⟩ := List.exists_of_findSome?_eq_some hword
    obtain ⟨rest, -, hword⟩ := Option.map_eq_some_iff.mp hword
    cases hword
    exact hwords w hw
  · exact isRead_of_number h

/-- Values, items and members are read by one another, each with less fuel. -/
theorem isRead_of_values (fuel : Nat) :
    (∀ room cs d rest, value fuel room cs = .ok (d, rest) → IsRead room d) ∧
    (∀ room cs xs rest, items fuel room cs = .ok (xs, rest) → ∀ x ∈ xs, IsRead room x) ∧
    ∀ room cs ms rest, members fuel room cs = .ok (ms, rest) → ∀ m ∈ ms, IsRead room m.2 := by
  induction fuel with
  | zero => refine ⟨fun _ _ _ _ h => ?_, fun _ _ _ _ h => ?_, fun _ _ _ _ h => ?_⟩ <;> cases h
  | succ fuel ih =>
    obtain ⟨hvalue, hitems, hmembers⟩ := ih
    refine ⟨fun room cs d rest h => ?_, fun room cs xs rest h => ?_, fun room cs ms rest h => ?_⟩
    · rw [value.eq_def] at h
      dsimp only at h
      split at h
      · obtain ⟨⟨s, rest⟩, -, h⟩ := map_eq_ok_iff.mp h
        cases h
        exact .text s
      · obtain ⟨inner, henter, h⟩ := bind_eq_ok_iff.mp h
        obtain rfl := room_of_enter henter
        split at h
        · cases h
          exact .list (by simp)
        · obtain ⟨⟨xs, rest⟩, hread, h⟩ := map_eq_ok_iff.mp h
          cases h
          exact .list (hitems _ _ _ _ hread)
      · obtain ⟨inner, henter, h⟩ := bind_eq_ok_iff.mp h
        obtain rfl := room_of_enter henter
        split at h
        · cases h
          exact .object List.nodup_nil (by simp)
        · obtain ⟨⟨ms, rest⟩, hread, h⟩ := map_eq_ok_iff.mp h
          cases h
          exact .object (Members.nodup_ofPairs ms) fun m hm =>
            hmembers _ _ _ _ hread m (Members.mem_of_mem_ofPairs hm)
      · exact isRead_of_scalar h
    · rw [items.eq_def] at h
      dsimp only at h
      obtain ⟨⟨x, after⟩, hx, h⟩ := bind_eq_ok_iff.mp h
      have hx := hvalue _ _ _ _ hx
      dsimp only at h
      split at h
      · cases h
        exact List.forall_mem_singleton.mpr hx
      · obtain ⟨⟨xs, after⟩, hrest, h⟩ := bind_eq_ok_iff.mp h
        cases h
        exact List.forall_mem_cons.mpr ⟨hx, hitems _ _ _ _ hrest⟩
      · cases h
    · rw [members.eq_def] at h
      dsimp only at h
      split at h
      · obtain ⟨⟨name, after⟩, -, h⟩ := bind_eq_ok_iff.mp h
        dsimp only at h
        split at h
        · obtain ⟨⟨v, after⟩, hv, h⟩ := bind_eq_ok_iff.mp h
          have hv := hvalue _ _ _ _ hv
          dsimp only at h
          split at h
          · cases h
            exact List.forall_mem_singleton.mpr hv
          · obtain ⟨⟨ms, after⟩, hrest, h⟩ := bind_eq_ok_iff.mp h
            cases h
            exact List.forall_mem_cons.mpr ⟨hv, hmembers _ _ _ _ hrest⟩
          · cases h
        · cases h
      · cases h

theorem isRead_of_readChars (h : readChars room cs = .ok d) : IsRead room d := by
  rw [readChars.eq_def] at h
  split at h
  · cases h
  · obtain ⟨⟨d', rest⟩, hread, h⟩ := bind_eq_ok_iff.mp h
    dsimp only at h
    split at h
    · cases h
      exact (isRead_of_values _).1 _ _ _ _ hread
    · cases h

theorem isPlain_iff_of_readChars (h : readChars room cs = .ok d) : IsPlain d ↔ ¬HasDouble d :=
  ⟨IsPlain.not_hasDouble, (isRead_of_readChars h).plain.resolve_right⟩

/-- What was read can be written where there is as much room. -/
theorem write_of_readChars (h : readChars room cs = .ok d) (indent : Indent) :
    write room indent d = .ok (render indent d) :=
  write_eq_ok_iff.mpr ⟨⟨(isRead_of_readChars h).integers, (isRead_of_readChars h).levels⟩, rfl⟩

end Json

end Attest
