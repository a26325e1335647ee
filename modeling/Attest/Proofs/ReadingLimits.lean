import Attest.Json.Reader
import Attest.Project.Tree
import Attest.Proofs.Outcome
import Attest.Toml.Reader

/-! # Where reading breaks down

What is read may be malformed in any way, and mostly that is all that is said of it. A few things cannot
be read at all: a directory in a file's place, a document that is nested too deeply, and a configuration
that is, or that has an integer of too many digits. -/

namespace Attest

open Except

namespace Tree

variable {t : Tree} {name s : String} {path : Path}

theorem text?_of_read (h : t.read name path = .ok s) : t.text? path = some s := by
  unfold Tree.read at h
  cases htext : t.text? path with
  | none =>
    rw [htext] at h
    cases h
  | some s' =>
    rw [htext] at h
    cases h
    rfl

theorem read_eq_ok (h : t.text? path = some s) : t.read name path = .ok s := by
  rw [Tree.read, h]

theorem fails_read_iff : (t.read name path).Fails ↔ t.text? path = none := by
  unfold Tree.read
  cases t.text? path <;> simp

end Tree

theorem Json.tooDeep_of_read {s : String} {d : Defect} (h : Json.read s = .error d) :
    ∃ activity, d = .tooDeep activity := by
  unfold Json.read at h
  split at h
  · cases h
  · split at h
    · cases h
      exact ⟨_, rfl⟩
    · cases h

namespace Toml

/-- What the reading of a configuration breaks down with. -/
inductive Breakdown : Defect → Prop
  | digits {count : Nat} (h : Numeral.digitLimit < count) :
      Breakdown (.badValue (Numeral.Fault.tooLong count).message)
  | depth : Breakdown (.tooDeep "reading a nested value")

/-- Reading breaks down at the limits only. -/
def Bounded (r : Except Refusal α) : Prop := ∀ d, r = .error (.defect d) → Breakdown d

theorem bounded_ok (a : α) : Bounded (.ok a : Except Refusal α) := by
  intro d h
  cases h

theorem bounded_malformed : Bounded (.error .malformed : Except Refusal α) := by
  intro d h
  cases h

theorem bounded_wellFormed (r : Option α) : Bounded (wellFormed r) := by
  cases r with
  | none => exact bounded_malformed
  | some a => exact bounded_ok a

theorem Bounded.bind {x : Except Refusal α} {f : α → Except Refusal β} (hx : Bounded x)
    (hf : ∀ a, Bounded (f a)) : Bounded (x >>= f) := by
  cases x with
  | error e => exact fun d h => hx d (congrArg Except.error (Except.error.inj h))
  | ok a => exact hf a

theorem Bounded.map {x : Except Refusal α} {g : α → β} (hx : Bounded x) : Bounded (x.map g) := by
  cases x with
  | error e => exact fun d h => hx d (congrArg Except.error (Except.error.inj h))
  | ok a => exact bounded_ok (g a)

/-! ### Values -/

theorem bounded_integerOf (negative : Bool) (digits : List Char) :
    Bounded (integerOf negative digits) := by
  unfold integerOf
  split
  · rename_i hdigits
    intro d h
    cases h
    exact .digits hdigits
  · exact bounded_ok _

theorem bounded_decimal (cs : List Char) : Bounded (decimal cs) := by
  refine (bounded_wellFormed _).bind ?_
  rintro ⟨whole, rest⟩
  dsimp only
  split
  · exact (bounded_integerOf _ _).bind fun d => bounded_ok _
  · exact bounded_ok _

theorem bounded_scalar (cs : List Char) : Bounded (scalar cs) := by
  unfold scalar
  split
  · exact bounded_ok _
  · exact bounded_decimal cs

theorem bounded_enter (cost room : Nat) : Bounded (enter cost room) := by
  unfold enter Nesting.enter
  split
  · intro d h
    cases h
    exact .depth
  · exact bounded_ok _

/-- Values, items and tables in braces are read by one another, each with less fuel. -/
theorem bounded_values (fuel : Nat) :
    (∀ room cs, Bounded (value fuel room cs)) ∧ (∀ room cs, Bounded (items fuel room cs)) ∧
      ∀ room es cs, Bounded (inline fuel room es cs) := by
  induction fuel with
  | zero => exact ⟨fun _ _ => bounded_malformed, fun _ _ => bounded_malformed,
      fun _ _ _ => bounded_malformed⟩
  | succ fuel ih =>
    obtain ⟨hvalue, hitems, hinline⟩ := ih
    refine ⟨fun room cs => ?_, fun room cs => ?_, fun room es cs => ?_⟩
    · rw [value.eq_def]
      dsimp only
      split
      · exact (bounded_wellFormed _).map
      · exact (bounded_wellFormed _).map
      · refine (bounded_enter _ _).bind fun inner => ?_
        exact (hitems _ _).bind fun _ => bounded_ok _
      · refine (bounded_enter _ _).bind fun inner => ?_
        split
        · exact bounded_ok _
        · exact (hinline _ _ _).bind fun _ => bounded_ok _
      · exact bounded_scalar _
    · rw [items.eq_def]
      refine (bounded_wellFormed _).bind fun rest => ?_
      split
      · exact bounded_ok _
      · refine (hvalue _ _).bind ?_
        rintro ⟨x, rest⟩
        refine (bounded_wellFormed _).bind fun rest => ?_
        split
        · exact bounded_ok _
        · exact (hitems _ _).bind fun _ => bounded_ok _
        · exact bounded_malformed
    · rw [inline.eq_def]
      refine (bounded_wellFormed _).bind ?_
      rintro ⟨key, rest⟩
      dsimp only
      split
      · refine (hvalue _ _).bind ?_
        rintro ⟨v, rest⟩
        refine (bounded_wellFormed _).bind fun es => ?_
        dsimp only
        split
        · exact bounded_ok _
        · exact hinline _ _ _
        · exact bounded_malformed
      · exact bounded_malformed

/-! ### Statements -/

theorem bounded_setting (header : List String) (es : Entries) (cs : List Char) :
    Bounded (setting header es cs) := by
  refine (bounded_wellFormed _).bind ?_
  rintro ⟨key, rest⟩
  dsimp only
  split
  · refine ((bounded_values _).1 _ _).bind ?_
    rintro ⟨v, rest⟩
    exact (bounded_wellFormed _).bind fun es => bounded_ok _
  · exact bounded_malformed

theorem bounded_statement (p : Progress) (cs : List Char) : Bounded (statement p cs) := by
  unfold statement
  split
  · refine (bounded_wellFormed _).bind ?_
    rintro ⟨key, rest⟩
    dsimp only
    split
    · exact (bounded_wellFormed _).bind fun es => bounded_ok _
    · exact bounded_malformed
  · refine (bounded_wellFormed _).bind ?_
    rintro ⟨key, rest⟩
    dsimp only
    split
    · exact (bounded_wellFormed _).bind fun es => bounded_ok _
    · exact bounded_malformed
  · exact bounded_ok _
  · exact (bounded_setting _ _ _).bind fun _ => bounded_ok _

theorem bounded_statements (fuel : Nat) (p : Progress) (cs : List Char) :
    Bounded (statements fuel p cs) := by
  induction fuel generalizing p cs with
  | zero => exact bounded_malformed
  | succ fuel ih =>
    unfold statements
    split
    · exact bounded_ok _
    · exact ih _ _
    · refine (bounded_statement _ _).bind ?_
      rintro ⟨p, rest⟩
      refine (bounded_wellFormed _).bind fun rest => ?_
      split
      · exact bounded_ok _
      · exact ih _ _
      · exact bounded_malformed

/-- A configuration of any content is read or refused, but for the limits. -/
theorem bounded_read (s : String) : Bounded (read s) := (bounded_statements _ _ _).map

/-- A configuration that is read is an object. -/
theorem exists_members_of_read {s : String} {d : Document} (h : read s = .ok d) :
    ∃ ms, d = .object ms := by
  change Except.map Entries.toDocument (statements _ _ _) = _ at h
  generalize statements _ _ _ = r at h
  cases r with
  | error e => cases h
  | ok es =>
    cases h
    exact ⟨_, rfl⟩

end Toml

end Attest
