import Attest.Document.Access
import Attest.Proofs.Outcome

/-! # Shapes that documents can be read in

Each step of reading a document fails on the values of some shapes only. Which these are is told here
without the steps: by kinds, and by the names that lead through objects. -/

namespace Attest.Document

open Except

/-- Null, truth values and numbers, which have no elements. -/
def isAtomic : Document → Bool
  | null | bool _ | int _ | float _ => true
  | _ => false

/-- Lists and objects, which cannot name an entry of a table. -/
def isNested : Document → Bool
  | list _ | object _ => true
  | _ => false

/-- Whether a value is an object, and so is all that names lead to. What is not there is as good as an
object without members. -/
def opens : Document → List String → Bool
  | object _, [] => true
  | object ms, name :: names => ((Members.get? ms name).getD (object [])).opens names
  | _, _ => false

/-- What names lead to through objects. -/
def at? : Document → List String → Option Document
  | d, [] => some d
  | object ms, name :: names => (Members.get? ms name).bind (·.at? names)
  | _, _ :: _ => none

/-- A sequence of two, the first of which can name an entry. -/
def isPair (d : Document) : Bool :=
  match d.elements with
  | .ok [name, _] => !name.isNested
  | _ => false

/-- An object, or a sequence of pairs. -/
def isTable (d : Document) : Bool :=
  match d with
  | object _ => true
  | d => (d.elements.toOption.map fun xs => xs.all isPair).getD false

/-- A number with an integer part, or a text that is a numeral. -/
def isIntegral : Document → Bool
  | bool _ | int _ => true
  | float x => x.truncate?.isSome
  | text s => (Numeral.int? s).isSome
  | _ => false

example : (object [("a", object [("b", int 1)])]).opens ["a", "c"] = true ∧
    (object [("a", object [("b", int 1)])]).opens ["a", "b"] = false := by
  decide

/-- What holds of a value but not of its stand-in. -/
theorem getD_iff {P : Document → Prop} {standIn : Document} (h : ¬P standIn) {d? : Option Document} :
    P (d?.getD standIn) ↔ ∃ d, d? = some d ∧ P d := by
  cases d? with
  | none => simpa using h
  | some d => simp

variable {d standIn : Document} {name : String} {names : List String}

/-! ### Members -/

theorem exists_eq_object (h : d.opens names = true) : ∃ ms, d = object ms := by
  cases d with
  | object ms => exact ⟨ms, rfl⟩
  | _ => cases names <;> cases h

theorem opens_cons_of_not_opens (h : d.opens [] = false) : d.opens (name :: names) = false := by
  cases d with
  | object ms => cases h
  | _ => rfl

theorem fails_members_iff {step : String} : (d.members step).Fails ↔ d.opens [] = false := by
  cases d <;> simp [members, opens]

/-- A member is read of an object, and there is no other way to fail. -/
theorem fails_get_iff : (d.get name standIn).Fails ↔ d.opens [] = false := by
  rw [Document.get, fails_bind_pure_iff, fails_members_iff]

theorem get_eq_ok (h : d.opens [] = true) : d.get name standIn = .ok ((d.at? [name]).getD standIn) := by
  obtain ⟨ms, rfl⟩ := exists_eq_object h
  cases hget : Members.get? ms name with
  | none => simp [Document.get, members, at?, hget, bind, Except.bind, pure, Except.pure]
  | some v => simp [Document.get, members, at?, hget, bind, Except.bind, pure, Except.pure]

section

variable {v : Document}

theorem opens_nil_of_get (h : d.get name standIn = .ok v) : d.opens [] = true := by
  cases d with
  | object ms => rfl
  | _ => cases h

theorem eq_of_get (h : d.get name standIn = .ok v) : v = (d.at? [name]).getD standIn :=
  Except.ok.inj (h.symm.trans (get_eq_ok (opens_nil_of_get h)))

/-- What names lead to from a member, or from an empty object in its place. -/
theorem opens_of_get (h : d.get name (object []) = .ok v) :
    d.opens (name :: names) = v.opens names := by
  cases d with
  | object ms =>
    cases h
    rfl
  | _ => cases h

theorem at?_of_get {next : String} (h : d.get name (object []) = .ok v) :
    d.at? (name :: next :: names) = v.at? (next :: names) := by
  cases d with
  | object ms =>
    cases h
    rw [at?]
    cases Members.get? ms name with
    | none => rfl
    | some v => rfl
  | _ => cases h

end

/-- One name more, where a member is read first. -/
theorem fails_get_bind_iff {f : Document → Except Defect α}
    (h : ∀ v, (f v).Fails ↔ v.opens names = false) :
    (d.get name (object []) >>= f).Fails ↔ d.opens (name :: names) = false := by
  cases d with
  | object ms => exact h _
  | _ => simp [Document.get, members, opens, bind, Except.bind]

theorem fails_member_iff : (d.member name).Fails ↔ d.at? [name] = none := by
  cases d with
  | object ms =>
    cases hget : Members.get? ms name with
    | none => simp [member, at?, hget]
    | some v => simp [member, at?, hget]
  | _ => simp [member, at?]

/-! ### Elements -/

theorem fails_elements_iff : d.elements.Fails ↔ d.isAtomic = true := by
  cases d <;> simp [elements, isAtomic]

theorem fails_asKey_iff : d.asKey.Fails ↔ d.isNested = true := by
  cases d <;> simp [asKey, isNested]

theorem fails_mentions_iff {s : String} : (d.mentions s).Fails ↔ d.isAtomic = true := by
  cases d <;> simp [mentions, isAtomic]

/-! ### Tables and integers -/

theorem fails_pairAt_iff {place : Nat} : (pairAt place d).Fails ↔ d.isPair = false := by
  unfold pairAt isPair
  cases hparts : d.elements with
  | error e => simp
  | ok parts =>
    match parts with
    | [] => simp
    | [x] => simp
    | x :: y :: z :: rest => simp
    | [key, value] =>
      cases key with
      | text s => simp [isNested]
      | _ => simp [asKey, isNested, bind, Except.bind, pure, Except.pure]

theorem fails_pairsFrom_iff {place : Nat} {ds : List Document} :
    (pairsFrom place ds).Fails ↔ ∃ d ∈ ds, d.isPair = false := by
  induction ds generalizing place with
  | nil => simp [pairsFrom]
  | cons d ds ih =>
    rw [pairsFrom]
    simp only [List.mem_cons, exists_eq_or_imp, ← @ih (place + 1)]
    cases hpair : pairAt place d with
    | error e =>
      have hd : d.isPair = false := fails_pairAt_iff.mp ⟨e, hpair⟩
      simp [bind, Except.bind, hd]
    | ok p =>
      have hd : ¬d.isPair = false := fun h => not_fails_of_eq_ok hpair (fails_pairAt_iff.mpr h)
      rw [or_iff_right hd]
      exact fails_bind_pure_iff

theorem fails_table_iff : d.table.Fails ↔ d.isTable = false := by
  have hsequence : (do return Members.ofPairs (← pairsFrom 0 (← d.elements)) : Except Defect _).Fails ↔
      (d.elements.toOption.map fun xs => xs.all isPair).getD false = false := by
    cases d.elements with
    | error e => simp [bind, Except.bind, Except.toOption]
    | ok xs => simp [fails_pairsFrom_iff, Except.toOption]
  cases d with
  | object ms => simp [table, isTable]
  | _ => exact hsequence

theorem fails_integerIn_iff {s : String} :
    (integerIn s).Fails ↔ (Numeral.int? s).isSome = false := by
  rw [integerIn, fails_mapError_iff, Numeral.int?]
  cases Numeral.readInt s with
  | error f => simp [Except.toOption]
  | ok i => simp [Except.toOption]

theorem fails_integer_iff : d.integer.Fails ↔ d.isIntegral = false := by
  cases d with
  | text s => exact fails_integerIn_iff
  | float x =>
    cases x with
    | infinite negative => simp [integer, isIntegral, Binary64.truncate?, Binary64.toRat?]
    | _ =>
      rw [integer, isIntegral]
      · cases Binary64.truncate? _ <;> simp
      · simp
  | _ => simp [integer, isIntegral]

end Attest.Document
