import Attest.Proofs.DocumentShapes

/-! # Parts that are put in the place of others

What a member is after another was put in, and documents that differ only in what some names lead
to. -/

namespace Attest

namespace Members

variable {ms : Members} {name : String} {d : Document}

theorem get?_cons (m : String × Document) (ms : Members) (name : String) :
    get? (m :: ms) name = if m.1 = name then some m.2 else get? ms name := by
  by_cases hname : m.1 = name
  · simp [get?, hname]
  · simp [get?, hname]

theorem get?_set (ms : Members) (name : String) (d : Document) (other : String) :
    get? (set ms name d) other = if name = other then some d else get? ms other := by
  induction ms with
  | nil => rw [set, get?_cons]
  | cons m ms ih =>
    by_cases hname : m.1 = name
    · simp only [set, hname, beq_self_eq_true, if_true, get?_cons]
      by_cases hother : name = other
      · simp [hother]
      · simp [hother]
    · have hset : set (m :: ms) name d = m :: set ms name d := by simp [set, hname]
      rw [hset, get?_cons, get?_cons, ih]
      by_cases hother : m.1 = other
      · have hne : name ≠ other := fun h => hname (hother.trans h.symm)
        simp [hother, hne]
      · simp [hother]

theorem set_eq_self (h : get? ms name = some d) : set ms name d = ms := by
  induction ms with
  | nil => simp [get?] at h
  | cons m ms ih =>
    rw [get?_cons] at h
    by_cases hname : m.1 = name
    · rw [if_pos hname] at h
      subst hname
      cases h
      simp [set]
    · rw [if_neg hname] at h
      simp [set, hname, ih h]

end Members

namespace Document

/-- The document with a part in the place of what names lead to through objects, if they lead to
anything. -/
def put : Document → List String → Document → Document
  | _, [], part => part
  | object ms, name :: names, part =>
      match Members.get? ms name with
      | some d => object (Members.set ms name (d.put names part))
      | none => object ms
  | d, _ :: _, _ => d

variable {d part : Document} {names : List String}

theorem put_object {ms : Members} {name : String} (h : Members.get? ms name = some d)
    (names : List String) (part : Document) :
    (object ms).put (name :: names) part = object (Members.set ms name (d.put names part)) := by
  simp [put, h]

theorem at?_object {ms : Members} {name : String} (h : Members.get? ms name = some d)
    (names : List String) : (object ms).at? (name :: names) = d.at? names := by
  rw [at?, h, Option.bind_some]

/-- Where names lead to something, the first of them is that of a member. -/
theorem exists_member {name : String} (h : d.at? (name :: names) = some part) :
    ∃ ms inner, d = object ms ∧ Members.get? ms name = some inner ∧ inner.at? names = some part := by
  cases d with
  | object ms =>
    obtain ⟨inner, hinner, h⟩ := Option.bind_eq_some_iff.mp h
    exact ⟨ms, inner, rfl, hinner, h⟩
  | _ => cases h

theorem member_eq_ok {name : String} (h : d.at? [name] ≠ none) :
    d.member name = .ok ((d.at? [name]).getD .null) := by
  cases d with
  | object ms =>
    obtain ⟨part, hpart⟩ := Option.ne_none_iff_exists'.mp h
    obtain ⟨ms, inner, hms, hinner, -⟩ := exists_member hpart
    cases hms
    rw [member, hinner, at?_object hinner]
    rfl
  | _ => simp [at?] at h

theorem get_set_self (ms : Members) (name : String) (d standIn : Document) :
    (object (Members.set ms name d)).get name standIn = .ok d := by
  rw [get_eq_ok rfl, at?_object (by rw [Members.get?_set, if_pos rfl]), at?, Option.getD_some]

theorem get_set_of_ne {name other : String} (h : name ≠ other) (ms : Members) (d standIn : Document) :
    (object (Members.set ms name d)).get other standIn = (object ms).get other standIn := by
  rw [get_eq_ok rfl, get_eq_ok rfl, at?, at?, Members.get?_set, if_neg h]

theorem put_eq_self (h : d.at? names = some part) : d.put names part = d := by
  induction names generalizing d with
  | nil => exact (Option.some.inj h).symm
  | cons name names ih =>
    obtain ⟨ms, inner, rfl, hinner, h⟩ := exists_member h
    rw [put_object hinner, ih h, Members.set_eq_self hinner]

end Document

end Attest
