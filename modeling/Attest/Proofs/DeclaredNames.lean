import Attest.Proofs.DocumentParts
import Attest.Solidity.Declarations

/-! # The names that a syntax tree declares

A name is known of an id exactly if some node of the tree, however deep, declares an immutable variable
of that id, and then it is the name that one of these nodes gives it. -/

namespace Attest.Solidity

/-! ### Nodes and what they declare -/

/-- The nodes of a document: itself, and those of its items or of its members' values. -/
inductive Within : Document → Document → Prop
  | self (d : Document) : Within d d
  | item {xs : List Document} {x part : Document} (hx : x ∈ xs) (h : Within x part) :
      Within (.list xs) part
  | member {ms : Members} {name : String} {d part : Document} (hd : (name, d) ∈ ms)
      (h : Within d part) : Within (.object ms) part

/-- Whether some node of a tree declares an immutable variable with an id and a name. -/
def Declares (tree : Document) (id : String) (name : Document) : Prop :=
  ∃ ms, Within tree (.object ms) ∧ declaration? ms = some (id, name)

/-- What a node declares itself. -/
def DeclaresItself (d : Document) (id : String) (name : Document) : Prop :=
  ∃ ms, d = .object ms ∧ declaration? ms = some (id, name)

variable {tree d part name : Document} {ds : List Document} {names : Names} {id : String}

theorem within_iff : Within d part ↔ d = part ∨ ∃ inner ∈ parts d, Within inner part := by
  constructor
  · rintro (_ | ⟨hx, h⟩ | ⟨hd, h⟩)
    · exact .inl rfl
    · exact .inr ⟨_, List.mem_reverse.mpr hx, h⟩
    · exact .inr ⟨_, List.mem_reverse.mpr (List.mem_map_of_mem hd), h⟩
  · rintro (rfl | ⟨inner, hinner, h⟩)
    · exact .self d
    · cases d with
      | list xs => exact .item (List.mem_reverse.mp hinner) h
      | object ms =>
        obtain ⟨⟨name, inner⟩, hmember, rfl⟩ := List.mem_map.mp (List.mem_reverse.mp hinner)
        exact .member hmember h
      | _ => cases hinner

theorem declares_iff : Declares d id name ↔
    DeclaresItself d id name ∨ ∃ inner ∈ parts d, Declares inner id name := by
  constructor
  · rintro ⟨ms, hwithin, hms⟩
    rcases within_iff.mp hwithin with rfl | ⟨inner, hinner, h⟩
    · exact .inl ⟨ms, rfl, hms⟩
    · exact .inr ⟨inner, hinner, ms, h, hms⟩
  · rintro (⟨ms, rfl, hms⟩ | ⟨inner, hinner, ms, h, hms⟩)
    · exact ⟨ms, .self _, hms⟩
    · exact ⟨ms, within_iff.mpr (.inr ⟨inner, hinner, h⟩), hms⟩

theorem declares_list {xs : List Document} :
    Declares (.list xs) id name ↔ ∃ x ∈ xs, Declares x id name := by
  simp [declares_iff (d := .list xs), DeclaresItself, parts]

theorem declares_object {ms : Members} : Declares (.object ms) id name ↔
    declaration? ms = some (id, name) ∨ ∃ inner ∈ ms.map (·.2), Declares inner id name := by
  simp only [declares_iff (d := .object ms), DeclaresItself, parts, List.mem_reverse,
    Document.object.injEq, exists_eq_left']

theorem not_declares_of_not_nested (h : d.isNested = false) : ¬Declares d id name := by
  rintro ⟨ms, hwithin, -⟩
  cases hwithin <;> cases h

theorem not_declares_of_not_given (h : tree.isGiven = false) : ¬Declares tree id name := by
  rintro ⟨ms, hwithin, hms⟩
  cases hwithin with
  | self =>
    obtain rfl : ms = [] := by simpa [Document.isGiven] using h
    cases hms
  | item hx =>
    have hempty := List.isEmpty_iff.mp (by simpa [Document.isGiven] using h)
    simp [hempty] at hx
  | member hd =>
    have hempty := List.isEmpty_iff.mp (by simpa [Document.isGiven] using h)
    simp [hempty] at hd

/-! ### One node -/

/-- What is known after a node is done. -/
def noted (names : Names) : Document → Names
  | .object ms => note names ms
  | _ => names

theorem declaredFrom_cons (names : Names) (d : Document) (ds : List Document) :
    declaredFrom names (d :: ds) = declaredFrom (noted names d) (parts d ++ ds) := by
  cases d <;> simp only [declaredFrom, noted]

/-- A node makes its own declaration known, and only that. -/
theorem get?_noted (names : Names) (d : Document) (id : String) :
    (∃ name, DeclaresItself d id name ∧ Members.get? (noted names d) id = some name) ∨
      (∀ name, ¬DeclaresItself d id name) ∧
        Members.get? (noted names d) id = Members.get? names id := by
  cases d with
  | object ms =>
    rw [noted, note]
    cases hdeclaration : declaration? ms with
    | none =>
      refine .inr ⟨?_, rfl⟩
      rintro name ⟨ms', hms, h⟩
      cases hms
      cases hdeclaration.symm.trans h
    | some p =>
      obtain ⟨declared, name⟩ := p
      simp only [Members.get?_set]
      by_cases hid : declared = id
      · subst hid
        exact .inl ⟨name, ⟨ms, rfl, hdeclaration⟩, if_pos rfl⟩
      · refine .inr ⟨?_, if_neg hid⟩
        rintro name' ⟨ms', hms, h⟩
        cases hms
        cases hdeclaration.symm.trans h
        exact hid rfl
  | _ =>
    refine .inr ⟨?_, rfl⟩
    rintro name ⟨ms, hms, -⟩
    cases hms

/-- Whether a name is known of an id, or is declared by one of the nodes that are left. -/
def Promises (names : Names) (ds : List Document) (id : String) (name : Document) : Prop :=
  Members.get? names id = some name ∨ ∃ d ∈ ds, Declares d id name

/-- What the nodes that are left declare is what the first declares itself and what is left after
it. -/
theorem exists_declares_cons : (∃ e ∈ d :: ds, Declares e id name) ↔
    DeclaresItself d id name ∨ ∃ e ∈ parts d ++ ds, Declares e id name := by
  simp only [List.mem_cons, List.mem_append, or_and_right, exists_or, exists_eq_left]
  rw [declares_iff, or_assoc]

theorem promises_of_noted (h : Promises (noted names d) (parts d ++ ds) id name) :
    Promises names (d :: ds) id name := by
  rw [Promises, exists_declares_cons]
  rcases h with h | h
  · rcases get?_noted names d id with ⟨declared, hitself, hnoted⟩ | ⟨-, hnoted⟩
    · cases hnoted.symm.trans h
      exact .inr (.inl hitself)
    · exact .inl (hnoted.symm.trans h)
  · exact .inr (.inr h)

/-- A declaration can take the place of another one of the same id, but no id gets lost. -/
theorem exists_promises_noted (h : ∃ name, Promises names (d :: ds) id name) :
    ∃ name, Promises (noted names d) (parts d ++ ds) id name := by
  obtain ⟨name, h⟩ := h
  rw [Promises, exists_declares_cons] at h
  rcases get?_noted names d id with ⟨declared, -, hnoted⟩ | ⟨hitself, hnoted⟩
  · exact ⟨declared, .inl hnoted⟩
  · rcases h with h | h | h
    · exact ⟨name, .inl (hnoted.trans h)⟩
    · exact absurd h (hitself name)
    · exact ⟨name, .inr h⟩

/-! ### All nodes -/

theorem promises_of_get? (h : Members.get? (declaredFrom names ds) id = some name) :
    Promises names ds id name := by
  induction names, ds using declaredFrom.induct with
  | case1 names => exact .inl (by rwa [declaredFrom] at h)
  | case2 names d ds ih =>
    rw [declaredFrom_cons] at h
    refine promises_of_noted ?_
    cases d <;> exact ih h

theorem exists_get?_of_promises (h : ∃ name, Promises names ds id name) :
    ∃ name, Members.get? (declaredFrom names ds) id = some name := by
  induction names, ds using declaredFrom.induct with
  | case1 names => simpa [declaredFrom, Promises] using h
  | case2 names d ds ih =>
    rw [declaredFrom_cons]
    have hnoted := exists_promises_noted h
    cases d <;> exact ih hnoted

/-- The name that is known of an id is declared in the tree. -/
theorem declares_of_get? (h : Members.get? (declaredNames tree) id = some name) :
    Declares tree id name := by
  rw [declaredNames] at h
  split at h
  · simpa [Promises, Members.get?] using promises_of_get? h
  · cases h

/-- A name is known of every id that has one declared in the tree. -/
theorem exists_get?_of_declares (h : Declares tree id name) :
    ∃ name, Members.get? (declaredNames tree) id = some name := by
  rw [declaredNames]
  split
  · exact exists_get?_of_promises ⟨name, .inr ⟨tree, by simp, h⟩⟩
  · rename_i hgiven
    exact absurd h (not_declares_of_not_given (Bool.not_eq_true _ ▸ hgiven))

end Attest.Solidity
