import Attest.Abi.Arguments
import Attest.Proofs.Outcome

/-! # Shapes of a constructor's parameters

What a look for dynamic parts can come to: it fails on a part that could not be understood, or on
nesting that leaves no room, and on nothing else. Parameters that are what compilers report, objects
with a type in text and with components that are parameters, have no parts with other faults than types
that are no numerals or have unpaired brackets. -/

namespace Attest.Abi

open Except

/-! ### Looking for dynamic parts -/

namespace Shape

mutual
/-- The room that a look for dynamic parts takes: the items of an array without a size are not
looked at. -/
def depth : Shape → Nat
  | tuple parts => tupleCost + depths parts
  | fixedArray _ item => arrayCost + item.depth
  | _ => 0

def depths : List Shape → Nat
  | [] => 0
  | s :: ss => max s.depth (depths ss)
end

/-- A part that could not be understood, and why. -/
inductive HasFault (cause : Defect) : Shape → Prop where
  | faulty : HasFault cause (faulty cause)
  | part {parts : List Shape} {s : Shape} (hs : s ∈ parts) (h : HasFault cause s) :
      HasFault cause (tuple parts)
  | item {item : Shape} (h : HasFault cause item) : HasFault cause (array item)
  | fixedItem {size : Int} {item : Shape} (h : HasFault cause item) :
      HasFault cause (fixedArray size item)

/-- A level is entered unless it takes more room than there is. -/
theorem enter_eq_error {cost room : Nat} {activity : String} {d : Defect}
    (h : Nesting.enter cost room activity = .error d) : d = .tooDeep activity ∧ room < cost := by
  unfold Nesting.enter at h
  split at h
  · cases h
    exact ⟨rfl, by assumption⟩
  · cases h

theorem enter_eq_ok_iff {cost room inner : Nat} {activity : String} :
    Nesting.enter cost room activity = .ok inner ↔ cost ≤ room ∧ inner = room - cost := by
  unfold Nesting.enter
  by_cases h : room < cost
  · simp [h, Nat.not_le_of_lt h]
  · simp [h, Nat.le_of_not_lt h, eq_comm]

/- A look for dynamic parts fails on too little room, or on a part with a fault. -/
mutual
theorem dynamic_eq_error : (s : Shape) → {room : Nat} → {d : Defect} →
    s.dynamic room = .error d → d = .tooDeep nestingActivity ∧ room < s.depth ∨ s.HasFault d
  | word, _, _, h | blob, _, _, h | array _, _, _, h => by cases h
  | faulty _, _, _, h => by
    cases h
    exact .inr .faulty
  | tuple parts, room, d, h => by
    rw [dynamic, bind_eq_error_iff] at h
    rw [depth]
    obtain h | ⟨inner, henter, h⟩ := h
    · obtain ⟨rfl, hroom⟩ := enter_eq_error h
      exact .inl ⟨rfl, by omega⟩
    · obtain ⟨hcost, rfl⟩ := enter_eq_ok_iff.mp henter
      obtain ⟨rfl, hroom⟩ | ⟨s, hs, hfault⟩ := anyDynamic_eq_error parts h
      · exact .inl ⟨rfl, by omega⟩
      · exact .inr (.part hs hfault)
  | fixedArray size item, room, d, h => by
    rw [dynamic, bind_eq_error_iff] at h
    rw [depth]
    obtain h | ⟨inner, henter, h⟩ := h
    · obtain ⟨rfl, hroom⟩ := enter_eq_error h
      exact .inl ⟨rfl, by omega⟩
    · obtain ⟨hcost, rfl⟩ := enter_eq_ok_iff.mp henter
      obtain ⟨rfl, hroom⟩ | hfault := dynamic_eq_error item h
      · exact .inl ⟨rfl, by omega⟩
      · exact .inr (.fixedItem hfault)

theorem anyDynamic_eq_error : (ss : List Shape) → {room : Nat} → {d : Defect} →
    anyDynamic room ss = .error d →
      d = .tooDeep nestingActivity ∧ room < depths ss ∨ ∃ s ∈ ss, s.HasFault d
  | [], _, _, h => by cases h
  | s :: ss, room, d, h => by
    rw [anyDynamic, bind_eq_error_iff] at h
    rw [depths]
    obtain h | ⟨b, -, h⟩ := h
    · obtain ⟨rfl, hroom⟩ | hfault := dynamic_eq_error s h
      · exact .inl ⟨rfl, by omega⟩
      · exact .inr ⟨s, by simp, hfault⟩
    · cases b with
      | true => cases h
      | false =>
        obtain ⟨rfl, hroom⟩ | ⟨t, ht, hfault⟩ := anyDynamic_eq_error ss h
        · exact .inl ⟨rfl, by omega⟩
        · exact .inr ⟨t, by simp [ht], hfault⟩
end

/- Where nothing dynamic was found, all was looked at, so that there was room for it. -/
mutual
theorem depth_le_of_dynamic_eq_false : (s : Shape) → {room : Nat} →
    s.dynamic room = .ok false → s.depth ≤ room
  | word, _, _ => Nat.zero_le _
  | blob, _, h | array _, _, h | faulty _, _, h => by cases h
  | tuple parts, room, h => by
    rw [dynamic, bind_eq_ok_iff] at h
    obtain ⟨inner, henter, h⟩ := h
    obtain ⟨hcost, rfl⟩ := enter_eq_ok_iff.mp henter
    have hparts := depths_le_of_anyDynamic_eq_false parts h
    rw [depth]
    omega
  | fixedArray _ item, room, h => by
    rw [dynamic, bind_eq_ok_iff] at h
    obtain ⟨inner, henter, h⟩ := h
    obtain ⟨hcost, rfl⟩ := enter_eq_ok_iff.mp henter
    have hitem := depth_le_of_dynamic_eq_false item h
    rw [depth]
    omega

theorem depths_le_of_anyDynamic_eq_false : (ss : List Shape) → {room : Nat} →
    anyDynamic room ss = .ok false → depths ss ≤ room
  | [], _, _ => Nat.zero_le _
  | s :: ss, room, h => by
    rw [anyDynamic, bind_eq_ok_iff] at h
    obtain ⟨b, hs, h⟩ := h
    cases b with
    | true => cases h
    | false =>
      rw [depths]
      exact Nat.max_le.mpr
        ⟨depth_le_of_dynamic_eq_false s hs, depths_le_of_anyDynamic_eq_false ss h⟩
end

/-! ### Shapes of types -/

section

variable {parts : Except Defect (List Shape)} {d : Defect}

/-- What a type takes from its components: their faults. -/
def PartFault (parts : Except Defect (List Shape)) (d : Defect) : Prop :=
  parts = .error d ∨ ∃ ps, parts = .ok ps ∧ ∃ s ∈ ps, s.HasFault d

theorem partFault_of_hasFault_ofName {name : List Char} (h : (ofName parts name).HasFault d) :
    PartFault parts d := by
  unfold ofName at h
  split at h
  · cases h
  split at h
  · cases parts with
    | ok ps =>
      cases h with
      | part hs h => exact .inr ⟨ps, rfl, _, hs, h⟩
    | error e =>
      cases h
      exact .inl rfl
  · cases h

theorem integerIn_eq_error {s : String} (h : Document.integerIn s = .error d) :
    ∃ what, d = .badValue what := by
  unfold Document.integerIn at h
  cases hread : Numeral.readInt s with
  | ok i =>
    rw [hread] at h
    cases h
  | error f =>
    rw [hread] at h
    cases h
    exact ⟨_, rfl⟩

/-- A type in text adds no other fault than a number or a bracket that is missing. -/
theorem badValue_or_partFault (name : List Char) (h : (ofReversed parts name).HasFault d) :
    (∃ what, d = .badValue what) ∨ PartFault parts d := by
  fun_induction ofReversed parts name with
  | case1 rest hrest =>
    cases h
    exact .inl ⟨_, rfl⟩
  | case2 rest c base hrest hlt size hsize ih =>
    cases h with
    | item h => exact ih h
  | case3 rest c base hrest hlt size hsize k hk ih =>
    cases h with
    | fixedItem h => exact ih h
  | case4 rest c base hrest hlt size hsize e he =>
    cases h
    exact .inl (integerIn_eq_error he)
  | case5 name hname => exact .inr (partFault_of_hasFault_ofName h)

end

theorem componentsIn_eq (ms : Members) :
    componentsIn ms = (Members.get? ms "components").map partsOf := by
  induction ms with
  | nil => rfl
  | cons m ms ih =>
    obtain ⟨name, d⟩ := m
    unfold Members.get? at ih ⊢
    by_cases h : name = "components"
    · simp [componentsIn, componentsOf, h]
    · simp [componentsIn, componentsOf, h, ih]

theorem ofDocuments_eq_map (ds : List Document) : ofDocuments ds = ds.map ofDocument := by
  induction ds with
  | nil => rfl
  | cons d ds ih => rw [ofDocuments, ih, List.map_cons]

/-- The shape of an object whose type is a text. -/
theorem ofDocument_object {ms : Members} {s : String}
    (htype : Members.get? ms "type" = some (.text s)) :
    ofDocument (.object ms) =
      ofReversed (((Members.get? ms "components").map partsOf).getD (.ok [])) s.toList.reverse := by
  rw [ofDocument, htype, componentsIn_eq, ofType]

end Shape

/-! ### Parameters -/

/-- A parameter as a compiler reports it: an object whose type is a text, and whose components, if it
has any, are a list of parameters. -/
inductive IsParameter : Document → Prop where
  | plain {ms : Members} {s : String} (htype : Members.get? ms "type" = some (.text s))
      (hcomponents : Members.get? ms "components" = none) : IsParameter (.object ms)
  | composed {ms : Members} {s : String} {ds : List Document}
      (htype : Members.get? ms "type" = some (.text s))
      (hcomponents : Members.get? ms "components" = some (.list ds))
      (hparts : ∀ d ∈ ds, IsParameter d) : IsParameter (.object ms)

theorem IsParameter.badValue_of_hasFault {p : Document} (hp : IsParameter p) {d : Defect}
    (h : (Shape.ofDocument p).HasFault d) : ∃ what, d = .badValue what := by
  induction hp with
  | plain htype hcomponents =>
    rw [Shape.ofDocument_object htype, hcomponents] at h
    obtain hbad | hparts | ⟨ps, hps, s, hs, -⟩ := Shape.badValue_or_partFault _ h
    · exact hbad
    · cases hparts
    · cases hps
      cases hs
  | composed htype hcomponents hparts ih =>
    rw [Shape.ofDocument_object htype, hcomponents] at h
    obtain hbad | hparts | ⟨ps, hps, s, hs, hfault⟩ := Shape.badValue_or_partFault _ h
    · exact hbad
    · cases hparts
    · cases hps
      rw [Shape.ofDocuments_eq_map] at hs
      obtain ⟨c, hc, rfl⟩ := List.mem_map.mp hs
      exact ih c hc hfault

/-- A parameter is read, or its type cannot be understood, or it is nested too deep. -/
theorem IsParameter.slot_eq_error {p : Document} (hp : IsParameter p) {d : Defect}
    (h : Slot.ofDocument p = .error d) :
    (∃ what, d = .badValue what) ∨
      d = .tooDeep Shape.nestingActivity ∧ Nesting.room < (Shape.ofDocument p).depth := by
  unfold Slot.ofDocument at h
  rw [bind_eq_error_iff] at h
  obtain h | ⟨dynamic, -, h⟩ := h
  · obtain hdeep | hfault := Shape.dynamic_eq_error _ h
    · exact .inr hdeep
    · exact .inl (hp.badValue_of_hasFault hfault)
  · cases h

/-! ### Refusals -/

/-- What arguments are refused with: an inconsistency, unless a parameter is nested deeper than there is
room for, or the head has a size that is too long to be written. -/
inductive Refuses (parameters : Option (List Document)) : Obstacle → Prop where
  | inconsistent (cause : Inconsistency) : Refuses parameters (.inconsistent cause)
  | tooDeep {ps : List Document} {p : Document} (hps : parameters = some ps) (hp : p ∈ ps)
      (hdepth : Nesting.room < (Shape.ofDocument p).depth) :
      Refuses parameters (.defect (.tooDeep Shape.nestingActivity))
  | unwritable {ps : List Document} {slots : List Slot} (hps : parameters = some ps)
      (hslots : ps.mapM Slot.ofDocument = .ok slots)
      (hhead : Numeral.isWritable (headSize slots) = false) :
      Refuses parameters (.defect (.badValue Numeral.unwritableText))

/-- No number in a misfit but the size of the head can be too long. -/
theorem isWritable_of_misfit? {args : Bytes} {slots : List Slot} {cause : Inconsistency}
    (h : misfit? args slots = some cause) (hcause : cause.isWritable = false) :
    Numeral.isWritable (headSize slots) = false := by
  simp only [misfit?] at h
  split at h
  · cases h
    exact hcause
  split at h
  · rename_i i hoffset
    cases h
    obtain ⟨p, -, hp⟩ := List.exists_of_findSome?_eq_some hoffset
    simp only [badOffset?] at hp
    split at hp
    · split at hp
      · cases hp
        cases hcause
      · cases hp
    · cases hp
  split at h
  · cases h
    exact hcause
  · cases h

theorem refuses_of_checkArguments {args : Bytes} {parameters : Option (List Document)}
    {e : Obstacle} (hparameters : ∀ ps, parameters = some ps → ∀ p ∈ ps, IsParameter p)
    (h : checkArguments args parameters = .error e) : Refuses parameters e := by
  unfold checkArguments at h
  split at h
  · cases h
    exact .inconsistent _
  split at h
  · cases h
  rename_i ps
  split at h
  · rename_i d hd
    cases h
    obtain ⟨p, hp, hslot⟩ := exists_of_mapM_eq_error hd
    obtain ⟨what, rfl⟩ | ⟨rfl, hdepth⟩ := (hparameters ps rfl p hp).slot_eq_error hslot
    · exact .inconsistent _
    · exact .tooDeep rfl hp hdepth
  rename_i slots hslots
  split at h
  · rename_i cause hcause
    cases h
    rw [Obstacle.ofInconsistency]
    cases hwritable : cause.isWritable with
    | true => exact .inconsistent _
    | false => exact .unwritable rfl hslots (isWritable_of_misfit? hcause hwritable)
  · cases h

end Attest.Abi
