import Attest.Proofs.ArgumentShapes
import Attest.Proofs.Numerals

/-! # Types of values and their names

The grammar of types, the names that its types have, and the parameters that declare them. The shape
that is read off such a parameter is the one that its type has. -/

namespace Attest

namespace Abi

/-! ### Types -/

/-- How many bits a number has. -/
structure Width where
  bits : Nat
  valid : 0 < bits ∧ bits ≤ 256 ∧ bits % 8 = 0

/-- How many decimals a number has. -/
structure Decimals where
  count : Nat
  valid : 0 < count ∧ count ≤ 80

/-- How many bytes a word holds. -/
structure Fill where
  bytes : Nat
  valid : 0 < bytes ∧ bytes ≤ wordSize

/-- The types whose values take one word. -/
inductive Elementary where
  | uint (width : Width)
  | int (width : Width)
  | address
  | bool
  | ufixed (width : Width) (decimals : Decimals)
  | fixed (width : Width) (decimals : Decimals)
  | bytes (fill : Fill)
  /-- An address and a selector. -/
  | function

def Elementary.name : Elementary → String
  | uint w => "uint" ++ w.bits.repr
  | int w => "int" ++ w.bits.repr
  | address => "address"
  | bool => "bool"
  | ufixed w d => "ufixed" ++ w.bits.repr ++ "x" ++ d.count.repr
  | fixed w d => "fixed" ++ w.bits.repr ++ "x" ++ d.count.repr
  | bytes f => "bytes" ++ f.bytes.repr
  | function => "function"

/-- The grammar of types. An array of a fixed size has at least one item. -/
inductive Ty where
  | elementary (type : Elementary)
  | string
  | bytes
  | array (item : Ty)
  | fixedArray (size : Nat) (hsize : 0 < size) (item : Ty)
  | tuple (parts : List Ty)

namespace Ty

/-- The name of a type; that of a tuple does not tell its parts. -/
def name : Ty → String
  | elementary type => type.name
  | string => "string"
  | bytes => "bytes"
  | array item => item.name ++ "[]"
  | fixedArray size _ item => item.name ++ ("[" ++ size.repr ++ "]")
  | tuple _ => "tuple"

/-- The parts of the tuple that a type is, or that the items of its arrays are. -/
def parts? : Ty → Option (List Ty)
  | array item => item.parts?
  | fixedArray _ _ item => item.parts?
  | tuple parts => some parts
  | _ => none

mutual
/-- Whether values stand elsewhere, with an offset in their place. -/
def isDynamic : Ty → Bool
  | elementary _ => false
  | string | bytes | array _ => true
  | fixedArray _ _ item => item.isDynamic
  | tuple parts => anyDynamic parts

def anyDynamic : List Ty → Bool
  | [] => false
  | t :: ts => t.isDynamic || anyDynamic ts
end

mutual
def shape : Ty → Shape
  | elementary _ => .word
  | string | bytes => .blob
  | array item => .array item.shape
  | fixedArray size _ item => .fixedArray size item.shape
  | tuple parts => .tuple (shapes parts)

def shapes : List Ty → List Shape
  | [] => []
  | t :: ts => t.shape :: shapes ts
end

mutual
/-- The largest size of an array in a type. -/
def largestSize : Ty → Nat
  | array item => item.largestSize
  | fixedArray size _ item => max size item.largestSize
  | tuple parts => largestSizes parts
  | _ => 0

def largestSizes : List Ty → Nat
  | [] => 0
  | t :: ts => max t.largestSize (largestSizes ts)
end

theorem shapes_eq_map (ts : List Ty) : shapes ts = ts.map shape := by
  induction ts with
  | nil => rfl
  | cons t ts ih => rw [shapes, ih, List.map_cons]

theorem largestSize_le_largestSizes {t : Ty} {ts : List Ty} (h : t ∈ ts) :
    t.largestSize ≤ largestSizes ts := by
  induction ts with
  | nil => cases h
  | cons t' ts ih =>
    rw [largestSizes]
    cases h with
    | head => exact Nat.le_max_left _ _
    | tail _ h => exact Nat.le_trans (ih h) (Nat.le_max_right _ _)

theorem largestSize_le_of_parts? : (t : Ty) → {ts : List Ty} → t.parts? = some ts →
    largestSizes ts ≤ t.largestSize
  | array item, ts, h => by
    rw [largestSize]
    exact largestSize_le_of_parts? item h
  | fixedArray _ _ item, ts, h => by
    rw [largestSize]
    exact Nat.le_trans (largestSize_le_of_parts? item h) (Nat.le_max_right _ _)
  | tuple parts, ts, h => by
    cases h
    rw [largestSize]
  | elementary _, _, h | string, _, h | bytes, _, h => by cases h

end Ty

/-! ### Reading names -/

namespace Shape

variable {parts : Except Defect (List Shape)}

/-- A name whose last character is no closing bracket has no brackets to be read. -/
theorem ofReversed_eq_ofName {name : List Char} (h : name.getLast? ≠ some ']') :
    ofReversed parts name.reverse = ofName parts name := by
  rw [← List.head?_reverse] at h
  unfold ofReversed
  split
  · rename_i heq
    simp [heq] at h
  · rw [List.reverse_reverse]

theorem ofReversed_brackets {base size : List Char} (h : '[' ∉ size) :
    ofReversed parts (base ++ '[' :: size ++ [']']).reverse =
      if size = [] then array (ofReversed parts base.reverse)
      else match Document.integerIn (String.ofList size) with
        | .ok k => fixedArray k (ofReversed parts base.reverse)
        | .error d => faulty d := by
  have hreverse : (base ++ '[' :: size ++ [']']).reverse =
      ']' :: (size.reverse ++ '[' :: base.reverse) := by simp
  have hall : ∀ c ∈ size.reverse, decide (c ≠ '[') = true := by
    intro c hc
    simp only [decide_eq_true_eq]
    rintro rfl
    exact h (List.mem_reverse.mp hc)
  have hdrop : (size.reverse ++ '[' :: base.reverse).dropWhile (fun c => decide (c ≠ '[')) =
      '[' :: base.reverse := by
    rw [List.dropWhile_append_of_pos hall]
    rfl
  have htake : (size.reverse ++ '[' :: base.reverse).takeWhile (fun c => decide (c ≠ '[')) =
      size.reverse := by
    rw [List.takeWhile_append_of_pos hall]
    simp
  rw [hreverse, ofReversed]
  split
  · rename_i hnil
    rw [hdrop] at hnil
    cases hnil
  · rename_i c rest hcons
    rw [hdrop] at hcons
    cases hcons
    rw [htake, List.reverse_reverse]
    by_cases hsize : size = []
    · simp [hsize]
    · cases hread : Document.integerIn (String.ofList size) <;> simp [hsize, hread]

/-- A name that ends in a digit is that of a word. -/
theorem ofReversed_append_repr (s : String) (n : Nat) :
    ofReversed parts (s ++ n.repr).toList.reverse = word := by
  have hne : Nat.toDigits 10 n ≠ [] := List.ne_nil_of_length_pos Nat.length_toDigits_pos
  have hlast : ∃ c, c.isDigit ∧ (s ++ n.repr).toList.getLast? = some c := by
    refine ⟨(Nat.toDigits 10 n).getLast hne,
      Nat.isDigit_of_mem_toDigits (by decide) (by decide) (List.getLast_mem hne), ?_⟩
    simp [Nat.toList_repr, List.getLast?_append, List.getLast?_eq_some_getLast hne]
  obtain ⟨c, hdigit, hlast⟩ := hlast
  have hnot : ∀ name : List Char, (∀ d, name.getLast? = some d → d.isDigit = false) →
      (s ++ n.repr).toList ≠ name := by
    rintro name hname rfl
    simp [hname c hlast] at hdigit
  have hbracket : (s ++ n.repr).toList.getLast? ≠ some ']' := by
    rw [hlast]
    rintro h
    cases h
    cases hdigit
  have hstring := hnot "string".toList (by simp)
  have hbytes := hnot "bytes".toList (by simp)
  have htuple := hnot "tuple".toList (by simp)
  rw [ofReversed_eq_ofName hbracket]
  unfold ofName
  rw [if_neg (not_or.mpr ⟨hstring, hbytes⟩), if_neg htuple]

theorem ofReversed_elementary (e : Elementary) : ofReversed parts e.name.toList.reverse = word := by
  cases e with
  | uint w => exact ofReversed_append_repr _ _
  | int w => exact ofReversed_append_repr _ _
  | address => exact ofReversed_eq_ofName (by decide)
  | bool => exact ofReversed_eq_ofName (by decide)
  | ufixed w d => exact ofReversed_append_repr _ _
  | fixed w d => exact ofReversed_append_repr _ _
  | bytes f => exact ofReversed_append_repr _ _
  | function => exact ofReversed_eq_ofName (by decide)

/-- The name of a type is read as its shape, given the shapes of its parts. -/
theorem ofReversed_name : (t : Ty) → (∀ ts, t.parts? = some ts → parts = .ok (Ty.shapes ts)) →
    t.largestSize < Numeral.writableBound → ofReversed parts t.name.toList.reverse = t.shape
  | .elementary e, _, _ => ofReversed_elementary e
  | .string, _, _ => ofReversed_eq_ofName (by decide)
  | .bytes, _, _ => ofReversed_eq_ofName (by decide)
  | .tuple ts, hparts, _ => by
    rw [Ty.name, ofReversed_eq_ofName (by decide), hparts ts rfl]
    rfl
  | .array item, hparts, hsize => by
    have hitem := ofReversed_name item hparts (by rwa [Ty.largestSize] at hsize)
    have hname : (Ty.array item).name.toList = item.name.toList ++ '[' :: [] ++ [']'] := by
      simp [Ty.name]
    rw [hname, ofReversed_brackets (by simp), hitem, Ty.shape]
    rfl
  | .fixedArray size hpos item, hparts, hsize => by
    rw [Ty.largestSize, Nat.max_lt] at hsize
    have hitem := ofReversed_name item hparts hsize.2
    have hdigits : ∀ c ∈ Nat.toDigits 10 size, c.isDigit := fun c hc =>
      Nat.isDigit_of_mem_toDigits (by decide) (by decide) hc
    have hbracket : '[' ∉ Nat.toDigits 10 size := fun h => by simpa using hdigits _ h
    have hne : Nat.toDigits 10 size ≠ [] := List.ne_nil_of_length_pos Nat.length_toDigits_pos
    have hname : (Ty.fixedArray size hpos item).name.toList =
        item.name.toList ++ '[' :: Nat.toDigits 10 size ++ [']'] := by
      simp [Ty.name, Nat.toList_repr]
    have hread : Document.integerIn (String.ofList (Nat.toDigits 10 size)) = .ok (size : Int) := by
      rw [← Nat.repr_eq_ofList_toDigits, Document.integerIn, Numeral.readInt_repr hsize.1]
      rfl
    rw [hname, ofReversed_brackets hbracket, if_neg hne, hread, hitem, Ty.shape]

end Shape

/-! ### Declarations -/

/-- A parameter of a type: an object that holds its name, and the declarations of the parts if it is
made of tuples. -/
inductive Declares : Document → Ty → Prop where
  | plain {ms : Members} {t : Ty} (htype : Members.get? ms "type" = some (.text t.name))
      (hparts : t.parts? = none) : Declares (.object ms) t
  | composed {ms : Members} {t : Ty} {ds : List Document} {ts : List Ty}
      (htype : Members.get? ms "type" = some (.text t.name)) (hparts : t.parts? = some ts)
      (hcomponents : Members.get? ms "components" = some (.list ds))
      (hlength : ds.length = ts.length) (hdeclares : ∀ p ∈ ds.zip ts, Declares p.1 p.2) :
      Declares (.object ms) t

theorem Declares.ofDocument_eq {d : Document} {t : Ty} (h : Declares d t)
    (hsize : t.largestSize < Numeral.writableBound) : Shape.ofDocument d = t.shape := by
  induction h with
  | plain htype hparts =>
    rw [Shape.ofDocument_object htype]
    exact Shape.ofReversed_name _ (by simp [hparts]) hsize
  | @composed ms t ds ts htype hparts hcomponents hlength _ ih =>
    have hsizes : Ty.largestSizes ts < Numeral.writableBound :=
      Nat.lt_of_le_of_lt (Ty.largestSize_le_of_parts? t hparts) hsize
    have hpairs : ∀ p ∈ ds.zip ts, Shape.ofDocument p.1 = p.2.shape := by
      intro p hp
      have hle := Ty.largestSize_le_largestSizes (List.of_mem_zip hp).2
      exact ih p hp (Nat.lt_of_le_of_lt hle hsizes)
    have hshapes : ds.map Shape.ofDocument = ts.map Ty.shape := calc
      ds.map Shape.ofDocument = ((ds.zip ts).map Prod.fst).map Shape.ofDocument := by
        rw [List.map_fst_zip hlength.le]
      _ = ((ds.zip ts).map Prod.snd).map Ty.shape := by
        rw [List.map_map, List.map_map]
        exact List.map_congr_left hpairs
      _ = ts.map Ty.shape := by rw [List.map_snd_zip hlength.ge]
    rw [Shape.ofDocument_object htype, hcomponents]
    refine Shape.ofReversed_name _ (fun ts' h => ?_) hsize
    rw [hparts] at h
    cases h
    simp [Shape.partsOf, Shape.ofDocuments_eq_map, Ty.shapes_eq_map, hshapes]

namespace Ty

mutual
/-- What a declaration tells of the parts. -/
def components : Ty → Members
  | array item => item.components
  | fixedArray _ _ item => item.components
  | tuple parts => [("components", .list (declarations parts))]
  | _ => []

def declarations : List Ty → List Document
  | [] => []
  | t :: ts => .object (("type", .text t.name) :: t.components) :: declarations ts
end

def declaration (t : Ty) : Document := .object (("type", .text t.name) :: t.components)

theorem length_declarations (ts : List Ty) : (declarations ts).length = ts.length := by
  induction ts with
  | nil => rfl
  | cons t ts ih => rw [declarations, List.length_cons, ih, List.length_cons]

theorem components_eq : (t : Ty) → t.components =
    (t.parts?.map fun ts => ("components", Document.list (declarations ts))).toList
  | array item => components_eq item
  | fixedArray _ _ item => components_eq item
  | tuple _ | elementary _ | string | bytes => rfl

/-- A type is declared by its declaration, once its parts are by theirs. -/
theorem declares_of_parts {t : Ty}
    (h : ∀ ts, t.parts? = some ts → ∀ p ∈ (declarations ts).zip ts, Declares p.1 p.2) :
    Declares t.declaration t := by
  have htype : Members.get? (("type", .text t.name) :: t.components) "type" =
      some (.text t.name) := by simp [Members.get?]
  cases hparts : t.parts? with
  | none => exact .plain htype hparts
  | some ts =>
    have hcomponents : Members.get? (("type", .text t.name) :: t.components) "components" =
        some (.list (declarations ts)) := by simp [Members.get?, components_eq, hparts]
    exact .composed htype hparts hcomponents (length_declarations ts) (h ts hparts)

mutual
theorem declares_parts : (t : Ty) → ∀ ts, t.parts? = some ts →
    ∀ p ∈ (declarations ts).zip ts, Declares p.1 p.2
  | array item, ts, h => declares_parts item ts h
  | fixedArray _ _ item, ts, h => declares_parts item ts h
  | tuple parts, ts, h => by
    cases h
    exact declares_each parts
  | elementary _, _, h | string, _, h | bytes, _, h => by cases h

theorem declares_each : (ts : List Ty) → ∀ p ∈ (declarations ts).zip ts, Declares p.1 p.2
  | [], _, hp => by cases hp
  | t :: ts, p, hp => by
    rw [declarations, List.zip_cons_cons] at hp
    cases hp with
    | head => exact declares_of_parts (declares_parts t)
    | tail _ hp => exact declares_each ts p hp
end

/-- Every type can be declared. -/
theorem declares_declaration (t : Ty) : Declares t.declaration t :=
  declares_of_parts (declares_parts t)

end Ty

/-! ### Slots of declared parameters -/

namespace Ty

/- The shape of a type has no faults, and a look at it that has room finds out what the type is. -/
mutual
theorem not_hasFault_shape {d : Defect} : (t : Ty) → ¬t.shape.HasFault d
  | elementary _ | string | bytes => fun h => by cases h
  | array item => fun h => by
    cases h with
    | item h => exact not_hasFault_shape item h
  | fixedArray _ _ item => fun h => by
    cases h with
    | fixedItem h => exact not_hasFault_shape item h
  | tuple parts => fun h => by
    cases h with
    | part hs h => exact not_hasFault_shapes parts _ hs h

theorem not_hasFault_shapes {d : Defect} : (ts : List Ty) → ∀ s ∈ shapes ts, ¬s.HasFault d
  | [], _, hs => by cases hs
  | t :: ts, _, hs => by
    cases hs with
    | head => exact not_hasFault_shape t
    | tail _ hs => exact not_hasFault_shapes ts _ hs
end

mutual
theorem eq_isDynamic : (t : Ty) → {room : Nat} → {b : Bool} →
    t.shape.dynamic room = .ok b → b = t.isDynamic
  | elementary _, _, _, h | string, _, _, h | bytes, _, _, h | array _, _, _, h => by
    cases h
    rfl
  | fixedArray _ _ item, _, _, h => by
    rw [shape, Shape.dynamic, Except.bind_eq_ok_iff] at h
    obtain ⟨inner, -, h⟩ := h
    exact eq_isDynamic item h
  | tuple parts, _, _, h => by
    rw [shape, Shape.dynamic, Except.bind_eq_ok_iff] at h
    obtain ⟨inner, -, h⟩ := h
    exact eq_anyDynamic parts h

theorem eq_anyDynamic : (ts : List Ty) → {room : Nat} → {b : Bool} →
    Shape.anyDynamic room (shapes ts) = .ok b → b = anyDynamic ts
  | [], _, _, h => by
    cases h
    rfl
  | t :: ts, _, _, h => by
    rw [shapes, Shape.anyDynamic, Except.bind_eq_ok_iff] at h
    obtain ⟨first, ht, h⟩ := h
    rw [anyDynamic, ← eq_isDynamic t ht]
    cases first with
    | true =>
      cases h
      rfl
    | false => exact eq_anyDynamic ts h
end

theorem dynamic_shape {t : Ty} {room : Nat} (h : t.shape.depth ≤ room) :
    t.shape.dynamic room = .ok t.isDynamic := by
  cases hlook : t.shape.dynamic room with
  | ok b => rw [eq_isDynamic t hlook]
  | error d =>
    obtain ⟨-, hroom⟩ | hfault := Shape.dynamic_eq_error _ hlook
    · omega
    · exact absurd hfault (not_hasFault_shape t)

/-- A look at a type without dynamic parts goes through all its levels. -/
theorem dynamic_shape_of_lt {t : Ty} {room : Nat} (hstatic : t.isDynamic = false)
    (h : room < t.shape.depth) :
    t.shape.dynamic room = .error (.tooDeep Shape.nestingActivity) := by
  cases hlook : t.shape.dynamic room with
  | ok b =>
    rw [eq_isDynamic t hlook, hstatic] at hlook
    have hle := Shape.depth_le_of_dynamic_eq_false _ hlook
    omega
  | error d =>
    obtain ⟨rfl, -⟩ | hfault := Shape.dynamic_eq_error _ hlook
    · rfl
    · exact absurd hfault (not_hasFault_shape t)

/-- How many bytes a value takes in the head. -/
def headBytes (t : Ty) : Int := if t.isDynamic then wordSize else t.shape.staticSize

end Ty

section

variable {d : Document} {t : Ty}

theorem Declares.slot_eq_ok (h : Declares d t) (hsize : t.largestSize < Numeral.writableBound)
    (hdepth : t.shape.depth ≤ Nesting.room) :
    Slot.ofDocument d = .ok ⟨Slot.labelOf d, t.isDynamic, t.headBytes⟩ := by
  rw [Slot.ofDocument, h.ofDocument_eq hsize, Ty.dynamic_shape hdepth]
  rfl

theorem Declares.slot_eq_error (h : Declares d t) (hsize : t.largestSize < Numeral.writableBound)
    (hstatic : t.isDynamic = false) (hdepth : Nesting.room < t.shape.depth) :
    Slot.ofDocument d = .error (.tooDeep Shape.nestingActivity) := by
  rw [Slot.ofDocument, h.ofDocument_eq hsize, Ty.dynamic_shape_of_lt hstatic hdepth]
  rfl

end

end Abi

end Attest
