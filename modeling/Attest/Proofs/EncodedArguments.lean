import Attest.Proofs.TypeNames
import Mathlib.Algebra.Order.Ring.Int
import Mathlib.Data.List.Forall2

/-! # Arguments as they are encoded

The standard encoding of values: each takes its place in the head, where a dynamic one leaves the offset
of its bytes in the tail. Whatever is encoded so for the types of a constructor passes the check of its
arguments. -/

namespace Attest.Abi

/-! ### Heads and tails -/

/-- A number in one word. -/
def word (n : Nat) : Bytes := Bytes.ofNat wordSize n

/-- An encoded value, and whether it stands in the tail. -/
structure Part where
  dynamic : Bool
  bytes : Bytes

namespace Part

/-- How many bytes a part takes in the head. -/
def headLength (p : Part) : Nat := if p.dynamic then wordSize else p.bytes.length

def headLengths : List Part → Nat
  | [] => 0
  | p :: ps => p.headLength + headLengths ps

/-- The head, where the next bytes of the tail have the given offset. -/
def heads (offset : Nat) : List Part → Bytes
  | [] => []
  | p :: ps =>
      if p.dynamic then word offset ++ heads (offset + p.bytes.length) ps
      else p.bytes ++ heads offset ps

def tails : List Part → Bytes
  | [] => []
  | p :: ps => if p.dynamic then p.bytes ++ tails ps else tails ps

/-- Parts one after another. Offsets count from the start of the head. -/
def layOut (ps : List Part) : Bytes := heads (headLengths ps) ps ++ tails ps

theorem length_heads (offset : Nat) (ps : List Part) :
    (heads offset ps).length = headLengths ps := by
  induction ps generalizing offset with
  | nil => rfl
  | cons p ps ih =>
    rw [heads, headLengths, headLength]
    split
    · simp [word, ih]
    · simp [ih]

theorem length_layOut (ps : List Part) :
    (layOut ps).length = headLengths ps + (tails ps).length := by
  rw [layOut, List.length_append, length_heads]

/-- A part that fills whole words. -/
def Aligned (p : Part) : Prop := wordSize ∣ p.bytes.length

theorem Aligned.dvd_headLength {p : Part} (h : p.Aligned) : wordSize ∣ p.headLength := by
  rw [headLength]
  split
  · exact Nat.dvd_refl _
  · exact h

theorem dvd_headLengths {ps : List Part} (h : ∀ p ∈ ps, p.Aligned) : wordSize ∣ headLengths ps := by
  induction ps with
  | nil => exact Nat.dvd_zero _
  | cons p ps ih =>
    have hp : p.Aligned := h p (by simp)
    exact Nat.dvd_add hp.dvd_headLength (ih fun q hq => h q (by simp [hq]))

theorem dvd_length_tails {ps : List Part} (h : ∀ p ∈ ps, p.Aligned) :
    wordSize ∣ (tails ps).length := by
  induction ps with
  | nil => exact Nat.dvd_zero _
  | cons p ps ih =>
    have hp : wordSize ∣ p.bytes.length := h p (by simp)
    have hps := ih fun q hq => h q (by simp [hq])
    rw [tails]
    split
    · rw [List.length_append]
      exact Nat.dvd_add hp hps
    · exact hps

theorem dvd_length_layOut {ps : List Part} (h : ∀ p ∈ ps, p.Aligned) :
    wordSize ∣ (layOut ps).length := by
  rw [length_layOut]
  exact Nat.dvd_add (dvd_headLengths h) (dvd_length_tails h)

theorem le_length_layOut {ps : List Part} {p : Part} (hmem : p ∈ ps) (hp : p.dynamic = true) :
    wordSize ≤ (layOut ps).length := by
  rw [length_layOut]
  induction ps with
  | nil => cases hmem
  | cons q ps ih =>
    rw [headLengths, tails, headLength]
    cases hmem with
    | head =>
      rw [if_pos hp]
      omega
    | tail _ hmem =>
      have hps := ih hmem
      split <;> simp <;> omega

theorem tails_of_static {ps : List Part} (h : ∀ p ∈ ps, p.dynamic = false) : tails ps = [] := by
  induction ps with
  | nil => rfl
  | cons p ps ih => simp [tails, h p, ih fun q hq => h q (by simp [hq])]

/-- Without dynamic parts there is nothing but the values. -/
theorem layOut_of_static {ps : List Part} (h : ∀ p ∈ ps, p.dynamic = false) :
    layOut ps = ps.flatMap bytes := by
  have hheads : ∀ offset, heads offset ps = ps.flatMap bytes := by
    intro offset
    induction ps with
    | nil => rfl
    | cons p ps ih => simp [heads, h p, ih fun q hq => h q (by simp [hq])]
  rw [layOut, hheads, tails_of_static h, List.append_nil]

end Part

/-! ### Values -/

/-- How many bytes a function takes: an address and a selector. -/
def functionSize : Nat := 24

/-- Numbers with decimals are given as the integers that they are multiples of. -/
def Elementary.Value : Elementary → Type
  | uint w => Fin (2 ^ w.bits)
  | ufixed w _ => Fin (2 ^ w.bits)
  | int w => {i : Int // -2 ^ (w.bits - 1) ≤ i ∧ i < 2 ^ (w.bits - 1)}
  | fixed w _ => {i : Int // -2 ^ (w.bits - 1) ≤ i ∧ i < 2 ^ (w.bits - 1)}
  | address => Fin (2 ^ 160)
  | bool => Bool
  | bytes f => {bs : Bytes // bs.length = f.bytes}
  | function => {bs : Bytes // bs.length = functionSize}

/-- A negative number is told by its complement. -/
def signed (i : Int) : Bytes := word (i % 2 ^ 256).toNat

/-- Bytes at the left end of a word. -/
def leftAligned (bs : Bytes) : Bytes := bs ++ Bytes.zeros (wordSize - bs.length)

def Elementary.encode : (e : Elementary) → e.Value → Bytes
  | uint _, n => word (Fin.val n)
  | ufixed _ _, n => word (Fin.val n)
  | int _, i => signed i.val
  | fixed _ _, i => signed i.val
  | address, n => word (Fin.val n)
  | bool, b => word (Bool.toNat b)
  | bytes _, bs => leftAligned bs.val
  | function, bs => leftAligned bs.val

/-- Bytes of any number: how many there are, and zeros up to the end of a word. -/
def blob (bs : Bytes) : Bytes :=
  word bs.length ++ bs ++ Bytes.zeros ((wordSize - bs.length % wordSize) % wordSize)

namespace Ty

mutual
def Value : Ty → Type
  | elementary e => e.Value
  | string => String
  | bytes => Bytes
  | array item => List item.Value
  | fixedArray size _ item => {vs : List item.Value // vs.length = size}
  | tuple parts => Values parts

def Values : List Ty → Type
  | [] => Unit
  | t :: ts => t.Value × Values ts
end

mutual
/-- The bytes of a value; texts are encoded in UTF-8. -/
def encode : (t : Ty) → t.Value → Bytes
  | elementary e, v => e.encode v
  | string, s => blob (String.toUTF8 s).toList
  | bytes, bs => blob bs
  | array item, vs =>
      word (List.length vs) ++ Part.layOut (List.map (fun v => ⟨item.isDynamic, item.encode v⟩) vs)
  | fixedArray _ _ item, vs =>
      Part.layOut (vs.val.map fun v => ⟨item.isDynamic, item.encode v⟩)
  | tuple parts, vs => Part.layOut (encodeParts parts vs)

def encodeParts : (ts : List Ty) → Values ts → List Part
  | [], _ => []
  | t :: ts, vs => ⟨t.isDynamic, t.encode vs.1⟩ :: encodeParts ts vs.2
end

end Ty

/-! ### Lengths -/

@[simp] theorem length_word (n : Nat) : (word n).length = wordSize := Bytes.length_ofNat _ _

theorem length_leftAligned {bs : Bytes} (h : bs.length ≤ wordSize) :
    (leftAligned bs).length = wordSize := by
  simp [leftAligned, Bytes.zeros, h]

theorem Elementary.length_encode (e : Elementary) (v : e.Value) :
    (e.encode v).length = wordSize := by
  cases e with
  | uint w => exact length_word _
  | ufixed w d => exact length_word _
  | int w => exact length_word _
  | fixed w d => exact length_word _
  | address => exact length_word _
  | bool => exact length_word _
  | bytes f => exact length_leftAligned (Nat.le_trans v.property.le f.valid.2)
  | function => exact length_leftAligned (Nat.le_trans v.property.le (by decide))

theorem length_blob (bs : Bytes) :
    wordSize ∣ (blob bs).length ∧ wordSize ≤ (blob bs).length := by
  have hlength : (blob bs).length =
      wordSize + bs.length + (wordSize - bs.length % wordSize) % wordSize := by
    simp [blob, Bytes.zeros, Nat.add_assoc]
  rw [hlength]
  simp only [wordSize]
  omega

namespace Ty

mutual
/-- Every encoding fills whole words. -/
theorem dvd_length_encode : (t : Ty) → (v : t.Value) → wordSize ∣ (t.encode v).length
  | elementary e, v => by
    have h : (encode (elementary e) v).length = wordSize := e.length_encode v
    exact h ▸ Nat.dvd_refl _
  | string, s => (length_blob _).1
  | bytes, bs => (length_blob _).1
  | array item, vs => by
    rw [encode, List.length_append, length_word]
    apply Nat.dvd_add (Nat.dvd_refl _)
    apply Part.dvd_length_layOut
    intro p hp
    obtain ⟨v, -, rfl⟩ := List.mem_map.mp hp
    exact dvd_length_encode item v
  | fixedArray _ _ item, vs => by
    rw [encode]
    apply Part.dvd_length_layOut
    intro p hp
    obtain ⟨v, -, rfl⟩ := List.mem_map.mp hp
    exact dvd_length_encode item v
  | tuple ts, vs => by
    rw [encode]
    exact Part.dvd_length_layOut (aligned_encodeParts ts vs)

theorem aligned_encodeParts : (ts : List Ty) → (vs : Values ts) →
    ∀ p ∈ encodeParts ts vs, p.Aligned
  | [], _, _, hp => by cases hp
  | t :: ts, vs, p, hp => by
    rw [encodeParts] at hp
    cases hp with
    | head => exact dvd_length_encode t vs.1
    | tail _ hp => exact aligned_encodeParts ts vs.2 p hp
end

theorem exists_dynamic_part : (ts : List Ty) → (vs : Values ts) → anyDynamic ts = true →
    ∃ p ∈ encodeParts ts vs, p.dynamic = true
  | t :: ts, vs, h => by
    rw [anyDynamic, Bool.or_eq_true] at h
    rw [encodeParts]
    cases h with
    | inl h => exact ⟨_, List.mem_cons_self, h⟩
    | inr h =>
      obtain ⟨p, hp, hdynamic⟩ := exists_dynamic_part ts vs.2 h
      exact ⟨p, List.mem_cons_of_mem _ hp, hdynamic⟩

/-- What stands in the tail takes a word at least. -/
theorem le_length_encode {t : Ty} (v : t.Value) (h : t.isDynamic = true) :
    wordSize ≤ (t.encode v).length := by
  cases t with
  | elementary e => cases h
  | string => exact (length_blob _).2
  | bytes => exact (length_blob _).2
  | array item =>
    rw [encode, List.length_append, length_word]
    exact Nat.le_add_right _ _
  | fixedArray size hsize item =>
    have hpos : 0 < v.val.length := by rw [v.property]; exact hsize
    obtain ⟨first, hfirst⟩ := List.exists_mem_of_length_pos hpos
    rw [encode]
    exact Part.le_length_layOut (List.mem_map_of_mem hfirst) h
  | tuple ts =>
    obtain ⟨p, hp, hdynamic⟩ := exists_dynamic_part ts v h
    exact Part.le_length_layOut hp hdynamic

mutual
/-- Values without dynamic parts take as many bytes as the shape of their type tells. -/
theorem length_encode_of_static : (t : Ty) → (v : t.Value) → t.isDynamic = false →
    ((t.encode v).length : Int) = t.shape.staticSize
  | elementary e, v, _ => by
    have h : (encode (elementary e) v).length = wordSize := e.length_encode v
    rw [h]
    rfl
  | string, _, h | bytes, _, h | array _, _, h => by cases h
  | fixedArray size hsize item, vs, h => by
    have hitem : ∀ v : item.Value, ((item.encode v).length : Int) = item.shape.staticSize :=
      fun v => length_encode_of_static item v h
    have hitems : ∀ vs : List item.Value,
        ((vs.flatMap item.encode).length : Int) = vs.length * item.shape.staticSize := by
      intro vs
      induction vs with
      | nil => simp
      | cons v vs ih =>
        rw [List.flatMap_cons, List.length_append, List.length_cons]
        push_cast
        rw [ih, hitem v, Int.add_mul, Int.one_mul, Int.add_comm]
    have hstatic : ∀ p ∈ vs.val.map (fun v => (⟨item.isDynamic, item.encode v⟩ : Part)),
        p.dynamic = false := by
      intro p hp
      obtain ⟨v, -, rfl⟩ := List.mem_map.mp hp
      exact h
    rw [encode, Part.layOut_of_static hstatic, List.flatMap_map, hitems, vs.property]
    rfl
  | tuple ts, vs, h => by
    rw [encode, Part.layOut_of_static (static_encodeParts ts vs h)]
    exact length_parts_of_static ts vs h

theorem static_encodeParts : (ts : List Ty) → (vs : Values ts) → anyDynamic ts = false →
    ∀ p ∈ encodeParts ts vs, p.dynamic = false
  | [], _, _, _, hp => by cases hp
  | t :: ts, vs, h, p, hp => by
    rw [anyDynamic, Bool.or_eq_false_iff] at h
    rw [encodeParts] at hp
    cases hp with
    | head => exact h.1
    | tail _ hp => exact static_encodeParts ts vs.2 h.2 p hp

theorem length_parts_of_static : (ts : List Ty) → (vs : Values ts) → anyDynamic ts = false →
    (((encodeParts ts vs).flatMap Part.bytes).length : Int) = Shape.staticSizes (shapes ts)
  | [], _, _ => rfl
  | t :: ts, vs, h => by
    rw [anyDynamic, Bool.or_eq_false_iff] at h
    have ht := length_encode_of_static t vs.1 h.1
    have hts := length_parts_of_static ts vs.2 h.2
    rw [encodeParts, List.flatMap_cons, List.length_append, shapes, Shape.staticSizes, ← ht, ← hts]
    push_cast
    rfl
end

/- Every type without dynamic parts has a value; so have all others. -/
mutual
theorem nonempty_value : (t : Ty) → Nonempty t.Value
  | elementary e => by
    have hpos : ∀ n : Nat, (0 : Int) < 2 ^ n := fun n => Int.pow_pos (by decide)
    have hzero : ∀ n : Nat, -(2 : Int) ^ n ≤ 0 := fun n =>
      Int.neg_nonpos_of_nonneg (Int.le_of_lt (hpos n))
    cases e with
    | uint w => exact ⟨(⟨0, Nat.two_pow_pos _⟩ : Fin (2 ^ w.bits))⟩
    | ufixed w d => exact ⟨(⟨0, Nat.two_pow_pos _⟩ : Fin (2 ^ w.bits))⟩
    | int w => exact ⟨⟨0, hzero _, hpos _⟩⟩
    | fixed w d => exact ⟨⟨0, hzero _, hpos _⟩⟩
    | address => exact ⟨(⟨0, Nat.two_pow_pos _⟩ : Fin (2 ^ 160))⟩
    | bool => exact ⟨false⟩
    | bytes f => exact ⟨⟨Bytes.zeros f.bytes, List.length_replicate⟩⟩
    | function => exact ⟨⟨Bytes.zeros functionSize, List.length_replicate⟩⟩
  | string => ⟨""⟩
  | bytes => ⟨([] : Bytes)⟩
  | array item => ⟨([] : List item.Value)⟩
  | fixedArray size _ item => by
    obtain ⟨v⟩ := nonempty_value item
    exact ⟨⟨List.replicate size v, List.length_replicate⟩⟩
  | tuple ts => nonempty_values ts

theorem nonempty_values : (ts : List Ty) → Nonempty (Values ts)
  | [] => ⟨()⟩
  | t :: ts => by
    obtain ⟨v⟩ := nonempty_value t
    obtain ⟨vs⟩ := nonempty_values ts
    exact ⟨(v, vs)⟩
end

end Ty

/-! ### The check -/

/-- A slot that a part can fill. -/
structure Slot.Holds (slot : Slot) (p : Part) : Prop where
  dynamic_eq : slot.dynamic = p.dynamic
  size_eq : slot.size = p.headLength
  aligned : p.Aligned
  word_le : p.dynamic = true → wordSize ≤ p.bytes.length

section

variable {slots : List Slot} {ps : List Part}

theorem aligned_of_holds (h : List.Forall₂ Slot.Holds slots ps) : ∀ p ∈ ps, p.Aligned := by
  induction h with
  | nil => simp
  | cons hfirst _ ih => simpa using ⟨hfirst.aligned, ih⟩

theorem headSize_of_holds (h : List.Forall₂ Slot.Holds slots ps) :
    headSize slots = Part.headLengths ps := by
  induction h with
  | nil => rfl
  | @cons slot p slots ps hfirst _ ih =>
    have hslots : headSize (slot :: slots) = slot.size + headSize slots := rfl
    rw [hslots, ih, hfirst.size_eq, Part.headLengths]
    push_cast
    rfl

theorem static_iff_of_holds (h : List.Forall₂ Slot.Holds slots ps) :
    (∀ slot ∈ slots, slot.dynamic = false) ↔ ∀ p ∈ ps, p.dynamic = false := by
  induction h with
  | nil => simp
  | cons hfirst _ ih => simp [hfirst.dynamic_eq, ih]

theorem numberBetween_word (front rest : Bytes) {n : Nat} (hn : n < 2 ^ 256) :
    numberBetween (front ++ word n ++ rest) front.length (front.length + wordSize) = n := by
  have hplace : ∀ i : Nat, place (front ++ word n ++ rest).length i = i := by
    intro i
    rw [place, if_neg (by omega), Int.toNat_natCast]
  have hpow : Nat.pow 256 wordSize = 2 ^ 256 := by decide
  have hslice : Bytes.slice (front ++ word n ++ rest) front.length wordSize = word n := by
    rw [Bytes.slice, List.append_assoc, List.drop_left, List.take_left' (length_word n)]
  have hstop : (front.length : Int) + wordSize = (front.length + wordSize : Nat) := by push_cast; rfl
  rw [numberBetween, hstop, hplace, hplace, Nat.add_sub_cancel_left, hslice, word,
    Bytes.toNat_ofNat, hpow, Nat.mod_eq_of_lt hn]

/-- Every offset in a head points to the bytes of its value, behind the head and in front of the end. -/
theorem findSome?_badOffset?_heads (h : List.Forall₂ Slot.Holds slots ps) {args rest : Bytes}
    {head : Int} (front : Bytes) (offset : Nat) (hargs : args = front ++ Part.heads offset ps ++ rest)
    (haligned : wordSize ∣ offset) (hhead : head ≤ offset)
    (hend : offset + (Part.tails ps).length ≤ args.length) (hshort : args.length < 2 ^ 256) :
    (placed front.length slots).findSome? (badOffset? args head) = none := by
  induction h generalizing front offset with
  | nil => rfl
  | @cons slot p slots ps hfirst _ ih =>
    rw [placed, List.findSome?_cons]
    have hsize := hfirst.size_eq
    rw [Part.headLength] at hsize
    rw [Part.heads] at hargs
    rw [Part.tails] at hend
    cases hp : p.dynamic with
    | true =>
      simp only [hp, if_true, List.length_append] at hargs hend hsize
      have hword := hfirst.word_le hp
      have hnumber : numberBetween args front.length (front.length + wordSize) = offset := by
        rw [hargs, ← List.append_assoc, List.append_assoc _ _ rest]
        exact numberBetween_word _ _ (by omega)
      have hgood : ¬(offset % wordSize ≠ 0 ∨ (offset : Int) < head ∨
          args.length < offset + wordSize) := by
        have hmod := Nat.mod_eq_zero_of_dvd haligned
        omega
      have hnone : badOffset? args head (front.length, slot) = none := by
        simp only [badOffset?, hfirst.dynamic_eq, hp, if_true, hnumber, if_neg hgood]
      have hplace : (front.length : Int) + slot.size = ((front ++ word offset).length : Nat) := by
        rw [hsize, List.length_append, length_word]
        push_cast
        rfl
      rw [hnone, hplace]
      apply ih (front ++ word offset) (offset + p.bytes.length)
      · simpa using hargs
      · exact Nat.dvd_add haligned hfirst.aligned
      · push_cast
        omega
      · omega
    | false =>
      simp only [hp, Bool.false_eq_true, if_false] at hargs hend hsize
      have hnone : badOffset? args head (front.length, slot) = none := by
        simp [badOffset?, hfirst.dynamic_eq, hp]
      have hplace : (front.length : Int) + slot.size = ((front ++ p.bytes).length : Nat) := by
        rw [hsize, List.length_append]
        push_cast
        rfl
      rw [hnone, hplace]
      exact ih (front ++ p.bytes) offset (by simpa using hargs) haligned hhead hend

theorem misfit?_layOut (h : List.Forall₂ Slot.Holds slots ps)
    (hshort : (Part.layOut ps).length < 2 ^ 256) : misfit? (Part.layOut ps) slots = none := by
  have hlength := Part.length_layOut ps
  have hhead := headSize_of_holds h
  have hoffsets : (placed 0 slots).findSome?
      (badOffset? (Part.layOut ps) (headSize slots)) = none := by
    apply findSome?_badOffset?_heads h [] (Part.headLengths ps) rfl
    · exact Part.dvd_headLengths (aligned_of_holds h)
    · exact Int.le_of_eq hhead
    · exact hlength.ge
    · exact hshort
  unfold misfit?
  rw [if_neg (by omega), hoffsets, if_neg]
  rintro hboth
  rw [Bool.and_eq_true, List.all_eq_true, bne_iff_ne] at hboth
  obtain ⟨hstatic, hne⟩ := hboth
  have hparts : ∀ p ∈ ps, p.dynamic = false :=
    (static_iff_of_holds h).mp fun slot hslot => by simpa using hstatic slot hslot
  have htails := Part.tails_of_static hparts
  rw [htails, List.length_nil] at hlength
  omega

theorem misfit?_of_static {args : Bytes} (hstatic : ∀ slot ∈ slots, slot.dynamic = false) :
    misfit? args slots = none ↔ (args.length : Int) = headSize slots := by
  have hoffsets : ∀ (head i : Int), (placed i slots).findSome? (badOffset? args head) = none := by
    intro head
    induction slots with
    | nil => intro i; rfl
    | cons slot slots ih =>
      intro i
      have hrest := ih (fun s hs => hstatic s (by simp [hs])) (i + slot.size)
      simp [placed, badOffset?, hstatic slot, hrest]
  have hall : slots.all (fun slot => !slot.dynamic) = true := by
    rw [List.all_eq_true]
    intro slot hslot
    simp [hstatic slot hslot]
  simp only [misfit?, hoffsets, hall]
  by_cases hshort : (args.length : Int) < headSize slots
  · simp [hshort]
    omega
  · simp [hshort]

end

section

variable {ds : List Document} {ts : List Ty}

/-- The slots of parameters, as the types that they declare determine them. -/
theorem slots_of_declares (h : List.Forall₂ Declares ds ts)
    (hsize : Ty.largestSizes ts < Numeral.writableBound)
    (hdepth : Shape.depths (Ty.shapes ts) ≤ Nesting.room) :
    ∃ slots, ds.mapM Slot.ofDocument = .ok slots ∧
      List.Forall₂ (fun slot t => slot.dynamic = t.isDynamic ∧ slot.size = t.headBytes) slots ts := by
  induction h with
  | nil => exact ⟨[], rfl, .nil⟩
  | @cons d t ds ts hd _ ih =>
    rw [Ty.largestSizes, Nat.max_lt] at hsize
    rw [Ty.shapes, Shape.depths, Nat.max_le] at hdepth
    obtain ⟨slots, hslots, hrest⟩ := ih hsize.2 hdepth.2
    refine ⟨⟨Slot.labelOf d, t.isDynamic, t.headBytes⟩ :: slots, ?_, .cons ⟨rfl, rfl⟩ hrest⟩
    rw [List.mapM_cons, hd.slot_eq_ok hsize.1 hdepth.1, hslots]
    rfl

theorem holds_encodeParts {slots : List Slot}
    (h : List.Forall₂ (fun slot t => slot.dynamic = t.isDynamic ∧ slot.size = t.headBytes) slots ts)
    (vs : Ty.Values ts) : List.Forall₂ Slot.Holds slots (Ty.encodeParts ts vs) := by
  induction h with
  | nil => exact .nil
  | @cons slot t slots ts hfirst _ ih =>
    have hlength : t.headBytes = (Part.mk t.isDynamic (t.encode vs.1)).headLength := by
      rw [Ty.headBytes, Part.headLength]
      cases hdynamic : t.isDynamic with
      | true => rfl
      | false => exact (Ty.length_encode_of_static t vs.1 hdynamic).symm
    exact .cons ⟨hfirst.1, hfirst.2.trans hlength, Ty.dvd_length_encode t vs.1,
      Ty.le_length_encode vs.1⟩ (ih vs.2)

theorem checkArguments_eq_ok_iff {slots : List Slot} (hslots : ds.mapM Slot.ofDocument = .ok slots)
    (args : Bytes) :
    checkArguments args (some ds) = .ok () ↔
      args.length % wordSize = 0 ∧ misfit? args slots = none := by
  by_cases haligned : args.length % wordSize = 0
  · cases hfit : misfit? args slots <;> simp [checkArguments, haligned, hslots, hfit]
  · simp [checkArguments, haligned]

/-- Whatever is encoded for the types of the parameters is accepted, unless a type is nested deeper than
there is room for or an array has more items than a number in a type can tell. Where no type is dynamic,
nothing but the length counts. -/
theorem accepts_encodings (hdeclares : List.Forall₂ Declares ds ts)
    (hsize : Ty.largestSizes ts < Numeral.writableBound)
    (hdepth : Shape.depths (Ty.shapes ts) ≤ Nesting.room) :
    (∀ vs : Ty.Values ts, (Ty.encode (.tuple ts) vs).length < 2 ^ 256 →
      checkArguments (Ty.encode (.tuple ts) vs) (some ds) = .ok ()) ∧
    (Ty.anyDynamic ts = false → ∀ args : Bytes, checkArguments args (some ds) = .ok () ↔
      ∃ vs : Ty.Values ts, args.length = (Ty.encode (.tuple ts) vs).length) := by
  obtain ⟨slots, hslots, hmatch⟩ := slots_of_declares hdeclares hsize hdepth
  have haligned : ∀ vs : Ty.Values ts, (Ty.encode (.tuple ts) vs).length % wordSize = 0 := fun vs =>
    Nat.mod_eq_zero_of_dvd (Ty.dvd_length_encode (.tuple ts) vs)
  constructor
  · intro vs hshort
    rw [checkArguments_eq_ok_iff hslots]
    exact ⟨haligned vs, misfit?_layOut (holds_encodeParts hmatch vs) hshort⟩
  · intro hstatic args
    have hhead : ∀ vs : Ty.Values ts,
        headSize slots = ((Ty.encode (.tuple ts) vs).length : Int) := by
      intro vs
      have hlength := Part.length_layOut (Ty.encodeParts ts vs)
      rw [Part.tails_of_static (Ty.static_encodeParts ts vs hstatic), List.length_nil,
        Nat.add_zero] at hlength
      rw [headSize_of_holds (holds_encodeParts hmatch vs), ← hlength]
      rfl
    obtain ⟨vs⟩ := Ty.nonempty_values ts
    have hslotsStatic : ∀ slot ∈ slots, slot.dynamic = false :=
      (static_iff_of_holds (holds_encodeParts hmatch vs)).mpr (Ty.static_encodeParts ts vs hstatic)
    rw [checkArguments_eq_ok_iff hslots, misfit?_of_static hslotsStatic]
    constructor
    · rintro ⟨-, hlength⟩
      rw [hhead vs] at hlength
      exact ⟨vs, by omega⟩
    · rintro ⟨vs, hlength⟩
      rw [hhead vs, hlength]
      exact ⟨haligned vs, rfl⟩

end

theorem forall₂_declarations (ts : List Ty) : List.Forall₂ Declares (Ty.declarations ts) ts := by
  induction ts with
  | nil => exact .nil
  | cons t ts ih => exact .cons t.declares_declaration ih

/-- Two small numbers, and flags with bytes to each. -/
def entryTypes : List Ty :=
  [.fixedArray 2 (by decide) (.elementary (.uint ⟨8, by decide⟩)),
    .array (.tuple [.elementary .bool, .bytes])]

def entryValues : Ty.Values entryTypes :=
  (⟨[(7 : Fin (2 ^ 8)), (9 : Fin (2 ^ 8))], rfl⟩,
    [((true : Bool), ([0xab] : Bytes), ()), ((false : Bool), ([] : Bytes), ())], ())

theorem accepts_encodings_entries :
    (Ty.encode (.tuple entryTypes) entryValues).length = 416 ∧
      checkArguments (Ty.encode (.tuple entryTypes) entryValues)
        (some (Ty.declarations entryTypes)) = .ok () := by
  have hlength : (Ty.encode (.tuple entryTypes) entryValues).length = 416 := by decide +kernel
  refine ⟨hlength, (accepts_encodings (forall₂_declarations entryTypes) (by decide +kernel)
    (by decide +kernel)).1 entryValues ?_⟩
  rw [hlength]
  decide

/-! ### Types that are nested too deep -/

/-- A parameter without dynamic parts that is nested deeper than there is room for breaks the check,
whatever the arguments are. -/
theorem checkArguments_of_tooDeep {d : Document} {t : Ty} (hd : Declares d t)
    (hsize : t.largestSize < Numeral.writableBound) (hstatic : t.isDynamic = false)
    (hdepth : Nesting.room < t.shape.depth) (rest : List Document) (args : Bytes)
    (haligned : args.length % wordSize = 0) :
    checkArguments args (some (d :: rest)) = .error (.defect (.tooDeep Shape.nestingActivity)) := by
  have hslots : (d :: rest).mapM Slot.ofDocument = .error (.tooDeep Shape.nestingActivity) := by
    rw [List.mapM_cons, hd.slot_eq_error hsize hstatic hdepth]
    rfl
  simp [checkArguments, haligned, hslots, obstacleOf]

/-- A small number in `n` arrays of one item each. -/
def Ty.inArrays : Nat → Ty
  | 0 => elementary (.uint ⟨8, by decide⟩)
  | n + 1 => fixedArray 1 Nat.one_pos (inArrays n)

theorem Ty.depth_inArrays (n : Nat) : (inArrays n).shape.depth = n := by
  induction n with
  | zero => rfl
  | succ n ih =>
    rw [inArrays, shape, Shape.depth, ih, Shape.arrayCost]
    omega

theorem Ty.isDynamic_inArrays (n : Nat) : (inArrays n).isDynamic = false := by
  induction n with
  | zero => rfl
  | succ n ih => rw [inArrays, isDynamic, ih]

theorem Ty.components_inArrays (n : Nat) : (inArrays n).components = [] := by
  induction n with
  | zero => rfl
  | succ n ih => rw [inArrays, components, ih]

theorem Ty.largestSize_inArrays (n : Nat) : (inArrays n).largestSize ≤ 1 := by
  induction n with
  | zero => exact Nat.zero_le _
  | succ n ih =>
    rw [inArrays, largestSize]
    exact Nat.max_le.mpr ⟨Nat.le_refl _, ih⟩

theorem Ty.staticSize_inArrays (n : Nat) : (inArrays n).shape.staticSize = wordSize := by
  induction n with
  | zero => rfl
  | succ n ih =>
    rw [inArrays, shape, Shape.staticSize, ih]
    rfl

/-- A number in 2000 arrays, the encoding of which is one word, breaks the check. -/
theorem deep_arguments_break_check :
    ∃ v : (Ty.inArrays 2000).Value,
      (Ty.encode (.tuple [Ty.inArrays 2000]) (v, ())).length = wordSize ∧
      checkArguments (Ty.encode (.tuple [Ty.inArrays 2000]) (v, ()))
          (some [(Ty.inArrays 2000).declaration]) =
        .error (.defect (.tooDeep Shape.nestingActivity)) := by
  have hstatic := Ty.isDynamic_inArrays 2000
  have hlength : ∀ v, (Ty.encode (.tuple [Ty.inArrays 2000]) (v, ())).length = wordSize := by
    intro v
    have h := Ty.length_encode_of_static (.tuple [Ty.inArrays 2000]) (v, ()) (by
      rw [Ty.isDynamic, Ty.anyDynamic, hstatic]
      rfl)
    rw [Ty.shape, Ty.shapes, Shape.staticSize, Shape.staticSizes, Ty.staticSize_inArrays] at h
    exact Int.ofNat.inj h
  obtain ⟨v⟩ := Ty.nonempty_value (Ty.inArrays 2000)
  have hsize : (Ty.inArrays 2000).largestSize < Numeral.writableBound :=
    Nat.lt_of_le_of_lt (Ty.largestSize_inArrays 2000) (by decide +kernel)
  refine ⟨v, hlength v, checkArguments_of_tooDeep (Ty.declares_declaration _) hsize hstatic ?_ [] _ ?_⟩
  · rw [Ty.depth_inArrays]
    decide
  · rw [hlength v]
    rfl

end Attest.Abi
