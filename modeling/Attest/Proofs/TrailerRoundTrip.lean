import Attest.Proofs.CborEncoding
import Attest.Proofs.Outcome
import Attest.Proofs.TrailerSplit

/-! # Trailers, written and read

A map of scalars that is appended to code with its length is split off again, and its fields are shown.
The fields of any trailer can be shown unless they hold an integer that is too long to be written. -/

namespace Attest.Trailer

/-! ## Fields as text -/

theorem showField_of_ne_bytes (name : String) {item : Cbor.Item} (h : ∀ b, item ≠ .bytes b) :
    showField name item =
      if item.isWritable then .ok item.plain else .error (.badValue Numeral.unwritableText) := by
  unfold showField
  split
  · exact absurd rfl (h _)
  · rfl

/-- A field cannot be shown exactly when it holds an integer that is too long to be written. -/
theorem showField_cases (name : String) (item : Cbor.Item) :
    (item.isWritable = true ∧ ∃ s, showField name item = .ok s) ∨
      (item.isWritable = false ∧ showField name item = .error (.badValue Numeral.unwritableText)) := by
  by_cases hbytes : ∃ b, item = .bytes b
  · obtain ⟨b, rfl⟩ := hbytes
    exact .inl ⟨rfl, _, rfl⟩
  · have hother : ∀ b, item ≠ .bytes b := fun b hb => hbytes ⟨b, hb⟩
    rw [showField_of_ne_bytes name hother]
    cases hwritable : item.isWritable with
    | true => exact .inl ⟨rfl, _, if_pos rfl⟩
    | false => exact .inr ⟨rfl, if_neg Bool.false_ne_true⟩

/-- A field with its value as text. -/
def showEntry (f : String × Cbor.Item) : Except Defect (String × String) := do
  return (f.1, ← showField f.1 f.2)

theorem showEntry_cases (f : String × Cbor.Item) :
    (f.2.isWritable = true ∧ ∃ shown, showEntry f = .ok shown) ∨
      (f.2.isWritable = false ∧ showEntry f = .error (.badValue Numeral.unwritableText)) := by
  rcases showField_cases f.1 f.2 with ⟨hwritable, s, hshown⟩ | ⟨hlong, hfails⟩
  · refine .inl ⟨hwritable, (f.1, s), ?_⟩
    rw [showEntry, hshown]
    rfl
  · refine .inr ⟨hlong, ?_⟩
    rw [showEntry, hfails]
    rfl

/-! ## Decoding -/

theorem take_ofRegion (region : Bytes) :
    (ofRegion region).take ((ofRegion region).length - lengthSize) = region := by
  rw [ofRegion, List.length_append, Bytes.length_ofNat, Nat.add_sub_cancel, List.take_left]

theorem decode_ofRegion {region : Bytes} {fs : Fields} (h : fields? region = some fs) :
    decode (ofRegion region) = (fs.mapM showEntry).map some := by
  have hregion : IsRegion region := (fields?_isSome_iff region).mp (by simp [h])
  have hpos : 0 < region.length := List.length_pos_iff.mpr hregion.ne_nil
  have hlong : ¬(ofRegion region).length ≤ lengthSize := by
    rw [ofRegion, List.length_append, Bytes.length_ofNat]
    omega
  rw [decode, if_neg hlong, take_ofRegion, h]
  change (fs.mapM showEntry >>= fun shown => pure (some shown)) = _
  cases fs.mapM showEntry <;> rfl

/-- The fields of a trailer hold no integer that is too long to be written. -/
def IsLegible (trailer : Bytes) : Prop :=
  ∀ fs, fields? (trailer.take (trailer.length - lengthSize)) = some fs →
    ∀ f ∈ fs, f.2.isWritable = true

theorem IsLegible.of_ofRegion {region : Bytes} {fs : Fields} (hfields : fields? region = some fs)
    (h : ∀ f ∈ fs, f.2.isWritable = true) : IsLegible (ofRegion region) := by
  intro gs hgs
  rw [take_ofRegion, hfields] at hgs
  cases hgs
  exact h

theorem decode_of_isTrailer {t : Bytes} (h : IsTrailer t) :
    (IsLegible t ∧ ∃ shown, decode t = .ok (some shown)) ∨
      (¬IsLegible t ∧ decode t = .error (.badValue Numeral.unwritableText)) := by
  obtain ⟨region, hregion, -, rfl⟩ := h
  obtain ⟨fs, hfields⟩ := Option.isSome_iff_exists.mp ((fields?_isSome_iff region).mpr hregion)
  rw [decode_ofRegion hfields]
  cases hshown : fs.mapM showEntry with
  | ok shown =>
    refine .inl ⟨IsLegible.of_ofRegion hfields fun f hf => ?_, shown, rfl⟩
    obtain ⟨s, hs⟩ := Except.exists_of_mapM_eq_ok hshown f hf
    rcases showEntry_cases f with ⟨hwritable, -⟩ | ⟨-, hfails⟩
    · exact hwritable
    · rw [hfails] at hs
      cases hs
  | error d =>
    obtain ⟨f, hf, hfails⟩ := Except.exists_of_mapM_eq_error hshown
    rcases showEntry_cases f with ⟨-, s, hs⟩ | ⟨hlong, hunwritable⟩
    · rw [hs] at hfails
      cases hfails
    · rw [hunwritable] at hfails
      cases hfails
      refine .inr ⟨fun hlegible => ?_, rfl⟩
      have hwritable := hlegible fs (by rw [take_ofRegion, hfields]) f hf
      rw [hlong] at hwritable
      cases hwritable

/-! ## Maps of scalars -/

/-- How a value is shown under a name. -/
def shown (name : String) : Cbor.Scalar → String
  | .bytes [major, minor, patch] =>
      if name = "solc" then
        toString major.toNat ++ "." ++ toString minor.toNat ++ "." ++ toString patch.toNat
      else Hex.encodePrefixed [major, minor, patch]
  | .bytes bs => Hex.encodePrefixed bs
  | .text s => s
  | .number n => toString n
  | .truth b => if b then "True" else "False"

/-- The fields as they are shown, in the order of the map. -/
def shownFields (fields : Cbor.ScalarMap) : List (String × String) :=
  fields.map fun f => (f.1, shown f.1 f.2)

theorem showField_bytes (name : String) (bs : Bytes) :
    showField name (.bytes bs) = .ok (shown name (.bytes bs)) := by
  rcases bs with _ | ⟨major, _ | ⟨minor, _ | ⟨patch, _ | ⟨more, rest⟩⟩⟩⟩
  case cons.cons.cons.nil =>
    by_cases hname : name = "solc"
    · rw [showField, if_pos ⟨hname, rfl⟩, shown, if_pos hname]
      rfl
    · simp [showField, shown, versionField, hname]
  all_goals simp [showField, shown]

theorem showEntry_item (name : String) {x : Cbor.Scalar} (h : x.item.isWritable = true) :
    showEntry (name, x.item) = .ok (name, shown name x) := by
  have hfield : showField name x.item = .ok (shown name x) := by
    cases x with
    | bytes bs => exact showField_bytes name bs
    | text s => rfl
    | number n =>
      rw [showField_of_ne_bytes name (by simp [Cbor.Scalar.item]), if_pos h]
      rfl
    | truth b => cases b <;> rfl
  rw [showEntry, hfield]
  rfl

theorem textEntries?_items (fields : Cbor.ScalarMap) :
    textEntries? fields.items = some (fields.map fun f => (f.1, f.2.item)) := by
  induction fields with
  | nil => rfl
  | cons f fields ih =>
    have hitems : Cbor.ScalarMap.items (f :: fields) =
        (.text f.1, f.2.item) :: Cbor.ScalarMap.items fields := rfl
    rw [hitems, textEntries?, ih]
    rfl

theorem fields?_of_encodes {fields : Cbor.ScalarMap} {e : Bytes} (hne : fields ≠ [])
    (hnames : (fields.map (·.1)).Nodup) (h : Cbor.EncodesMap fields e) :
    fields? e = some (fields.map fun f => (f.1, f.2.item)) := by
  obtain ⟨f, rest, rfl⟩ := List.exists_cons_of_ne_nil hne
  rw [fields?, Cbor.read?_of_encodes h hnames]
  exact textEntries?_items (f :: rest)

/-- A number of no more digits than can be written, or a value of another kind. -/
def IsShort (x : Cbor.Scalar) : Prop := ∀ n, x = .number n → n < Numeral.writableBound

theorem isWritable_item {x : Cbor.Scalar} : x.item.isWritable = true ↔ IsShort x := by
  cases x with
  | number n =>
    have hnumber : (Cbor.Scalar.number n).item.isWritable = decide (n < Numeral.writableBound) := rfl
    rw [hnumber, decide_eq_true_iff]
    constructor
    · rintro h m hm
      cases hm
      exact h
    · exact fun h => h n rfl
  | bytes bs | text s | truth b =>
    refine ⟨fun _ n hn => ?_, fun _ => rfl⟩
    cases hn

theorem isLegible_of_encodes_iff {fields : Cbor.ScalarMap} {e : Bytes} (hne : fields ≠ [])
    (hnames : (fields.map (·.1)).Nodup) (h : Cbor.EncodesMap fields e) :
    IsLegible (ofRegion e) ↔ ∀ f ∈ fields, IsShort f.2 := by
  have hfields := fields?_of_encodes hne hnames h
  constructor
  · intro hlegible f hf
    refine isWritable_item.mp (hlegible _ ((take_ofRegion e).symm ▸ hfields) (f.1, f.2.item) ?_)
    exact List.mem_map_of_mem hf
  · intro hshort
    refine IsLegible.of_ofRegion hfields fun g hg => ?_
    obtain ⟨f, hf, rfl⟩ := List.mem_map.mp hg
    exact isWritable_item.mpr (hshort f hf)

theorem decode_of_encodes {fields : Cbor.ScalarMap} {e : Bytes} (hne : fields ≠ [])
    (hnames : (fields.map (·.1)).Nodup) (h : Cbor.EncodesMap fields e)
    (hshort : ∀ f ∈ fields, IsShort f.2) : decode (ofRegion e) = .ok (some (shownFields fields)) := by
  have hshown : (fields.map fun f => (f.1, f.2.item)).mapM showEntry = .ok (shownFields fields) := by
    have hentry : ∀ f ∈ fields, showEntry (f.1, f.2.item) = .ok (f.1, shown f.1 f.2) :=
      fun f hf => showEntry_item f.1 (isWritable_item.mpr (hshort f hf))
    rw [List.mapM_map]
    exact Except.mapM_eq_ok hentry
  rw [decode_ofRegion (fields?_of_encodes hne hnames h), hshown]
  rfl

/-! ## The round trip -/

/-- A code is its core and its trailer. The fields of the trailer are shown if there is a trailer and
none of its integers is too long to be written, and only then; a trailer with such an integer cannot
be decoded. A map of scalars with its length behind any core is the trailer, and its fields are shown
under the same condition. -/
theorem split_decode (code core : Bytes) (fields : Cbor.ScalarMap) (e : Bytes) :
    ((split code).core ++ (split code).trailer = code ∧
      (decode (split code).trailer = .ok none ↔ (split code).trailer = []) ∧
      ((∃ shown, decode (split code).trailer = .ok (some shown)) ↔
        (split code).trailer ≠ [] ∧ IsLegible (split code).trailer) ∧
      (¬IsLegible (split code).trailer →
        decode (split code).trailer = .error (.badValue Numeral.unwritableText))) ∧
    (fields ≠ [] → (fields.map (·.1)).Nodup → Cbor.EncodesMap fields e → e.length < 65536 →
      split (core ++ (e ++ Bytes.ofNat 2 e.length)) = ⟨core, e ++ Bytes.ofNat 2 e.length⟩ ∧
      (IsLegible (e ++ Bytes.ofNat 2 e.length) ↔ ∀ f ∈ fields, IsShort f.2) ∧
      ((∀ f ∈ fields, IsShort f.2) →
        decode (e ++ Bytes.ofNat 2 e.length) = .ok (some (shownFields fields)))) := by
  constructor
  · refine ⟨split_append code, ?_⟩
    rcases split_cases code with ⟨-, hnone⟩ | htrailer
    · have hdecode : decode [] = .ok none := rfl
      have hlegible : IsLegible [] := by
        intro fs hfs
        simp [fields?, Cbor.read?, Cbor.item?] at hfs
      rw [hnone, hdecode]
      simp [hlegible]
    · have hne := htrailer.ne_nil
      rcases decode_of_isTrailer htrailer with ⟨hlegible, shown, hshown⟩ | ⟨hlong, hfails⟩
      · simp [hshown, hne, hlegible]
      · simp [hfails, hne, hlong]
  · intro hfields hnames hencodes hlength
    have htrailer : IsTrailer (ofRegion e) := by
      refine ⟨e, (fields?_isSome_iff e).mp ?_, hlength, rfl⟩
      rw [fields?_of_encodes hfields hnames hencodes]
      rfl
    exact ⟨split_append_of_isTrailer htrailer core, isLegible_of_encodes_iff hfields hnames hencodes,
      decode_of_encodes hfields hnames hencodes⟩

/-- A release with its compiler's version and a mark, behind a core that itself ends in a trailer. -/
theorem split_decode_release :
    let core : Bytes := [0xa1, 0x61, 0x61, 0x01, 0x00, 0x04]
    let e : Bytes := [0xa2, 0x64, 0x73, 0x6f, 0x6c, 0x63, 0x43, 0x00, 0x08, 0x14,
      0x61, 0x78, 0xf5]
    split (core ++ (e ++ [0x00, 0x0d])) = ⟨core, e ++ [0x00, 0x0d]⟩ ∧
      decode (e ++ [0x00, 0x0d]) = .ok (some [("solc", "0.8.20"), ("x", "True")]) := by
  have hentries : Cbor.EncodesEntries
      [("solc", .bytes [0x00, 0x08, 0x14]), ("x", .truth true)] _ :=
    .cons (.text (.short (by decide))) (.bytes (.short (by decide)))
      (.cons (.text (.short (by decide))) (.truth true) .nil)
  have hmap := Cbor.EncodesMap.intro (.short (by decide)) hentries
  obtain ⟨hsplit, -, hdecode⟩ := (split_decode [] [0xa1, 0x61, 0x61, 0x01, 0x00, 0x04]
    [("solc", .bytes [0x00, 0x08, 0x14]), ("x", .truth true)] _).2 (by decide) (by decide) hmap
    (by decide +kernel)
  refine ⟨hsplit, hdecode fun f hf n hn => ?_⟩
  simp only [List.mem_cons, List.not_mem_nil, or_false] at hf
  rcases hf with rfl | rfl <;> cases hn

/-- One field, whose value is a number of 1800 bytes, and its length. -/
def overlong : Bytes :=
  [0xa1, 0x61, 0x61, 0xc2, 0x59, 0x07, 0x08] ++ List.replicate 1800 0xff ++ [0x07, 0x0f]

/-- A trailer is split off and yet not decoded. -/
theorem overlong_not_decoded :
    split overlong = ⟨[], overlong⟩ ∧ overlong ≠ [] ∧
      decode overlong = .error (.badValue Numeral.unwritableText) := by
  decide +kernel

end Attest.Trailer
