import Attest.Cbor.Reader

/-! # Encodings of maps of scalars

Encodings of definite length by their rules, with heads of any width, and the reader on them: it takes
back what was encoded and leaves what follows. -/

namespace Attest.Cbor

/-! ## Heads -/

/-- The initial byte of an item, of which five bits are left for `info`. -/
def initial (kind info : Nat) : UInt8 := UInt8.ofNat (32 * kind + info)

/-- The head of an item of a kind: a number below 24 in the initial byte itself, any other in one, two,
four or eight bytes after it. -/
inductive Head (kind : Nat) : Nat → Bytes → Prop where
  | short {n : Nat} (h : n < 24) : Head kind n [initial kind n]
  | long {n : Nat} (exponent : Nat) (hwidth : exponent < 4)
      (h : n < Nat.pow 256 (Nat.pow 2 exponent)) :
      Head kind n (initial kind (24 + exponent) :: Bytes.ofNat (Nat.pow 2 exponent) n)

theorem toNat_initial {kind info : Nat} (hkind : kind < 8) (hinfo : info < 32) :
    (initial kind info).toNat = 32 * kind + info := by
  rw [initial, UInt8.toNat_ofNat']
  omega

theorem major_initial {kind i : Nat} (hkind : kind < 8) (hinfo : i < 32) :
    major (initial kind i) = kind := by
  rw [major, toNat_initial hkind hinfo]
  omega

theorem info_initial {kind i : Nat} (hkind : kind < 8) (hinfo : i < 32) :
    info (initial kind i) = i := by
  rw [info, toNat_initial hkind hinfo]
  omega

theorem take?_append (bs rest : Bytes) : take? bs.length (bs ++ rest) = some (bs, rest) := by
  simp [take?]

/-- What a head announces can be read off it, whatever follows. -/
structure Announces (kind n : Nat) (b : UInt8) (more : Bytes) : Prop where
  major : major b = kind
  size : ∀ rest, size? (info b) (more ++ rest) = some (.definite n, rest)

theorem Head.announces {kind n : Nat} {bs : Bytes} (h : Head kind n bs) (hkind : kind < 8) :
    ∃ b more, bs = b :: more ∧ Announces kind n b more := by
  cases h with
  | short hn =>
    refine ⟨_, [], rfl, major_initial hkind (by omega), fun rest => ?_⟩
    rw [info_initial hkind (by omega), size?, if_pos hn, List.nil_append]
  | long exponent hwidth hn =>
    refine ⟨_, _, rfl, major_initial hkind (by omega), fun rest => ?_⟩
    have htake := take?_append (Bytes.ofNat (Nat.pow 2 exponent) n) rest
    rw [Bytes.length_ofNat] at htake
    rw [info_initial hkind (by omega), size?, if_neg (by omega), if_pos (by omega),
      Nat.add_sub_cancel_left, htake, Option.map_some]
    simp only [Bytes.toNat_ofNat, Nat.mod_eq_of_lt hn]

theorem Head.length_pos {kind n : Nat} {bs : Bytes} (h : Head kind n bs) : 0 < bs.length := by
  cases h <;> simp

/-- Where a head is read, so is its number. -/
theorem Announces.definite {kind n : Nat} {b : UInt8} {more : Bytes} (h : Announces kind n b more)
    (rest : Bytes) : definite? (info b) (more ++ rest) = some (n, rest) := by
  rw [definite?, h.size]
  rfl

theorem Announces.string {kind n : Nat} {b : UInt8} {more : Bytes} (h : Announces kind n b more)
    {body : Bytes} (hbody : body.length = n) (rest : Bytes) :
    string? kind (info b) (more ++ (body ++ rest)) = some ([body], rest) := by
  subst n
  rw [string?, h.size]
  simp [take?_append]

/-! ## Texts -/

/-- The bytes of a text. -/
def utf8 (s : String) : Bytes := s.toUTF8.data.toList

theorem utf8?_utf8 (s : String) : utf8? (utf8 s) = some s := by
  have harray : ByteArray.mk (utf8 s).toArray = s.toUTF8 := by
    rw [utf8, Array.toArray_toList]
  rw [utf8?, harray, String.fromUTF8?, String.toUTF8_eq_toByteArray, dif_pos s.isValidUTF8]
  rfl

/-! ## Scalars -/

/-- A value without parts: bytes, a text, a number or a truth value. -/
inductive Scalar where
  | bytes (bs : Bytes)
  | text (s : String)
  | number (n : Nat)
  | truth (b : Bool)

/-- A value as an item. -/
def Scalar.item : Scalar → Item
  | bytes bs => .bytes bs
  | text s => .text s
  | number n => .int n
  | truth b => .bool b

/-- The rules by which values are encoded. A number may also stand as bytes under the tag for numbers
of any size. -/
inductive Encodes : Scalar → Bytes → Prop where
  | bytes {bs head : Bytes} (h : Head 2 bs.length head) : Encodes (.bytes bs) (head ++ bs)
  | text {s : String} {head : Bytes} (h : Head 3 (utf8 s).length head) :
      Encodes (.text s) (head ++ utf8 s)
  | number {n : Nat} {head : Bytes} (h : Head 0 n head) : Encodes (.number n) head
  | bignum {bs tag head : Bytes} (htag : Head 6 2 tag) (h : Head 2 bs.length head) :
      Encodes (.number (Bytes.toNat bs)) (tag ++ (head ++ bs))
  | truth (b : Bool) : Encodes (.truth b) [initial 7 (if b then 21 else 20)]

theorem Encodes.length_pos {x : Scalar} {bs : Bytes} (h : Encodes x bs) : 0 < bs.length := by
  cases h with
  | bytes h | text h | bignum h =>
    rw [List.length_append]
    have := h.length_pos
    omega
  | number h => exact h.length_pos
  | truth b => simp

theorem item?_of_head_bytes {bs head : Bytes} (h : Head 2 bs.length head) (fuel depth : Nat)
    (fixed : Bool) (rest : Bytes) :
    item? (fuel + 1) depth fixed (head ++ bs ++ rest) = some (.bytes bs, rest) := by
  obtain ⟨b, more, rfl, hb⟩ := h.announces (by decide)
  rw [List.append_assoc, List.cons_append, item?, hb.major, hb.string rfl]
  simp

/-- The reader takes back an encoded value at the front, at any depth that is not too great. -/
theorem item?_of_encodes {x : Scalar} {bs : Bytes} (h : Encodes x bs) (fuel depth : Nat)
    (hdepth : depth < depthLimit) (fixed : Bool) (rest : Bytes) :
    item? (fuel + 2) depth fixed (bs ++ rest) = some (x.item, rest) := by
  cases h with
  | bytes h => exact item?_of_head_bytes h _ depth fixed rest
  | text h =>
    obtain ⟨b, more, rfl, hb⟩ := h.announces (by decide)
    rw [List.append_assoc, List.cons_append, item?, hb.major, hb.string rfl]
    simp [Scalar.item, utf8Chunks?, utf8?_utf8]
  | number h =>
    obtain ⟨b, more, rfl, hb⟩ := h.announces (by decide)
    rw [List.cons_append, item?, hb.major, hb.definite]
    rfl
  | bignum htag h =>
    obtain ⟨b, more, rfl, hb⟩ := htag.announces (by decide)
    have hcontent := item?_of_head_bytes h fuel (depth + 1) true rest
    rw [List.append_assoc, List.cons_append, item?, hb.major]
    simp only [if_neg (Nat.not_le.mpr hdepth), hb.definite, hcontent, Option.bind_eq_bind,
      Option.bind_some]
    rfl
  | truth b =>
    rw [List.singleton_append, item?, major_initial (by decide) (by cases b <;> decide),
      info_initial (by decide) (by cases b <;> decide)]
    cases b <;> rfl

/-! ## Maps -/

/-- A map's entries: texts and values. -/
abbrev ScalarMap := List (String × Scalar)

namespace ScalarMap

def items (fields : ScalarMap) : List (Item × Item) := fields.map fun f => (.text f.1, f.2.item)

end ScalarMap

/-- Entries one after the other, each key before its value. -/
inductive EncodesEntries : ScalarMap → Bytes → Prop where
  | nil : EncodesEntries [] []
  | cons {name : String} {x : Scalar} {fields : ScalarMap} {key value rest : Bytes}
      (hkey : Encodes (.text name) key) (hvalue : Encodes x value)
      (hrest : EncodesEntries fields rest) :
      EncodesEntries ((name, x) :: fields) (key ++ (value ++ rest))

/-- A map of definite length: a head with the number of its entries, and the entries. -/
inductive EncodesMap (fields : ScalarMap) : Bytes → Prop where
  | intro {head body : Bytes} (hhead : Head 5 fields.length head)
      (hbody : EncodesEntries fields body) : EncodesMap fields (head ++ body)

theorem EncodesEntries.length_le {fields : ScalarMap} {bs : Bytes} (h : EncodesEntries fields bs) :
    fields.length ≤ bs.length := by
  induction h with
  | nil => simp
  | cons hkey hvalue hrest ih =>
    have := hkey.length_pos
    simp only [List.length_cons, List.length_append]
    omega

theorem entries?_of_encodes {fields : ScalarMap} {bs : Bytes} (h : EncodesEntries fields bs)
    (fuel depth : Nat) (hfuel : fields.length + 2 ≤ fuel) (hdepth : depth < depthLimit) (fixed : Bool)
    (rest : Bytes) :
    entries? fuel depth fixed fields.length (bs ++ rest) = some (fields.items, rest) := by
  induction h generalizing fuel with
  | nil =>
    cases fuel with
    | zero => simp at hfuel
    | succ fuel => simp [entries?, ScalarMap.items]
  | @cons name x fields key value body hkey hvalue hrest ih =>
    cases fuel with
    | zero => simp at hfuel
    | succ fuel =>
      simp only [List.length_cons] at hfuel
      obtain ⟨fuel, rfl⟩ : ∃ more, fuel = more + 2 := ⟨fuel - 2, by omega⟩
      rw [List.length_cons, entries?, List.append_assoc, item?_of_encodes hkey _ _ hdepth]
      simp only [Option.bind_eq_bind, Option.bind_some]
      rw [List.append_assoc, item?_of_encodes hvalue _ _ hdepth]
      simp only [Option.bind_some]
      rw [ih _ (by omega)]
      rfl

/-! ## Keys -/

theorem putEntry_of_fresh {es : List (Item × Item)} {e : Item × Item}
    (h : ∀ d ∈ es, d.1.same e.1 = false) : Item.putEntry es e = es ++ [e] := by
  induction es with
  | nil => rfl
  | cons d es ih =>
    have hd : d.1.same e.1 = false := h d (by simp)
    have hrest : Item.putEntry es e = es ++ [e] := ih fun d hd => h d (by simp [hd])
    simp [Item.putEntry, hd, hrest]

/-- Distinct texts are distinct keys: no entry takes the place of another. -/
theorem entriesOf_items {fields : ScalarMap} (h : (fields.map (·.1)).Nodup) :
    Item.entriesOf fields.items = fields.items := by
  have hfrom (before after : ScalarMap) (h : ((before ++ after).map (·.1)).Nodup) :
      after.items.foldl Item.putEntry before.items = (before ++ after).items := by
    induction after generalizing before with
    | nil => simp [ScalarMap.items]
    | cons f after ih =>
      have hfresh : ∀ d ∈ before.items, d.1.same (.text f.1) = false := by
        intro d hd
        obtain ⟨g, hg, rfl⟩ := List.mem_map.mp hd
        rw [List.map_append, List.nodup_append] at h
        have hne := h.2.2 g.1 (List.mem_map_of_mem hg) f.1 (by simp)
        simpa [Item.same] using hne
      have hput : Item.putEntry before.items (.text f.1, f.2.item) = (before ++ [f]).items := by
        rw [putEntry_of_fresh hfresh]
        simp [ScalarMap.items]
      have hrest := ih (before ++ [f]) (by simpa using h)
      simp only [ScalarMap.items, List.map_cons, List.foldl_cons] at hput hrest ⊢
      rw [hput, hrest]
      simp
  exact hfrom [] fields h

/-- The reader takes back a map of scalars and nothing is left. -/
theorem read?_of_encodes {fields : ScalarMap} {bs : Bytes} (h : EncodesMap fields bs)
    (hnames : (fields.map (·.1)).Nodup) : read? bs = some (.map false fields.items, []) := by
  obtain ⟨hhead, hbody⟩ := h
  rename_i head body
  obtain ⟨b, more, rfl, hb⟩ := hhead.announces (by decide)
  have hlength := hbody.length_le
  have hentries := entries?_of_encodes hbody (2 * (more ++ body).length + 3) 1
    (by rw [List.length_append]; omega) (by decide) false []
  rw [List.append_nil] at hentries
  have hfuel : 2 * (b :: more ++ body).length + 2 = 2 * (more ++ body).length + 3 + 1 := by
    simp only [List.cons_append, List.length_cons]
    omega
  have hdepth : ¬depthLimit ≤ 0 := by decide
  rw [read?, hfuel, List.cons_append, item?, hb.major]
  simp only [if_neg hdepth, hb.size, hentries, Option.bind_eq_bind, Option.bind_some,
    entriesOf_items hnames]

end Attest.Cbor
