import Attest.Proofs.TrailerSplit

/-! # Where an item ends

The reader of data items looks at no byte behind the item that it takes. So an item with something behind
it is not another item, of the beginnings of a byte string one at most is an item, and a trailer's region
holds its map and nothing else. -/

namespace Attest

namespace Cbor

variable {α β : Type} {fuel : Nat}

/-! ## Readers that look no further than they take -/

/-- What the reader takes with so much fuel it takes with more of it too, whatever bytes are added at the
end, and these are left. -/
def Steady (fuel : Nat) (read : Nat → Bytes → Option (Taken α)) : Prop :=
  ∀ (bs rest : Bytes) (x : α), read fuel bs = some (x, rest) →
    ∀ (more : Bytes) (fuel' : Nat), fuel ≤ fuel' → read fuel' (bs ++ more) = some (x, rest ++ more)

namespace Steady

variable {read : Nat → Bytes → Option (Taken α)}

theorem zero (h : ∀ bs, read 0 bs = Option.none) : Steady 0 read := by
  intro bs rest x hread
  cases (h bs).symm.trans hread

theorem none : Steady fuel fun _ _ => (Option.none : Option (Taken α)) := by
  intro bs rest x hread
  cases hread

theorem pure (x : α) : Steady fuel fun _ bs => some (x, bs) := by
  intro bs rest y hread more fuel' _
  cases hread
  rfl

/-- What the first reader leaves is for the next one. -/
theorem bind {next : Nat → Taken α → Option (Taken β)} (h : Steady fuel read)
    (hnext : ∀ x, Steady fuel fun f bs => next f (x, bs)) :
    Steady fuel fun f bs => read f bs >>= next f := by
  intro bs rest y hread more fuel' hfuel
  obtain ⟨⟨x, mid⟩, hx, hy⟩ := Option.bind_eq_some_iff.mp hread
  have hfirst := h bs mid x hx more fuel' hfuel
  have hsecond := hnext x mid rest y hy more fuel' hfuel
  simpa [hfirst] using hsecond

theorem map (h : Steady fuel read) (g : α → β) :
    Steady fuel fun f bs => (read f bs).map fun t => (g t.1, t.2) := by
  intro bs rest y hread more fuel' hfuel
  obtain ⟨⟨x, left⟩, hx, hy⟩ := Option.map_eq_some_iff.mp hread
  cases hy
  simp [h bs left x hx more fuel' hfuel]

/-- A step that takes no bytes. -/
theorem lift {y? : Option β} {next : Nat → Bytes → β → Option (Taken α)}
    (h : ∀ y, Steady fuel fun f bs => next f bs y) : Steady fuel fun f bs => y? >>= next f bs := by
  cases y? with
  | none => exact none
  | some y => exact h y

theorem cons (h : Steady fuel read) (b : UInt8) : Steady fuel fun f bs => read f (b :: bs) := by
  intro bs rest x hread more fuel' hfuel
  exact h (b :: bs) rest x hread more fuel' hfuel

theorem succ (h : Steady fuel fun f bs => read (f + 1) bs) : Steady (fuel + 1) read := by
  intro bs rest x hread more fuel' hfuel
  obtain ⟨f, rfl⟩ : ∃ f, fuel' = f + 1 := ⟨fuel' - 1, by omega⟩
  exact h bs rest x hread more f (by omega)

/-- A reader that needs a byte to begin with. -/
theorem ofByte (hnil : ∀ f, read (f + 1) [] = Option.none)
    (h : ∀ b, Steady fuel fun f bs => read (f + 1) (b :: bs)) : Steady (fuel + 1) read := by
  apply succ
  intro bs rest x hread more fuel' hfuel
  cases bs with
  | nil => cases (hnil fuel).symm.trans hread
  | cons b bs => exact h b bs rest x hread more fuel' hfuel

end Steady

/-! ## Sizes, strings and simple values -/

theorem steady_take? (count : Nat) : Steady fuel fun _ => take? count := by
  intro bs rest x hread more fuel' _
  dsimp only [take?] at hread ⊢
  split at hread
  · cases hread
  · rename_i hlong
    cases hread
    have hfit : count ≤ bs.length := Nat.le_of_not_lt hlong
    have hfit' : ¬(bs ++ more).length < count := by
      rw [List.length_append]
      omega
    rw [if_neg hfit', List.take_append_of_le_length hfit, List.drop_append_of_le_length hfit]

theorem steady_size? (lead : Nat) : Steady fuel fun _ => size? lead := by
  unfold size?
  split
  · exact .pure _
  · split
    · exact (steady_take? _).map fun v => Size.definite (Bytes.toNat v)
    · split
      · exact .pure _
      · exact .none

theorem steady_definite? (lead : Nat) : Steady fuel fun _ => definite? lead := by
  apply (steady_size? lead).bind
  intro size
  cases size with
  | definite n => exact .pure n
  | indefinite => exact .none

theorem steady_chunks? (kind fuel : Nat) : Steady fuel (chunks? kind) := by
  induction fuel with
  | zero => exact .zero fun _ => rfl
  | succ fuel ih =>
    apply Steady.ofByte (fun _ => rfl)
    intro b
    unfold chunks?
    split
    · exact .pure []
    · split
      · apply (steady_definite? _).bind
        intro count
        apply (steady_take? count).bind
        intro chunk
        exact ih.bind fun chunks => .pure _
      · exact .none

theorem steady_string? (kind lead : Nat) : Steady fuel fun _ => string? kind lead := by
  apply (steady_size? lead).bind
  intro size
  cases size with
  | definite count => exact (steady_take? count).bind fun body => .pure _
  | indefinite =>
    -- The chunks have their own fuel, which grows with the bytes that are there.
    intro bs rest x hread more fuel' _
    apply steady_chunks? kind _ bs rest x hread
    simp

theorem steady_float? (count : Nat) (value : Nat → Binary64) :
    Steady fuel fun _ => float? count value :=
  (steady_take? count).map fun v => Item.float (value (Bytes.toNat v))

theorem steady_simple? (lead : Nat) : Steady fuel fun _ => simple? lead := by
  unfold simple?
  split
  · exact .pure _
  split
  · exact .pure _
  split
  · exact .pure _
  split
  · exact .pure _
  split
  · exact .pure _
  split
  · intro bs rest x hread more fuel' _
    cases bs with
    | nil => cases hread
    | cons b bs =>
      dsimp only at hread ⊢
      split at hread
      · cases hread
      · rename_i hlarge
        cases hread
        simp [hlarge]
  split
  · exact steady_float? _ _
  split
  · exact steady_float? _ _
  split
  · exact steady_float? _ _
  · exact .none

/-! ## Items -/

/-- The readers of items and of what they are made of, at some fuel. -/
structure SteadyItems (fuel : Nat) : Prop where
  item (depth : Nat) (fixed : Bool) : Steady fuel fun f => item? f depth fixed
  items (depth : Nat) (fixed : Bool) (count : Nat) : Steady fuel fun f => items? f depth fixed count
  openItems (depth : Nat) (fixed : Bool) : Steady fuel fun f => openItems? f depth fixed
  entries (depth : Nat) (fixed : Bool) (count : Nat) :
    Steady fuel fun f => entries? f depth fixed count
  openEntries (depth : Nat) (fixed : Bool) : Steady fuel fun f => openEntries? f depth fixed

namespace SteadyItems

variable (h : SteadyItems fuel) (depth : Nat) (fixed : Bool)

include h

theorem item_succ : Steady (fuel + 1) fun f => item? f depth fixed := by
  apply Steady.ofByte (by simp [item?])
  intro b
  unfold item?
  -- One case for each major type.
  split
  · exact (steady_definite? _).bind fun n => .pure _
  · exact (steady_definite? _).bind fun n => .pure _
  · exact (steady_string? 2 _).bind fun parts => .pure _
  · exact (steady_string? 3 _).bind fun parts => .lift fun s => .pure _
  · split
    · exact .none
    · apply (steady_size? _).bind
      intro size
      cases size with
      | definite count => exact (h.items _ _ count).bind fun xs => .pure _
      | indefinite => exact (h.openItems _ _).bind fun xs => .pure _
  · split
    · exact .none
    · apply (steady_size? _).bind
      intro size
      cases size with
      | definite count => exact (h.entries _ _ count).bind fun es => .pure _
      | indefinite => exact (h.openEntries _ _).bind fun es => .pure _
  · split
    · exact .none
    · apply (steady_definite? _).bind
      intro tag
      apply (h.item _ _).bind
      intro content
      exact .lift fun x => .pure x
  · exact steady_simple? _

theorem items_succ (count : Nat) : Steady (fuel + 1) fun f => items? f depth fixed count := by
  apply Steady.succ
  unfold items?
  cases count with
  | zero => exact .pure []
  | succ count =>
    apply (h.item _ _).bind
    intro x
    exact (h.items _ _ count).bind fun xs => .pure _

theorem openItems_succ : Steady (fuel + 1) fun f => openItems? f depth fixed := by
  apply Steady.ofByte (by simp [openItems?])
  intro b
  unfold openItems?
  split
  · exact .pure []
  · apply ((h.item _ _).cons b).bind
    intro x
    exact (h.openItems _ _).bind fun xs => .pure _

theorem entries_succ (count : Nat) : Steady (fuel + 1) fun f => entries? f depth fixed count := by
  apply Steady.succ
  unfold entries?
  cases count with
  | zero => exact .pure []
  | succ count =>
    apply (h.item _ _).bind
    intro key
    apply (h.item _ _).bind
    intro value
    exact (h.entries _ _ count).bind fun es => .pure _

theorem openEntries_succ : Steady (fuel + 1) fun f => openEntries? f depth fixed := by
  apply Steady.ofByte (by simp [openEntries?])
  intro b
  unfold openEntries?
  split
  · exact .pure []
  · apply ((h.item _ _).cons b).bind
    intro key
    apply (h.item _ _).bind
    intro value
    exact (h.openEntries _ _).bind fun es => .pure _

end SteadyItems

theorem steadyItems (fuel : Nat) : SteadyItems fuel := by
  induction fuel with
  | zero =>
    constructor
    · intro depth fixed
      exact .zero fun bs => by simp [item?]
    · intro depth fixed count
      exact .zero fun bs => by simp [items?]
    · intro depth fixed
      exact .zero fun bs => by simp [openItems?]
    · intro depth fixed count
      exact .zero fun bs => by simp [entries?]
    · intro depth fixed
      exact .zero fun bs => by simp [openEntries?]
  | succ fuel ih =>
    exact ⟨ih.item_succ, ih.items_succ, ih.openItems_succ, ih.entries_succ, ih.openEntries_succ⟩

/-- Bytes behind those that were read are left as well. -/
theorem read?_append {bs rest : Bytes} {x : Item} (h : read? bs = some (x, rest)) (more : Bytes) :
    read? (bs ++ more) = some (x, rest ++ more) := by
  apply (steadyItems _).item 0 false bs rest x h more
  rw [List.length_append]
  omega

/-- No item begins with another one. -/
theorem eq_of_prefix_of_read? {p bs rest : Bytes} {x y : Item} (hp : read? p = some (x, rest))
    (hbs : read? bs = some (y, [])) (h : p <+: bs) : p = bs := by
  obtain ⟨more, rfl⟩ := h
  have hlonger := read?_append hp more
  rw [hbs] at hlonger
  have hleft : rest ++ more = [] := (Prod.mk.inj (Option.some.inj hlonger)).2.symm
  rw [(List.append_eq_nil_iff.mp hleft).2, List.append_nil]

end Cbor

namespace Trailer

variable {d : Bytes}

theorem fields?_append_eq_none (h : (fields? d).isSome) {s : Bytes} (hs : s ≠ []) :
    fields? (d ++ s) = none := by
  obtain ⟨entries, hread, -, -⟩ := (fields?_isSome_iff d).mp h
  have hlonger : Cbor.read? (d ++ s) = some (.map false entries, s) := Cbor.read?_append hread s
  obtain ⟨b, bs, rfl⟩ := List.exists_cons_of_ne_nil hs
  simp [fields?, hlonger]

/-- A region is one data item: with more bytes behind it there are no fields, of the beginnings of a byte
string one at most has fields, and the region of a trailer is a map that begins with no other item, so
nothing stands behind the map. -/
theorem region_one_item :
    (∀ d s : Bytes, (fields? d).isSome → s ≠ [] → fields? (d ++ s) = none) ∧
    (∀ bs p q : Bytes, p <+: bs → q <+: bs → (fields? p).isSome → (fields? q).isSome → p = q) ∧
    ∀ code : Bytes, (split code).trailer ≠ [] →
      ∃ region entries, (split code).trailer = ofRegion region ∧
        Cbor.read? region = some (.map false entries, []) ∧
        ∀ p x rest, p <+: region → Cbor.read? p = some (x, rest) → p = region := by
  refine ⟨fun d s hd hs => fields?_append_eq_none hd hs, ?_, ?_⟩
  · intro bs p q hp hq hfp hfq
    obtain ⟨_, hreadp, -, -⟩ := (fields?_isSome_iff p).mp hfp
    obtain ⟨_, hreadq, -, -⟩ := (fields?_isSome_iff q).mp hfq
    rcases List.prefix_or_prefix_of_prefix hp hq with hpq | hqp
    · exact Cbor.eq_of_prefix_of_read? hreadp hreadq hpq
    · exact (Cbor.eq_of_prefix_of_read? hreadq hreadp hqp).symm
  · intro code htrailer
    rcases split_cases code with ⟨-, hnone⟩ | ⟨region, hregion, -, hcode⟩
    · exact absurd hnone htrailer
    · obtain ⟨entries, hread, -, -⟩ := hregion
      refine ⟨region, entries, hcode, hread, ?_⟩
      intro p x rest hp hx
      exact Cbor.eq_of_prefix_of_read? hx hread hp

/-- A map of one key, to a list of indefinite length with a map and a tag inside. -/
def nestedRegion : Bytes := [0xa1, 0x61, 0x61, 0x9f, 0x01, 0xa1, 0x61, 0x62, 0xc1, 0x02, 0xff]

theorem region_one_item_nested :
    (fields? nestedRegion).isSome ∧ fields? (nestedRegion ++ [0xff]) = none ∧
    (split (0x60 :: ofRegion nestedRegion)).trailer ≠ [] ∧
      ∃ region entries, (split (0x60 :: ofRegion nestedRegion)).trailer = ofRegion region ∧
        Cbor.read? region = some (.map false entries, []) ∧
        ∀ p x rest, p <+: region → Cbor.read? p = some (x, rest) → p = region := by
  have hregion : (fields? nestedRegion).isSome := by decide +kernel
  have htrailer : (split (0x60 :: ofRegion nestedRegion)).trailer ≠ [] := by decide +kernel
  obtain ⟨hlonger, -, hcode⟩ := region_one_item
  exact ⟨hregion, hlonger nestedRegion [0xff] hregion (by decide), htrailer, hcode _ htrailer⟩

end Trailer

end Attest
