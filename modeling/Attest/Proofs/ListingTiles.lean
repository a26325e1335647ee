import Attest.Evm.Listing
import Attest.Proofs.HexText
import Attest.Proofs.Numerals
import Mathlib.Data.List.Chain
import Mathlib.Tactic.SplitIfs

/-! # The listing tiles the code

A line stands for its opcode and its operand. Where the next line begins is counted from the digits of the
operand, and this keeps in step with the code: the lines cover it from its beginning to its end, with no
gap and no overlap, and the code can be put together from them again. -/

namespace Attest

namespace Evm

/-! ### Operands as text -/

theorem plainOperand_encode (bs : Bytes) : plainOperand (Hex.encode bs) = Hex.encode bs := by
  rw [plainOperand, Hex.encode, String.toList_ofList, Hex.map_toLower_digits, Hex.dropMark_digits]

/-- The digits of an operand tell its size. -/
theorem linesFrom_cons (pc : Nat) (i : Instruction) (is : List Instruction) :
    linesFrom pc (i :: is) =
      ⟨pc, i.name, Hex.encode i.operand⟩ :: linesFrom (pc + i.size) is := by
  have hsize : pc + 1 + (Hex.encode i.operand).length / 2 = pc + i.size := by
    rw [Hex.length_encode, Instruction.size]
    omega
  rw [linesFrom, plainOperand_encode, hsize]

namespace Line

/-- How many bytes the operand has. -/
def width (l : Line) : Nat := l.operand.length / 2

/-- The bytes that the operand stands for. -/
def immediate (l : Line) : Bytes := ((Hex.decode l.operand).toOption).getD []

end Line

/-! ### Tiles -/

/-- Lines one after the other, the first at `start` and the last one up to `stop`. -/
structure Tiles (start stop : Nat) (ls : List Line) : Prop where
  starts : ∀ l ∈ ls.head?, l.pc = start
  follows : ls.IsChain fun l next => next.pc = l.pc + 1 + l.width
  ends : ∀ l ∈ ls.getLast?, l.pc + 1 + l.width = stop
  empty : ls = [] → start = stop

theorem tiles_nil_iff {start stop : Nat} : Tiles start stop [] ↔ start = stop := by
  constructor
  · intro h
    exact h.empty rfl
  · intro h
    exact ⟨by simp, .nil, by simp, fun _ => h⟩

theorem tiles_cons_iff {start stop : Nat} {l : Line} {ls : List Line} :
    Tiles start stop (l :: ls) ↔ l.pc = start ∧ Tiles (l.pc + 1 + l.width) stop ls := by
  constructor
  · rintro ⟨hstarts, hfollows, hends, -⟩
    refine ⟨hstarts l rfl, ?_⟩
    cases ls with
    | nil => exact tiles_nil_iff.mpr (hends l rfl)
    | cons k ks =>
      obtain ⟨hk, hks⟩ := List.isChain_cons_cons.mp hfollows
      exact ⟨by simpa using hk, hks, by simpa using hends, by simp⟩
  · rintro ⟨rfl, hstarts, hfollows, hends, hempty⟩
    refine ⟨by simp, ?_, ?_, by simp⟩
    · exact List.isChain_cons.mpr ⟨hstarts, hfollows⟩
    · cases ls with
      | nil => simpa using hempty rfl
      | cons k ks => simpa using hends

/-- The lines of some instructions tile as many places as these have bytes. -/
theorem tiles_linesFrom (pc : Nat) (is : List Instruction) :
    Tiles pc (pc + (is.flatMap Instruction.bytes).length) (linesFrom pc is) := by
  induction is generalizing pc with
  | nil => exact tiles_nil_iff.mpr rfl
  | cons i is ih =>
    rw [linesFrom_cons, tiles_cons_iff]
    refine ⟨rfl, ?_⟩
    have hnext : pc + 1 + Line.width ⟨pc, i.name, Hex.encode i.operand⟩ = pc + i.size := by
      rw [Line.width, Hex.length_encode, Instruction.size]
      omega
    have hstop : pc + ((i :: is).flatMap Instruction.bytes).length =
        pc + i.size + (is.flatMap Instruction.bytes).length := by
      rw [List.flatMap_cons, List.length_append, Instruction.bytes, List.length_cons, Instruction.size]
      omega
    rw [hnext, hstop]
    exact ih (pc + i.size)

theorem tiles_listing (code : Bytes) : Tiles 0 (Trailer.split code).core.length (listing code) := by
  have h := tiles_linesFrom 0 (instructions (Trailer.split code).core)
  rwa [flatMap_bytes_instructions, Nat.zero_add] at h

/-! ### What a line tells -/

/-- A line tells the instruction at its place: the opcode there and what there is of its operand. -/
def Line.Tells (code : Bytes) (l : Line) : Prop :=
  ∃ op, code[l.pc]? = some op ∧
    l.name = Instruction.name ⟨op, Bytes.slice code (l.pc + 1) (pushSize op)⟩ ∧
    l.operand = Hex.encode (Bytes.slice code (l.pc + 1) (pushSize op))

theorem tells_linesFrom (before rest : Bytes) :
    ∀ l ∈ linesFrom before.length (instructions rest), l.Tells (before ++ rest) := by
  fun_induction instructions rest generalizing before with
  | case1 => simp [linesFrom]
  | case2 op rest ih =>
    -- The instruction goes to the bytes before, and what is left begins after it.
    have hsplit : before ++ op :: rest =
        (before ++ op :: rest.take (pushSize op)) ++ rest.drop (pushSize op) := by simp
    have hlength : (before ++ op :: rest.take (pushSize op)).length =
        before.length + Instruction.size ⟨op, rest.take (pushSize op)⟩ := by
      simp only [List.length_append, List.length_cons, Instruction.size]
      omega
    rw [linesFrom_cons, List.forall_mem_cons]
    refine ⟨⟨op, ?_⟩, ?_⟩
    · simp [Bytes.slice]
    · rw [hsplit, ← hlength]
      exact ih _

theorem tells_listing (code : Bytes) :
    ∀ l ∈ listing code, l.Tells (Trailer.split code).core :=
  tells_linesFrom [] (Trailer.split code).core

namespace Line

variable {code : Bytes} {l : Line}

/-- The operand is made of the bytes that follow the opcode, as many as it has. -/
theorem Tells.operand_eq (h : l.Tells code) :
    l.operand = Hex.encode (Bytes.slice code (l.pc + 1) l.width) := by
  obtain ⟨op, -, -, hoperand⟩ := h
  have hwidth : l.width = min (pushSize op) (code.length - (l.pc + 1)) := by
    rw [width, hoperand, Hex.length_encode, Bytes.length_slice]
    omega
  rw [hoperand, hwidth, Bytes.slice, Bytes.slice, List.take_eq_take_min, List.length_drop]

theorem Tells.immediate_eq (h : l.Tells code) :
    l.immediate = Bytes.slice code (l.pc + 1) l.width := by
  rw [immediate, h.operand_eq, Hex.decode_encode]
  rfl

theorem Tells.bytes_eq (h : l.Tells code) :
    Bytes.slice code l.pc 1 ++ l.immediate = Bytes.slice code l.pc (1 + l.width) := by
  rw [h.immediate_eq, Bytes.slice, Bytes.slice, Bytes.slice, List.take_add, List.drop_drop]

end Line

/-- What lines that tile a code tell is the code from where they start. -/
theorem Tiles.flatMap_slice {code : Bytes} {start : Nat} {ls : List Line}
    (h : Tiles start code.length ls) :
    ls.flatMap (fun l => Bytes.slice code l.pc (1 + l.width)) = code.drop start := by
  induction ls generalizing start with
  | nil =>
    obtain rfl := tiles_nil_iff.mp h
    simp
  | cons l ls ih =>
    obtain ⟨rfl, htail⟩ := tiles_cons_iff.mp h
    rw [List.flatMap_cons, ih htail, Bytes.slice, Nat.add_assoc, ← List.drop_drop, List.take_append_drop]

/-! ### Names of pushes -/

/-- What the push of so many bytes is called. -/
def pushName (n : Nat) : String := s!"PUSH{n}"

theorem pushName_inj {m n : Nat} : pushName m = pushName n ↔ m = n := by
  simp only [pushName, Nat.toString_eq_repr, String.append_right_inj, Numeral.repr_inj]

theorem mnemonic_of_push {op : UInt8} (h : pushSize op ≠ 0) : mnemonic op = pushName (pushSize op) := by
  by_cases hrow : 0x60 ≤ op.toNat ∧ op.toNat ≤ 0x7f
  · simp only [mnemonic, rowName?, pushSize, if_pos hrow]
    rfl
  · exact absurd (if_neg hrow) h

/-- How a name begins. -/
def initials (s : String) : List Char := s.toList.take 2

theorem initials_append {s t : String} (h : 2 ≤ s.toList.length) :
    initials (s ++ t) = initials s := by
  rw [initials, String.toList_append, List.take_append_of_le_length h, initials]

theorem initials_pushName (n : Nat) : initials (pushName n) = ['P', 'U'] := by
  rw [pushName, initials_append (by decide)]
  decide

/-- No other opcode has a name that begins like that of a push. -/
theorem initials_mnemonic {op : UInt8} (h : pushSize op = 0) : initials (mnemonic op) ≠ ['P', 'U'] := by
  have hpush : ¬(0x60 ≤ op.toNat ∧ op.toNat ≤ 0x7f) := by
    intro hpush
    rw [pushSize, if_pos hpush] at h
    omega
  have hnames : ∀ p ∈ mnemonics, initials p.2 ≠ ['P', 'U'] := by decide +kernel
  rw [mnemonic, rowName?, if_neg hpush]
  split_ifs with hdup hswap hlog
  · rw [Option.some_or, Option.getD_some, initials_append (by decide)]
    decide
  · rw [Option.some_or, Option.getD_some, initials_append (by decide)]
    decide
  · rw [Option.some_or, Option.getD_some, initials_append (by decide)]
    decide
  · rw [Option.none_or]
    cases hnamed : mnemonics.lookup op.toNat with
    | some s =>
      obtain ⟨before, after, hsplit, -⟩ := List.lookup_eq_some_iff.mp hnamed
      exact hnames (op.toNat, s) (by simp [hsplit])
    | none =>
      rw [Option.getD_none, initials_append (by decide)]
      decide

/-- The name of a push tells the size of its operand. -/
theorem pushSize_of_mnemonic {op : UInt8} {n : Nat} (h : mnemonic op = pushName n) :
    pushSize op = n := by
  by_cases hpush : pushSize op = 0
  · exact absurd ((congrArg initials h).trans (initials_pushName n)) (initials_mnemonic hpush)
  · rwa [mnemonic_of_push hpush, pushName_inj] at h

/-! ### Code that ends with a whole instruction -/

/-- The places of a code where instructions start: its beginning, and where the operand of another one
should end. -/
inductive Starts (code : Bytes) : Nat → Prop
  | zero : Starts code 0
  | next {pc : Nat} {op : UInt8} (h : Starts code pc) (hop : code[pc]? = some op) :
      Starts code (pc + 1 + pushSize op)

/-- No operand reaches over the end of the code. -/
def EndsWhole (code : Bytes) : Prop := ∀ pc, Starts code pc → pc ≤ code.length

namespace Line

variable {code : Bytes} {l : Line}

/-- Where no operand is cut off, the line of an opcode has its name and an operand of its size. -/
theorem Tells.whole (h : l.Tells code) (hcode : EndsWhole code) (hstart : Starts code l.pc) :
    ∃ op, code[l.pc]? = some op ∧ l.name = mnemonic op ∧ l.width = pushSize op := by
  obtain ⟨op, hop, hname, hoperand⟩ := h
  have hfits : l.pc + 1 + pushSize op ≤ code.length := hcode _ (.next hstart hop)
  have hlength : (Bytes.slice code (l.pc + 1) (pushSize op)).length = pushSize op := by
    rw [Bytes.length_slice]
    omega
  refine ⟨op, hop, ?_, ?_⟩
  · simp [hname, Instruction.name, hlength]
  · rw [width, hoperand, Hex.length_encode, hlength]
    omega

end Line

/-- Lines that tile a code stand where instructions start. -/
theorem Tiles.starts_of_mem {code : Bytes} (hcode : EndsWhole code) {start stop : Nat} {ls : List Line}
    (h : Tiles start stop ls) (htells : ∀ l ∈ ls, l.Tells code) (hstart : Starts code start) :
    ∀ l ∈ ls, Starts code l.pc := by
  induction ls generalizing start with
  | nil => simp
  | cons l ls ih =>
    obtain ⟨rfl, htail⟩ := tiles_cons_iff.mp h
    rw [List.forall_mem_cons] at htells ⊢
    obtain ⟨op, hop, -, hwidth⟩ := htells.1.whole hcode hstart
    refine ⟨hstart, ih htail htells.2 ?_⟩
    rw [hwidth]
    exact .next hstart hop

/-- The listing of any code tiles it, less its metadata trailer: the first line is at zero, each next one
where the operand of the line before ends, and the last one ends with the code. Each operand is the bytes
after its opcode, so that opcodes and operands give the code again. Where no operand is cut off by the end
of the code, each line has the name of its opcode, and the operand has as many bytes as the name of a push
tells, and none in any other line. -/
theorem listing_tiles (code : Bytes) :
    let core := (Trailer.split code).core
    Tiles 0 core.length (listing code) ∧
    (∀ l ∈ listing code, l.operand = Hex.encode (core.slice (l.pc + 1) l.width)) ∧
    ((listing code).flatMap fun l => core.slice l.pc 1 ++ l.immediate) = core ∧
    (EndsWhole core → ∀ l ∈ listing code,
      (∃ op, core[l.pc]? = some op ∧ l.name = mnemonic op ∧ l.width = pushSize op) ∧
      (∀ n, l.name = pushName n → l.width = n) ∧ ((∀ n, l.name ≠ pushName n) → l.width = 0)) := by
  intro core
  have htiles : Tiles 0 core.length (listing code) := tiles_listing code
  have htells : ∀ l ∈ listing code, l.Tells core := tells_listing code
  refine ⟨htiles, fun l hl => (htells l hl).operand_eq, ?_, ?_⟩
  · calc ((listing code).flatMap fun l => core.slice l.pc 1 ++ l.immediate)
        = (listing code).flatMap fun l => core.slice l.pc (1 + l.width) :=
          List.flatMap_congr fun l hl => (htells l hl).bytes_eq
      _ = core := htiles.flatMap_slice
  · intro hcore l hl
    have hstart := htiles.starts_of_mem hcore htells .zero l hl
    obtain ⟨op, hop, hname, hwidth⟩ := (htells l hl).whole hcore hstart
    refine ⟨⟨op, hop, hname, hwidth⟩, ?_, ?_⟩
    · intro n hn
      rw [hwidth]
      exact pushSize_of_mnemonic (hname.symm.trans hn)
    · intro hother
      rw [hwidth]
      by_contra hpush
      exact hother _ (hname.trans (mnemonic_of_push hpush))

/-- Two pushes, an opcode without a name between them, and a trailer. -/
theorem listing_tiles_twoPushes :
    let code : Bytes := [0x60, 0x01, 0x0c, 0x61, 0x02, 0x03, 0xa1, 0x61, 0x61, 0x01, 0x00, 0x04]
    let core : Bytes := [0x60, 0x01, 0x0c, 0x61, 0x02, 0x03]
    (Trailer.split code).core = core ∧ EndsWhole core ∧
      ∀ l ∈ listing code, ∃ op, core[l.pc]? = some op ∧ l.name = mnemonic op ∧ l.width = pushSize op := by
  intro code core
  have hcore : (Trailer.split code).core = core := by decide +kernel
  have hwhole : EndsWhole core := by
    have hstarts (pc : Nat) (h : Starts core pc) : pc ∈ [0, 2, 3, 6] := by
      induction h with
      | zero => simp
      | next h hop ih =>
        simp only [List.mem_cons, List.not_mem_nil, or_false] at ih
        obtain rfl | rfl | rfl | rfl := ih <;> cases hop <;> decide
    intro pc h
    have hle : ∀ pc ∈ [0, 2, 3, 6], pc ≤ core.length := by decide
    exact hle pc (hstarts pc h)
  refine ⟨hcore, hwhole, ?_⟩
  intro l hl
  have h := (listing_tiles code).2.2.2
  rw [hcore] at h
  exact (h hwhole l hl).1

end Evm

end Attest
