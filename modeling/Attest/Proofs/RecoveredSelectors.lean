import Attest.Decompilation
import Attest.Proofs.DocumentShapes
import Attest.Proofs.ListingTiles
import Attest.Proofs.RepeatedTrailers

/-! # Selectors that are recovered from a dispatcher

A selector is what a `PUSH4` puts on the stack for an `EQ` soon after it. Those of a code are found in the
order in which they are first compared, each once. In a code that compares with the rows of a table one
after the other these are the selectors of the table, whatever bytes they are made of, and a metadata
trailer after the code has no part in it. -/

namespace Attest

namespace Evm

/-! ### Texts in the order of their first occurrence -/

/-- The texts that occur somewhere, each once, in the order of the places where they occur first. -/
structure InFirstOrder (occurs : Nat → String → Prop) (ss : List String) : Prop where
  nodup : ss.Nodup
  mem_iff : ∀ s, s ∈ ss ↔ ∃ i, occurs i s
  ordered : ss.Pairwise fun s t => ∃ i, occurs i s ∧ ∀ j, occurs j t → i < j

namespace InFirstOrder

variable {occurs occurs' : Nat → String → Prop} {ss : List String}

theorem nil (h : ∀ i s, ¬occurs i s) : InFirstOrder occurs [] :=
  ⟨.nil, by simp [h], .nil⟩

/-- Nothing occurs before the places that were looked at. -/
theorem skip (h : InFirstOrder occurs ss) (hzero : ∀ s, ¬occurs' 0 s)
    (hsucc : ∀ i s, occurs' (i + 1) s ↔ occurs i s) : InFirstOrder occurs' ss := by
  have hplace (i : Nat) (s : String) : occurs' i s ↔ ∃ j, i = j + 1 ∧ occurs j s := by
    cases i with
    | zero => simp [hzero]
    | succ i => simp [hsucc]
  refine ⟨h.nodup, fun s => ?_, h.ordered.imp ?_⟩
  · simp [h.mem_iff, hplace]
  · rintro s t ⟨i, hi, hfirst⟩
    refine ⟨i + 1, (hsucc i s).mpr hi, fun j hj => ?_⟩
    obtain ⟨k, rfl, hk⟩ := (hplace j t).mp hj
    exact Nat.succ_lt_succ (hfirst k hk)

/-- One more text occurs before the places that were looked at; it is not listed again. -/
theorem cons {s : String} (h : InFirstOrder occurs ss) (hzero : ∀ t, occurs' 0 t ↔ t = s)
    (hsucc : ∀ i t, occurs' (i + 1) t ↔ occurs i t) :
    InFirstOrder occurs' (s :: ss.filter fun t => !t == s) := by
  have hplace (i : Nat) (t : String) : occurs' i t ↔ i = 0 ∧ t = s ∨ ∃ j, i = j + 1 ∧ occurs j t := by
    cases i with
    | zero => simp [hzero]
    | succ i => simp [hsucc]
  refine ⟨?_, fun t => ?_, List.pairwise_cons.mpr ⟨fun t ht => ?_, ?_⟩⟩
  · exact List.nodup_cons.mpr ⟨by simp, h.nodup.filter _⟩
  · by_cases hts : t = s
    · simp [hts, hplace]
    · simp [hts, hplace, h.mem_iff]
  · refine ⟨0, (hzero s).mpr rfl, fun j hj => ?_⟩
    have hne : t ≠ s := by simpa using (List.mem_filter.mp ht).2
    cases j with
    | zero => exact absurd ((hzero t).mp hj) hne
    | succ j => exact Nat.succ_pos j
  · refine (h.ordered.filter _).imp_of_mem ?_
    rintro t u - hu ⟨i, hi, hfirst⟩
    have hne : u ≠ s := by simpa using (List.mem_filter.mp hu).2
    refine ⟨i + 1, (hsucc i t).mpr hi, fun j hj => ?_⟩
    obtain ⟨-, rfl⟩ | ⟨k, rfl, hk⟩ := (hplace j u).mp hj
    · exact absurd rfl hne
    · exact Nat.succ_lt_succ (hfirst k hk)

end InFirstOrder

theorem eraseDups_filter (p : String → Bool) (ss : List String) :
    (ss.filter p).eraseDups = ss.eraseDups.filter p := by
  induction hlength : ss.length using Nat.strongRecOn generalizing ss with
  | ind n ih =>
    cases ss with
    | nil => rfl
    | cons s ss =>
      have hshorter : (ss.filter fun t => !t == s).length < n := by
        have hle := List.length_filter_le (fun t => !t == s) ss
        rw [List.length_cons] at hlength
        omega
      have hrest := ih _ hshorter (ss.filter fun t => !t == s) rfl
      rw [List.filter_filter] at hrest
      by_cases hs : p s = true
      · rw [List.filter_cons_of_pos hs, List.eraseDups_cons, List.eraseDups_cons,
          List.filter_cons_of_pos hs, List.filter_filter, ← hrest]
        congr 3
        funext t
        exact Bool.and_comm _ _
      · rw [List.filter_cons_of_neg hs, List.eraseDups_cons, List.filter_cons_of_neg hs, ← hrest]
        congr 2
        funext t
        by_cases hts : t = s <;> simp [hts, hs]

theorem eraseDups_cons (s : String) (ss : List String) :
    (s :: ss).eraseDups = s :: ss.eraseDups.filter fun t => !t == s := by
  rw [List.eraseDups_cons, eraseDups_filter]

/-! ### Comparisons -/

/-! The opcodes that a dispatcher is made of. -/

namespace Opcode

def stop : UInt8 := 0x00
def eq : UInt8 := 0x14
def jumpi : UInt8 := 0x57
def push2 : UInt8 := 0x61
def push4 : UInt8 := 0x63
def dup1 : UInt8 := 0x80

end Opcode

/-- The `i`-th instruction pushes four bytes, which `s` spells, and one of the next three compares. -/
def Dispatches (is : List Instruction) (i : Nat) (s : String) : Prop :=
  ∃ operand, is[i]? = some ⟨Opcode.push4, operand⟩ ∧ operand.length = 4 ∧ s = Hex.encode operand ∧
    ∃ j k, i < j ∧ j ≤ i + 3 ∧ is[j]? = some k ∧ k.opcode = Opcode.eq

theorem mnemonic_eq_push4_iff (op : UInt8) : mnemonic op = "PUSH4" ↔ op = Opcode.push4 := by
  have hall : ∀ n < 256, mnemonic (UInt8.ofNat n) = "PUSH4" ↔ UInt8.ofNat n = Opcode.push4 := by
    decide +kernel
  simpa using hall op.toNat op.toNat_lt

theorem mnemonic_eq_eq_iff (op : UInt8) : mnemonic op = "EQ" ↔ op = Opcode.eq := by
  have hall : ∀ n < 256, mnemonic (UInt8.ofNat n) = "EQ" ↔ UInt8.ofNat n = Opcode.eq := by
    decide +kernel
  simpa using hall op.toNat op.toNat_lt

namespace Instruction

/-- A name that does not begin like that of a cut off operand is the name of the opcode. -/
theorem name_eq_iff {s : String} (hs : initials s ≠ ['I', 'N']) (i : Instruction) :
    i.name = s ↔ pushSize i.opcode ≤ i.operand.length ∧ mnemonic i.opcode = s := by
  unfold name
  split
  · rename_i hcut
    have hne : "INVALID_0x" ++ Text.hexDigits 1 i.opcode.toNat ≠ s := by
      rintro rfl
      exact hs (initials_append (by decide))
    simp [hne, Nat.not_le.mpr hcut]
  · rename_i hwhole
    simp [Nat.not_lt.mp hwhole]

theorem name_eq_push4_iff (i : Instruction) :
    i.name = "PUSH4" ↔ i.opcode = Opcode.push4 ∧ 4 ≤ i.operand.length := by
  rw [name_eq_iff (by decide), mnemonic_eq_push4_iff]
  constructor
  · rintro ⟨hsize, hop⟩
    exact ⟨hop, by rwa [hop] at hsize⟩
  · rintro ⟨hop, hsize⟩
    exact ⟨by rwa [hop], hop⟩

theorem name_eq_eq_iff (i : Instruction) : i.name = "EQ" ↔ i.opcode = Opcode.eq := by
  rw [name_eq_iff (by decide), mnemonic_eq_eq_iff, and_iff_right_iff_imp]
  intro hop
  rw [hop]
  exact Nat.zero_le _

end Instruction

theorem map_name_linesFrom (pc : Nat) (is : List Instruction) :
    (linesFrom pc is).map Line.name = is.map Instruction.name := by
  induction is generalizing pc with
  | nil => rfl
  | cons i is ih => rw [linesFrom_cons, List.map_cons, List.map_cons, ih]

/-- A line dispatches as its instruction and the next three tell. -/
theorem isDispatch_iff (pc next : Nat) (i : Instruction) (is : List Instruction) :
    isDispatch ⟨pc, i.name, Hex.encode i.operand⟩ (linesFrom next is) = true ↔
      Dispatches (i :: is) 0 (Hex.encode i.operand) := by
  have hnear : ((linesFrom next is).take dispatchWindow).any (·.name == "EQ") = true ↔
      ∃ j k, 0 < j ∧ j ≤ 0 + 3 ∧ (i :: is)[j]? = some k ∧ k.opcode = Opcode.eq := by
    have hnames : ((linesFrom next is).take dispatchWindow).any (·.name == "EQ") =
        ((is.take dispatchWindow).map Instruction.name).any (· == "EQ") := by
      rw [List.map_take, ← map_name_linesFrom next is, ← List.map_take, List.any_map]
      rfl
    rw [hnames]
    simp only [List.any_map, List.any_eq_true, Function.comp_apply, beq_iff_eq,
      Instruction.name_eq_eq_iff, List.mem_take_iff_getElem, dispatchWindow]
    constructor
    · rintro ⟨k, ⟨j, hj, rfl⟩, hk⟩
      exact ⟨j + 1, is[j], by omega, by omega, by simp, hk⟩
    · rintro ⟨j, k, hpos, hle, hget, hk⟩
      obtain ⟨j, rfl⟩ := Nat.exists_eq_succ_of_ne_zero hpos.ne'
      obtain ⟨hj, rfl⟩ := List.getElem?_eq_some_iff.mp (by simpa using hget)
      exact ⟨is[j], ⟨j, by omega, rfl⟩, hk⟩
  rw [isDispatch, Bool.and_eq_true, Bool.and_eq_true, hnear, beq_iff_eq, beq_iff_eq,
    Instruction.name_eq_push4_iff, Hex.length_encode]
  constructor
  · rintro ⟨⟨⟨hop, -⟩, hlength⟩, hcompare⟩
    exact ⟨i.operand, by rw [← hop]; rfl, by omega, rfl, hcompare⟩
  · rintro ⟨operand, hi, hlength, -, hcompare⟩
    obtain rfl : i = ⟨Opcode.push4, operand⟩ := by simpa using hi
    have hdigits : 2 * operand.length = 8 := by omega
    exact ⟨⟨⟨rfl, hlength.ge⟩, hdigits⟩, hcompare⟩

theorem dispatches_zero_iff (i : Instruction) (is : List Instruction) (s : String) :
    Dispatches (i :: is) 0 s ↔
      Dispatches (i :: is) 0 (Hex.encode i.operand) ∧ s = Hex.encode i.operand := by
  constructor
  · rintro ⟨operand, hi, hlength, rfl, hcompare⟩
    obtain rfl : i = ⟨Opcode.push4, operand⟩ := by simpa using hi
    exact ⟨⟨operand, hi, hlength, rfl, hcompare⟩, rfl⟩
  · rintro ⟨h, rfl⟩
    exact h

theorem dispatches_succ_iff (i : Instruction) (is : List Instruction) (n : Nat) (s : String) :
    Dispatches (i :: is) (n + 1) s ↔ Dispatches is n s := by
  have hnear : (∃ j k, n + 1 < j ∧ j ≤ n + 1 + 3 ∧ (i :: is)[j]? = some k ∧ k.opcode = Opcode.eq) ↔
      ∃ j k, n < j ∧ j ≤ n + 3 ∧ is[j]? = some k ∧ k.opcode = Opcode.eq := by
    constructor
    · rintro ⟨j, k, hlt, hle, hget, hk⟩
      obtain ⟨j, rfl⟩ := Nat.exists_eq_succ_of_ne_zero (Nat.ne_zero_of_lt hlt)
      exact ⟨j, k, by omega, by omega, by simpa using hget, hk⟩
    · rintro ⟨j, k, hlt, hle, hget, hk⟩
      exact ⟨j + 1, k, by omega, by omega, by simpa using hget, hk⟩
  simp only [Dispatches, List.getElem?_cons_succ, hnear]

theorem selectors_of_dispatches {i : Instruction} {is : List Instruction}
    (h : Dispatches (i :: is) 0 (Hex.encode i.operand)) (pc : Nat) :
    selectors (linesFrom pc (i :: is)) =
      Hex.encode i.operand ::
        (selectors (linesFrom (pc + i.size) is)).filter fun s => !s == Hex.encode i.operand := by
  rw [linesFrom_cons, selectors, dispatched, if_pos ((isDispatch_iff _ _ _ _).mpr h), eraseDups_cons,
    selectors]

theorem selectors_of_not_dispatches {i : Instruction} {is : List Instruction}
    (h : ¬Dispatches (i :: is) 0 (Hex.encode i.operand)) (pc : Nat) :
    selectors (linesFrom pc (i :: is)) = selectors (linesFrom (pc + i.size) is) := by
  rw [linesFrom_cons, selectors, dispatched, if_neg (mt (isDispatch_iff _ _ _ _).mp h), selectors]

/-- The selectors of a listing are what its instructions dispatch. -/
theorem inFirstOrder_selectors (pc : Nat) (is : List Instruction) :
    InFirstOrder (Dispatches is) (selectors (linesFrom pc is)) := by
  induction is generalizing pc with
  | nil => exact .nil (by simp [Dispatches])
  | cons i is ih =>
    by_cases hfirst : Dispatches (i :: is) 0 (Hex.encode i.operand)
    · rw [selectors_of_dispatches hfirst]
      refine (ih _).cons (fun s => ?_) (dispatches_succ_iff i is)
      rw [dispatches_zero_iff, and_iff_right hfirst]
    · rw [selectors_of_not_dispatches hfirst]
      refine (ih _).skip (fun s => ?_) (dispatches_succ_iff i is)
      rw [dispatches_zero_iff]
      exact fun h => hfirst h.1

theorem not_dispatches_of_ne_push4 {i : Instruction} (h : i.opcode ≠ Opcode.push4)
    (is : List Instruction) (s : String) : ¬Dispatches (i :: is) 0 s := by
  rintro ⟨operand, hi, -⟩
  obtain rfl : i = ⟨Opcode.push4, operand⟩ := by simpa using hi
  exact h rfl

/-- Instructions that push no four bytes have no selectors. -/
theorem exists_selectors_append {is : List Instruction} (h : ∀ i ∈ is, i.opcode ≠ Opcode.push4)
    (pc : Nat) (rest : List Instruction) :
    ∃ next, selectors (linesFrom pc (is ++ rest)) = selectors (linesFrom next rest) := by
  induction is generalizing pc with
  | nil => exact ⟨pc, rfl⟩
  | cons i is ih =>
    obtain ⟨hi, his⟩ := List.forall_mem_cons.mp h
    obtain ⟨next, hnext⟩ := ih his (pc + i.size)
    refine ⟨next, ?_⟩
    rw [List.cons_append, selectors_of_not_dispatches (not_dispatches_of_ne_push4 hi _ _), hnext]

/-! ### Code that ends with a whole instruction -/

theorem Starts.behind {op : UInt8} {code : Bytes} {pc : Nat}
    (h : Starts (code.drop (pushSize op)) pc) : Starts (op :: code) (1 + pushSize op + pc) := by
  induction h with
  | zero => simpa using Starts.next .zero (by rfl : (op :: code)[0]? = some op)
  | @next pc op' h hop ih =>
    have hop' : (op :: code)[1 + pushSize op + pc]? = some op' := by
      rw [Nat.add_assoc, Nat.add_comm 1, List.getElem?_cons_succ, ← List.getElem?_drop]
      exact hop
    simpa only [Nat.add_assoc] using ih.next hop'

/-- Behind a first instruction that is whole the code ends with a whole one too. -/
theorem EndsWhole.tail {op : UInt8} {code : Bytes} (h : EndsWhole (op :: code)) :
    pushSize op ≤ code.length ∧ EndsWhole (code.drop (pushSize op)) := by
  have hfits {pc : Nat} (hpc : Starts (code.drop (pushSize op)) pc) :
      1 + pushSize op + pc ≤ code.length + 1 := h _ hpc.behind
  have hfirst := hfits .zero
  refine ⟨by omega, fun pc hpc => ?_⟩
  have hnext := hfits hpc
  rw [List.length_drop]
  omega

theorem instructions_append {code : Bytes} (h : EndsWhole code) (rest : Bytes) :
    instructions (code ++ rest) = instructions code ++ instructions rest := by
  fun_induction instructions code with
  | case1 => simp
  | case2 op code ih =>
    obtain ⟨hfits, hbehind⟩ := h.tail
    rw [List.cons_append, instructions, List.take_append_of_le_length hfits,
      List.drop_append_of_le_length hfits, ih hbehind, List.cons_append]

/-- Code that is put together from whole instructions is taken apart into them. -/
theorem instructions_flatMap {is : List Instruction} (h : ∀ i ∈ is, i.operand.length = pushSize i.opcode)
    (rest : Bytes) : instructions (is.flatMap Instruction.bytes ++ rest) = is ++ instructions rest := by
  induction is with
  | nil => rfl
  | cons i is ih =>
    obtain ⟨hi, his⟩ := List.forall_mem_cons.mp h
    rw [List.flatMap_cons, List.append_assoc, Instruction.bytes, List.cons_append, instructions, ← hi,
      List.take_left, List.drop_left, ih his, List.cons_append]

/-! ### Dispatch tables -/

/-- A selector and the place that its function is at. -/
structure Row where
  selector : Vector UInt8 4
  target : Vector UInt8 2

namespace Row

/-- Goes to the target if what is on the stack is the selector. -/
def jump (r : Row) : List Instruction :=
  [⟨Opcode.eq, []⟩, ⟨Opcode.push2, r.target.toList⟩, ⟨Opcode.jumpi, []⟩]

def instructions (r : Row) : List Instruction :=
  ⟨Opcode.dup1, []⟩ :: ⟨Opcode.push4, r.selector.toList⟩ :: r.jump

def bytes (r : Row) : Bytes := r.instructions.flatMap Instruction.bytes

def text (r : Row) : String := Hex.encode r.selector.toList

theorem length_operand (r : Row) : ∀ i ∈ r.instructions, i.operand.length = pushSize i.opcode := by
  have hselector : r.selector.toList.length = pushSize Opcode.push4 := by simp; rfl
  have htarget : r.target.toList.length = pushSize Opcode.push2 := by simp; rfl
  simp [instructions, jump, hselector, htarget]
  decide

/-- A row adds its selector to those of what follows. -/
theorem exists_selectors_append (r : Row) (pc : Nat) (is : List Instruction) :
    ∃ next, selectors (linesFrom pc (r.instructions ++ is)) =
      r.text :: (selectors (linesFrom next is)).filter fun s => !s == r.text := by
  have hduplicate : (Opcode.dup1 : UInt8) ≠ Opcode.push4 := by decide
  have hjump : ∀ i ∈ r.jump, i.opcode ≠ Opcode.push4 := by
    simp only [jump, List.forall_mem_cons]
    exact ⟨by decide, by decide, by decide, by simp⟩
  have hpush : Dispatches (⟨Opcode.push4, r.selector.toList⟩ :: (r.jump ++ is)) 0 r.text :=
    ⟨r.selector.toList, rfl, by simp, rfl, 1, ⟨Opcode.eq, []⟩, by omega, by omega, rfl, rfl⟩
  obtain ⟨next, hnext⟩ := Evm.exists_selectors_append hjump
    (pc + Instruction.size ⟨Opcode.dup1, []⟩ +
      Instruction.size ⟨Opcode.push4, r.selector.toList⟩) is
  refine ⟨next, ?_⟩
  rw [instructions, List.cons_append, List.cons_append,
    selectors_of_not_dispatches (not_dispatches_of_ne_push4 hduplicate _ _),
    selectors_of_dispatches hpush, hnext]
  rfl

end Row

/-- The selectors of a table are found in its order. -/
theorem inFirstOrder_table (pc : Nat) (table : List Row) :
    InFirstOrder (fun i s => (table.map Row.text)[i]? = some s)
      (selectors (linesFrom pc (table.flatMap Row.instructions ++ [⟨Opcode.stop, []⟩]))) := by
  induction table generalizing pc with
  | nil =>
    have hstop : (Opcode.stop : UInt8) ≠ Opcode.push4 := by decide
    rw [List.flatMap_nil, List.nil_append,
      selectors_of_not_dispatches (not_dispatches_of_ne_push4 hstop _ _)]
    exact .nil (by simp)
  | cons r table ih =>
    obtain ⟨next, hnext⟩ :=
      r.exists_selectors_append pc (table.flatMap Row.instructions ++ [⟨Opcode.stop, []⟩])
    rw [List.flatMap_cons, List.append_assoc, hnext]
    exact (ih next).cons (by simp [eq_comm]) (by simp)

/-- Code that does something first, compares with the rows of a table one after the other, and stops. -/
def dispatcher (prologue : Bytes) (table : List Row) : Bytes :=
  prologue ++ table.flatMap Row.bytes ++ [Opcode.stop]

theorem instructions_dispatcher {prologue : Bytes} (h : EndsWhole prologue) (table : List Row) :
    instructions (dispatcher prologue table) =
      instructions prologue ++ (table.flatMap Row.instructions ++ [⟨Opcode.stop, []⟩]) := by
  have hwhole : ∀ i ∈ table.flatMap Row.instructions, i.operand.length = pushSize i.opcode := by
    intro i hi
    obtain ⟨r, -, hr⟩ := List.mem_flatMap.mp hi
    exact r.length_operand i hr
  have hbytes : table.flatMap Row.bytes = (table.flatMap Row.instructions).flatMap Instruction.bytes :=
    List.flatMap_assoc.symm
  have hstop : instructions [Opcode.stop] = [⟨Opcode.stop, []⟩] := by decide +kernel
  rw [dispatcher, List.append_assoc, instructions_append h, hbytes, instructions_flatMap hwhole, hstop]

theorem inFirstOrder_dispatcher {prologue : Bytes} (hprologue : EndsWhole prologue)
    (hpushes : ∀ i ∈ instructions prologue, i.opcode ≠ Opcode.push4) (table : List Row)
    (hbare : Trailer.IsBare (dispatcher prologue table)) :
    InFirstOrder (fun i s => (table.map Row.text)[i]? = some s)
      (selectors (listing (dispatcher prologue table))) := by
  obtain ⟨next, hnext⟩ := exists_selectors_append hpushes 0
    (table.flatMap Row.instructions ++ [⟨Opcode.stop, []⟩])
  have hcore : (Trailer.split (dispatcher prologue table)).core = dispatcher prologue table :=
    Trailer.strip_of_isBare hbare
  rw [listing, hcore, instructions_dispatcher hprologue, hnext]
  exact inFirstOrder_table next table

/-- The listing does not look at a trailer. -/
theorem listing_append_trailer {code t : Bytes} (hbare : Trailer.IsBare code)
    (ht : Trailer.IsTrailer t) : listing (code ++ t) = listing code := by
  have hcode : (Trailer.split code).core = code := Trailer.strip_of_isBare hbare
  have happend : (Trailer.split (code ++ t)).core = code := Trailer.strip_append ht
  rw [listing, listing, hcode, happend]

end Evm

/-! ### Accounts of a code -/

namespace Decompilation

theorem selector_ofSelector (s : String) : (Function.ofSelector s).selector = s := by
  unfold Function.ofSelector
  cases hfind : knownFunctions.find? (·.selector == s) with
  | none => rfl
  | some f => simpa using List.find?_some hfind

/-- The selectors that the functions of an account are given with. -/
def shownSelectors (d : Decompilation) : List (Option Document) :=
  d.abi.map fun f => f.at? ["selector"]

theorem shownSelectors_ofCode (code : Bytes) :
    (ofCode code).shownSelectors =
      (Evm.selectors (Evm.listing code)).map fun s => some (.text ("0x" ++ s)) := by
  have hshown (s : String) :
      (Function.ofSelector s).toDocument.at? ["selector"] = some (.text ("0x" ++ s)) := by
    conv_rhs => rw [← selector_ofSelector s]
    rfl
  simp only [shownSelectors, ofCode, List.map_map]
  exact List.map_congr_left fun s _ => hshown s

theorem ofCode_append_trailer {code t : Bytes} (hbare : Trailer.IsBare code)
    (ht : Trailer.IsTrailer t) : ofCode (code ++ t) = ofCode code := by
  simp only [ofCode, Evm.listing_append_trailer hbare ht]

open Evm in
/-- The selectors of any code are what its instructions, less the trailer, push four bytes of and compare
within the next three, each once and in the order in which this happens first. So those of a code that
compares with a table, after whole instructions none of which pushes four bytes, are the selectors of the
table in its order, and what is told of the code is the same with any trailer after it. -/
theorem selectors_recovered :
    (∀ code, InFirstOrder (Dispatches (instructions (Trailer.split code).core))
      (selectors (listing code))) ∧
    ∀ (prologue : Bytes) (table : List Row), EndsWhole prologue →
      (∀ i ∈ instructions prologue, i.opcode ≠ Opcode.push4) →
      Trailer.IsBare (dispatcher prologue table) →
      ∃ ss, InFirstOrder (fun i s => (table.map Row.text)[i]? = some s) ss ∧
        selectors (listing (dispatcher prologue table)) = ss ∧
        (ofCode (dispatcher prologue table)).shownSelectors = ss.map (some <| .text <| "0x" ++ ·) ∧
        ∀ t, Trailer.IsTrailer t →
          ofCode (dispatcher prologue table ++ t) = ofCode (dispatcher prologue table) := by
  refine ⟨fun code => inFirstOrder_selectors 0 _, ?_⟩
  intro prologue table hprologue hpushes hbare
  exact ⟨_, inFirstOrder_dispatcher hprologue hpushes table hbare, rfl, shownSelectors_ofCode _,
    fun t ht => ofCode_append_trailer hbare ht⟩

open Evm in
/-- The first selector is made of the opcodes of a comparison, and the last row has it again. -/
theorem selectors_recovered_twoFunctions :
    let prologue : Bytes := [0x60, 0x80]
    let table : List Row := [⟨#v[0x14, 0x63, 0x14, 0x63], #v[0x00, 0x63]⟩,
      ⟨#v[0xd0, 0x9d, 0xe0, 0x8a], #v[0x14, 0x14]⟩, ⟨#v[0x14, 0x63, 0x14, 0x63], #v[0x00, 0x70]⟩]
    let t : Bytes := [0xa1, 0x61, 0x61, 0x01, 0x00, 0x04]
    EndsWhole prologue ∧ Trailer.IsBare (dispatcher prologue table) ∧ Trailer.IsTrailer t ∧
      InFirstOrder (fun i s => (table.map Row.text)[i]? = some s) ["14631463", "d09de08a"] ∧
      selectors (listing (dispatcher prologue table)) = ["14631463", "d09de08a"] ∧
      ofCode (dispatcher prologue table ++ t) = ofCode (dispatcher prologue table) := by
  intro prologue table t
  have hwhole : EndsWhole prologue := by
    have hstarts (pc : Nat) (h : Starts prologue pc) : pc ∈ [0, 2] := by
      induction h with
      | zero => simp
      | next h hop ih =>
        simp only [List.mem_cons, List.not_mem_nil, or_false] at ih
        obtain rfl | rfl := ih
        · cases hop
          decide
        · cases hop
    intro pc h
    have hle : ∀ pc ∈ [0, 2], pc ≤ prologue.length := by decide
    exact hle pc (hstarts pc h)
  have hbare : Trailer.IsBare (dispatcher prologue table) :=
    Trailer.split_eq_self_iff.mp (by decide +kernel)
  have ht : Trailer.IsTrailer t := by
    have hsplit : Trailer.split t = ⟨[], t⟩ := by decide +kernel
    rcases Trailer.split_cases t with ⟨-, hnone⟩ | htrailer
    · rw [hsplit] at hnone
      exact absurd hnone (by decide)
    · rwa [hsplit] at htrailer
  obtain ⟨ss, horder, hselectors, -, htrailed⟩ :=
    selectors_recovered.2 prologue table hwhole (by decide +kernel) hbare
  have hfound : selectors (listing (dispatcher prologue table)) = ["14631463", "d09de08a"] := by
    decide +kernel
  obtain rfl : ss = ["14631463", "d09de08a"] := hselectors.symm.trans hfound
  exact ⟨hwhole, hbare, ht, horder, hfound, htrailed t ht⟩

end Decompilation

end Attest
