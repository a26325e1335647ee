import Attest.Matching
import Attest.Node.Deployment

/-! # Routes of a deployment

Creation code is sent by itself, behind a salt to the proxy, or as an argument of a call to the factory.
Extraction gives back the code that was sent on each of these routes, so that the verdict does not depend
on the route. -/

namespace Attest

namespace Bytes

/-- A part in the middle is cut out by where it begins and how long it is. -/
theorem slice_middle (before part after : Bytes) {start count : Nat} (hstart : before.length = start)
    (hcount : part.length = count) : slice (before ++ (part ++ after)) start count = part := by
  subst start count
  simp [slice]

end Bytes

namespace Node

/-! ## Spellings of an address -/

/-- A text that is another one but for the case of letters: some may be in upper case. -/
def Spells (s t : String) : Prop :=
  s.toList.length = t.toList.length ∧
    ∀ p ∈ s.toList.zip t.toList, p.1 = p.2 ∨ p.1 = p.2.toUpper

instance (s t : String) : Decidable (Spells s t) :=
  decidable_of_iff (s.toList.length == t.toList.length &&
    (s.toList.zip t.toList).all fun p => p.1 == p.2 || p.1 == p.2.toUpper) (by simp [Spells])

/-- All letters of a text are in lower case, and come back to it from upper case. -/
def IsLower (t : String) : Prop := ∀ c ∈ t.toList, c.toLower = c ∧ c.toUpper.toLower = c

instance (t : String) : Decidable (IsLower t) :=
  decidable_of_iff (t.toList.all fun c => c.toLower == c && c.toUpper.toLower == c)
    (by simp [IsLower])

theorem map_toLower_of_spells {cs ds : List Char} (hlength : cs.length = ds.length)
    (hspells : ∀ p ∈ cs.zip ds, p.1 = p.2 ∨ p.1 = p.2.toUpper)
    (hlower : ∀ d ∈ ds, d.toLower = d ∧ d.toUpper.toLower = d) : cs.map Char.toLower = ds := by
  induction cs generalizing ds with
  | nil => exact (List.length_eq_zero_iff.mp hlength.symm).symm
  | cons c cs ih =>
    cases ds with
    | nil => simp at hlength
    | cons d ds =>
      have hrest : cs.map Char.toLower = ds := by
        apply ih (by simpa using hlength)
        · intro p hp
          exact hspells p (by simp [hp])
        · intro e he
          exact hlower e (by simp [he])
      have hd := hlower d (by simp)
      rcases hspells (c, d) (by simp) with hc | hc
      · simp only at hc
        simp [hrest, hc, hd.1]
      · simp only at hc
        simp [hrest, hc, hd.2]

theorem Spells.lower {s t : String} (h : Spells s t) (ht : IsLower t) : s.map Char.toLower = t := by
  apply String.toList_inj.mp
  rw [String.toList_map]
  exact map_toLower_of_spells h.1 h.2 ht

/-! ## Calls of the factory -/

/-- A number as a word of calldata. -/
def word (n : Nat) : Bytes := Bytes.ofNat wordSize n

@[simp] theorem length_word (n : Nat) : (word n).length = wordSize := Bytes.length_ofNat wordSize n

theorem toNat_word {n : Nat} (h : n < Nat.pow 2 256) : Bytes.toNat (word n) = n := by
  rw [word, Bytes.toNat_ofNat]
  exact Nat.mod_eq_of_lt h

/-- How many zeros fill up the last word of some bytes. -/
def fill (size : Nat) : Nat := (wordSize - size % wordSize) % wordSize

/-- Bytes in the tail of arguments: their number, themselves, and zeros up to the end of a word. -/
def encodeBytes (bs : Bytes) : Bytes := word bs.length ++ (bs ++ Bytes.zeros (fill bs.length))

/-- A call with a salt and code as arguments. The head holds the salt and says that the code's tail
begins where the head of two words ends. -/
def factoryCall (selector salt code : Bytes) : Bytes :=
  selector ++ (salt ++ (word (2 * wordSize) ++ encodeBytes code))

section FactoryCall

variable {selector salt code : Bytes}

theorem offset_factoryCall (hselector : selector.length = 4) (hsalt : salt.length = wordSize) :
    Bytes.toNat (Bytes.slice (factoryCall selector salt code) 36 32) = 64 := by
  have hslice : Bytes.slice (factoryCall selector salt code) 36 32 = word (2 * wordSize) := by
    rw [factoryCall, ← List.append_assoc]
    apply Bytes.slice_middle
    · simp [hselector, hsalt, wordSize]
    · simp [wordSize]
  rw [hslice, toNat_word]
  · rfl
  · decide

theorem length_slice_factoryCall (hselector : selector.length = 4)
    (hsalt : salt.length = wordSize) (hcode : code.length < Nat.pow 2 256) :
    Bytes.toNat (Bytes.slice (factoryCall selector salt code) 68 32) = code.length := by
  have hslice : Bytes.slice (factoryCall selector salt code) 68 32 = word code.length := by
    rw [factoryCall, encodeBytes, ← List.append_assoc, ← List.append_assoc]
    apply Bytes.slice_middle
    · simp [hselector, hsalt, wordSize]
    · simp [wordSize]
  rw [hslice, toNat_word hcode]

theorem code_slice_factoryCall (hselector : selector.length = 4) (hsalt : salt.length = wordSize) :
    Bytes.slice (factoryCall selector salt code) 100 code.length = code := by
  rw [factoryCall, encodeBytes, ← List.append_assoc, ← List.append_assoc, ← List.append_assoc]
  apply Bytes.slice_middle
  · simp [hselector, hsalt, wordSize]
  · rfl

theorem factoryCode?_factoryCall (hselector : selector.length = 4)
    (hsalt : salt.length = wordSize) (hcode : code.length < Nat.pow 2 256) :
    factoryCode? (factoryCall selector salt code) = some code := by
  have hlong : 100 ≤ (factoryCall selector salt code).length := by
    simp [factoryCall, encodeBytes, hselector, hsalt, wordSize]
    omega
  have hhead : ¬(factoryCall selector salt code).length < 68 := by omega
  have htail : ¬(factoryCall selector salt code).length < 4 + 64 + 32 := by omega
  simp only [factoryCode?, if_neg hhead, offset_factoryCall hselector hsalt, if_neg htail,
    length_slice_factoryCall hselector hsalt hcode, code_slice_factoryCall hselector hsalt,
    if_true]

end FactoryCall

/-- Where the calldata of a factory call says that the code's tail begins. -/
def announcedStart (input : Bytes) : Nat := 4 + Bytes.toNat (Bytes.slice input 36 wordSize)

/-- How long the calldata of a factory call says that the code is. -/
def announcedLength (input : Bytes) : Nat :=
  Bytes.toNat (Bytes.slice input (announcedStart input) wordSize)

/-- Code is found in calldata exactly when all that is announced lies within it, and then it is as long
as announced. -/
theorem factoryCode?_eq_some_iff {input code : Bytes} :
    factoryCode? input = some code ↔
      68 ≤ input.length ∧ announcedStart input + wordSize + announcedLength input ≤ input.length ∧
        code = Bytes.slice input (announcedStart input + wordSize) (announcedLength input) := by
  change (if input.length < 68 then none
    else if input.length < announcedStart input + wordSize then none
    else if (Bytes.slice input (announcedStart input + wordSize) (announcedLength input)).length =
        announcedLength input then
      some (Bytes.slice input (announcedStart input + wordSize) (announcedLength input))
    else none) = some code ↔ _
  have hlength := Bytes.length_slice input (announcedStart input + wordSize) (announcedLength input)
  by_cases hhead : input.length < 68
  · simp only [if_pos hhead]
    constructor
    · intro h
      cases h
    · rintro ⟨h, -⟩
      omega
  · by_cases htail : input.length < announcedStart input + wordSize
    · simp only [if_neg hhead, if_pos htail]
      constructor
      · intro h
        cases h
      · rintro ⟨-, h, -⟩
        omega
    · simp only [if_neg hhead, if_neg htail, hlength]
      constructor
      · intro h
        split at h
        · rename_i hfit
          exact ⟨by omega, by omega, (Option.some.inj h).symm⟩
        · cases h
      · rintro ⟨-, hfit, rfl⟩
        rw [if_pos (by omega)]

/-- What calldata of the factory comes to: the code that is announced, all of it, or else the calldata. -/
theorem factoryCode?_cases (input : Bytes) :
    (factoryCode? input).getD input = input ∨
      ∃ code, (factoryCode? input).getD input = code ∧ code.length = announcedLength input ∧
        code = Bytes.slice input (announcedStart input + wordSize) (announcedLength input) := by
  cases h : factoryCode? input with
  | none => exact .inl rfl
  | some code =>
    obtain ⟨-, hfit, rfl⟩ := factoryCode?_eq_some_iff.mp h
    refine .inr ⟨_, rfl, ?_, rfl⟩
    rw [Option.getD_some, Bytes.length_slice]
    omega

/-! ## Extraction -/

theorem extractCreationCode_proxy {proxy : String} (hproxy : Spells proxy deploymentProxy)
    {salt : Bytes} (hsalt : salt.length = wordSize) (code : Bytes) :
    extractCreationCode (.text proxy) (salt ++ code) = .ok code := by
  have hlower : proxy.map Char.toLower = deploymentProxy := hproxy.lower (by decide)
  rw [extractCreationCode, codeSentTo, hlower, if_pos rfl]
  exact congrArg Except.ok (List.drop_left' hsalt)

theorem extractCreationCode_factory {factory : String} (hfactory : Spells factory immutableFactory)
    (input : Bytes) :
    extractCreationCode (.text factory) input = .ok ((factoryCode? input).getD input) := by
  have hlower : factory.map Char.toLower = immutableFactory := hfactory.lower (by decide)
  have hne : immutableFactory ≠ deploymentProxy := by decide
  rw [extractCreationCode, codeSentTo, hlower, if_neg hne, if_pos rfl]

end Node

namespace Matching

open Node

/-- The verdict on the creation code that a transaction carries. -/
def sentCreation (compiled : Bytes) (parameters : Option (List Document)) (recipient : Document)
    (input : Bytes) : Except Obstacle Verdict := do
  creation compiled (← (extractCreationCode recipient input).mapError .defect) parameters

theorem sentCreation_of_extracted {recipient : Document} {input code : Bytes}
    (h : extractCreationCode recipient input = .ok code) (compiled : Bytes)
    (parameters : Option (List Document)) :
    sentCreation compiled parameters recipient input = creation compiled code parameters := by
  rw [sentCreation, h]
  rfl

/-- Creation code that is sent by itself, through the proxy or through the factory is extracted as it
was sent and gets the same verdict. Other calldata of the factory stands for itself, or for a part of it
that is as long as announced. -/
theorem creation_route_independent (compiled : Bytes) (parameters : Option (List Document))
    (code salt selector : Bytes) (proxy factory : String) (hcode : code.length < Nat.pow 2 256)
    (hsalt : salt.length = 32) (hselector : selector.length = 4)
    (hproxy : Spells proxy deploymentProxy) (hfactory : Spells factory immutableFactory) :
    (extractCreationCode .null code = .ok code ∧
      extractCreationCode (.text proxy) (salt ++ code) = .ok code ∧
      extractCreationCode (.text factory) (factoryCall selector salt code) = .ok code) ∧
    (sentCreation compiled parameters (.text proxy) (salt ++ code) =
        sentCreation compiled parameters .null code ∧
      sentCreation compiled parameters (.text factory) (factoryCall selector salt code) =
        sentCreation compiled parameters .null code) ∧
    ∀ input, extractCreationCode (.text factory) input = .ok input ∨
      ∃ sent, extractCreationCode (.text factory) input = .ok sent ∧
        sent.length = announcedLength input ∧
        sent = Bytes.slice input (announcedStart input + 32) (announcedLength input) := by
  have hnull : extractCreationCode .null code = .ok code := rfl
  have hthrough := extractCreationCode_proxy hproxy hsalt code
  have hcall : extractCreationCode (.text factory) (factoryCall selector salt code) = .ok code := by
    rw [extractCreationCode_factory hfactory, factoryCode?_factoryCall hselector hsalt hcode]
    rfl
  refine ⟨⟨hnull, hthrough, hcall⟩, ⟨?_, ?_⟩, fun input => ?_⟩
  · rw [sentCreation_of_extracted hthrough, sentCreation_of_extracted hnull]
  · rw [sentCreation_of_extracted hcall, sentCreation_of_extracted hnull]
  · rw [extractCreationCode_factory hfactory]
    rcases factoryCode?_cases input with h | ⟨sent, h, hlength, hslice⟩
    · exact .inl (congrArg Except.ok h)
    · exact .inr ⟨sent, congrArg Except.ok h, hlength, hslice⟩

/-- A salt no two bytes of which are the same. -/
def sampleSalt : Bytes := (List.range 32).map UInt8.ofNat

/-- The first instructions of most contracts. -/
def sampleCode : Bytes := [0x60, 0x80, 0x60, 0x40, 0x52]

/-- Some code behind a salt, and the two addresses as they are often written, with letters in either
case. -/
theorem creation_route_independent_mixed_case :
    sampleCode.length < Nat.pow 2 256 ∧ sampleSalt.length = 32 ∧
    ([0x64, 0xe0, 0x30, 0x87] : Bytes).length = 4 ∧
    Spells "0x4e59b44847b379578588920cA78FbF26c0B4956C" deploymentProxy ∧
    Spells "0x0000000000FFe8B47B3e2130213B802212439497" immutableFactory ∧
    (extractCreationCode .null sampleCode = .ok sampleCode ∧
      extractCreationCode (.text "0x4e59b44847b379578588920cA78FbF26c0B4956C")
        (sampleSalt ++ sampleCode) = .ok sampleCode ∧
      extractCreationCode (.text "0x0000000000FFe8B47B3e2130213B802212439497")
        (factoryCall [0x64, 0xe0, 0x30, 0x87] sampleSalt sampleCode) = .ok sampleCode) ∧
    (sentCreation sampleCode none (.text "0x4e59b44847b379578588920cA78FbF26c0B4956C")
        (sampleSalt ++ sampleCode) = sentCreation sampleCode none .null sampleCode ∧
      sentCreation sampleCode none (.text "0x0000000000FFe8B47B3e2130213B802212439497")
        (factoryCall [0x64, 0xe0, 0x30, 0x87] sampleSalt sampleCode) =
          sentCreation sampleCode none .null sampleCode) ∧
    ∀ input,
      extractCreationCode (.text "0x0000000000FFe8B47B3e2130213B802212439497") input = .ok input ∨
      ∃ sent, extractCreationCode (.text "0x0000000000FFe8B47B3e2130213B802212439497") input =
          .ok sent ∧
        sent.length = announcedLength input ∧
        sent = Bytes.slice input (announcedStart input + 32) (announcedLength input) :=
  ⟨by decide, by decide, by decide, by decide, by decide,
    creation_route_independent sampleCode none sampleCode sampleSalt [0x64, 0xe0, 0x30, 0x87]
      "0x4e59b44847b379578588920cA78FbF26c0B4956C" "0x0000000000FFe8B47B3e2130213B802212439497"
      (by decide) (by decide) (by decide) (by decide) (by decide)⟩

end Matching

end Attest
