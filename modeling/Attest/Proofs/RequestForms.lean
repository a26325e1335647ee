import Attest.Proofs.Outcome
import Attest.Verifier
import Mathlib.Tactic.ByContra

/-! # The form of what a request asks for

A commit, an address and a transaction are hexadecimal digits, the last two after a mark. They are accepted
in either letter case and kept in lower case. One line feed after the digits is overlooked, and it is
kept. -/

namespace Attest

namespace Request

/-! ### Digits -/

/-- The hexadecimal digits in lower case. -/
def lowerDigits : List Char := "0123456789abcdef".toList

theorem toNat_lt_of_isHexDigit {c : Char} (h : isHexDigit c = true) : c.toNat < 128 := by
  simp only [isHexDigit, Char.isDigit, Bool.or_eq_true, Bool.and_eq_true, decide_eq_true_eq,
    Char.le_def, ge_iff_le, UInt32.le_iff_toNat_le] at h
  have hnine : ('9' : Char).val.toNat = 57 := rfl
  have hsmall : ('f' : Char).val.toNat = 102 := rfl
  have hlarge : ('F' : Char).val.toNat = 70 := rfl
  have hc : c.toNat = c.val.toNat := rfl
  omega

/-- A digit in either letter case is a digit in lower case once it is lowered. -/
theorem toLower_mem_lowerDigits {c : Char} (h : isHexDigit c = true) : c.toLower ∈ lowerDigits := by
  have hascii : ∀ n < 128,
      isHexDigit (Char.ofNat n) = true → (Char.ofNat n).toLower ∈ lowerDigits := by decide +kernel
  have hc := hascii c.toNat (toNat_lt_of_isHexDigit h)
  rw [Char.ofNat_toNat] at hc
  exact hc h

/-! ### Forms -/

/-- A mark, then so many hexadecimal digits in lower case, and nothing else. -/
def IsLowerHash (mark : List Char) (count : Nat) (s : String) : Prop :=
  ∃ ds, s.toList = mark ++ ds ∧ ds.length = count ∧ ∀ c ∈ ds, c ∈ lowerDigits

/-- What stands before the digits of an address and of a transaction. -/
def hexMark : List Char := ['0', 'x']

def IsCommit : String → Prop := IsLowerHash [] commitDigits

def IsAddress : String → Prop := IsLowerHash hexMark addressDigits

def IsTransaction : String → Prop := IsLowerHash hexMark transactionDigits

/-- A text of a form, or such a text and a line feed after it. -/
def UpToLineFeed (form : String → Prop) (s : String) : Prop :=
  form s ∨ ∃ t, form t ∧ s = t ++ "\n"

/-- How a text of a form is given: a mark, then so many hexadecimal digits in either letter case, and
either nothing or one line feed. -/
def Gives (mark : List Char) (count : Nat) (t : String) : Prop :=
  ∃ ds, (t.toList = mark ++ ds ∨ t.toList = mark ++ ds ++ ['\n']) ∧ ds.length = count ∧
    ∀ c ∈ ds, isHexDigit c = true

theorem isHash_iff (count : Nat) (cs : List Char) :
    isHash count cs = true ↔
      ∃ ds, (cs = ds ∨ cs = ds ++ ['\n']) ∧ ds.length = count ∧ ∀ c ∈ ds, isHexDigit c = true := by
  constructor
  · intro h
    simp only [isHash, Bool.and_eq_true, Bool.or_eq_true, decide_eq_true_eq, List.all_eq_true,
      List.isEmpty_iff, beq_iff_eq] at h
    obtain ⟨⟨hlength, hdigits⟩, hrest⟩ := h
    have hsplit := List.take_append_drop count cs
    refine ⟨cs.take count, ?_, List.length_take_of_le hlength, hdigits⟩
    rcases hrest with hrest | hrest
    · rw [hrest, List.append_nil] at hsplit
      exact .inl hsplit.symm
    · rw [hrest] at hsplit
      exact .inr hsplit.symm
  · rintro ⟨ds, rfl | rfl, rfl, hdigits⟩
    · simpa [isHash] using hdigits
    · simpa [isHash] using hdigits

theorem isHash_iff_gives (count : Nat) (t : String) :
    isHash count t.toList = true ↔ Gives [] count t :=
  isHash_iff count t.toList

theorem isPrefixedHash_iff_gives (count : Nat) (t : String) :
    isPrefixedHash count t.toList = true ↔ Gives hexMark count t := by
  unfold Gives
  constructor
  · intro h
    unfold isPrefixedHash at h
    split at h
    · rename_i cs hcs
      obtain ⟨ds, hds, hlength, hdigits⟩ := (isHash_iff count cs).mp h
      refine ⟨ds, ?_, hlength, hdigits⟩
      rcases hds with rfl | rfl
      · exact .inl hcs
      · exact .inr hcs
    · simp at h
  · rintro ⟨ds, hds | hds, hlength, hdigits⟩
    · rw [hds]
      exact (isHash_iff count ds).mpr ⟨ds, .inl rfl, hlength, hdigits⟩
    · rw [hds]
      exact (isHash_iff count _).mpr ⟨ds, .inr rfl, hlength, hdigits⟩

section

variable {mark : List Char} {count : Nat} {t : String}

theorem isLowerHash_lower (hmark : mark.map Char.toLower = mark) {ds : List Char}
    (ht : t.toList = mark ++ ds) (hlength : ds.length = count)
    (hdigits : ∀ c ∈ ds, isHexDigit c = true) : IsLowerHash mark count (lower t) := by
  refine ⟨ds.map Char.toLower, by simp [lower, ht, hmark], by simpa using hlength, ?_⟩
  intro c hc
  obtain ⟨d, hd, rfl⟩ := List.mem_map.mp hc
  exact toLower_mem_lowerDigits (hdigits d hd)

/-- What is given is of the form in lower case, but for a line feed at its end. -/
theorem Gives.upToLineFeed (h : Gives mark count t) (hmark : mark.map Char.toLower = mark) :
    UpToLineFeed (IsLowerHash mark count) (lower t) := by
  obtain ⟨ds, ht | ht, hlength, hdigits⟩ := h
  · exact .inl (isLowerHash_lower hmark ht hlength hdigits)
  · refine .inr ⟨lower (String.ofList (mark ++ ds)), ?_, ?_⟩
    · exact isLowerHash_lower hmark (by simp) hlength hdigits
    · apply String.toList_inj.mp
      simp [lower, ht]

/-- It is of the form itself exactly if there is no line feed in it. -/
theorem Gives.isLowerHash_iff (h : Gives mark count t) (hmark : mark.map Char.toLower = mark)
    (hplain : '\n' ∉ mark) : IsLowerHash mark count (lower t) ↔ '\n' ∉ t.toList := by
  constructor
  · rintro ⟨ds, hs, -, hdigits⟩ hfeed
    have hmem : '\n' ∈ (lower t).toList := by
      rw [lower, String.toList_map]
      exact List.mem_map.mpr ⟨'\n', hfeed, by decide⟩
    rw [hs, List.mem_append] at hmem
    rcases hmem with hmem | hmem
    · exact hplain hmem
    · exact absurd (hdigits _ hmem) (by decide)
  · intro hfeed
    obtain ⟨ds, ht | ht, hlength, hdigits⟩ := h
    · exact isLowerHash_lower hmark ht hlength hdigits
    · exact absurd (by simp [ht]) hfeed

end

/-! ### Fields -/

theorem readForm_eq_ok_iff (isForm : List Char → Bool) (fault : String → RequestFault) (d : Document)
    (s : String) :
    readForm isForm fault d = .ok s ↔ ∃ t, d = .text t ∧ isForm t.toList = true ∧ s = lower t := by
  cases d with
  | text t =>
    by_cases hform : isForm t.toList = true
    · simp [readForm, hform, eq_comm (b := s)]
    · simp [readForm, hform, refuse]
  | _ => simp [readForm]

theorem requireForm_eq_ok_iff {isForm : List Char → Bool} (hnil : isForm [] = false)
    (fault : String → RequestFault) (d : Document) (s : String) :
    requireForm isForm fault d = .ok s ↔
      ∃ t, d = .text t ∧ isForm t.toList = true ∧ s = lower t := by
  rw [← readForm_eq_ok_iff isForm fault, requireForm]
  split
  · rfl
  · rename_i hgiven
    have hnot : ¬readForm isForm fault d = .ok s := by
      intro h
      obtain ⟨t, rfl, hform, -⟩ := (readForm_eq_ok_iff isForm fault d s).mp h
      obtain rfl : t = "" := by simpa [Document.isGiven] using hgiven
      simp [hnil] at hform
    simp [refuse, hnot]

/-- A field holds a text that gives an identifier, which is read in lower case. -/
def Reads (mark : List Char) (count : Nat) (d : Document) (s : String) : Prop :=
  ∃ t, d = .text t ∧ Gives mark count t ∧ s = lower t

theorem readCommit_eq_ok_iff (d : Document) (s : String) :
    readCommit d = .ok s ↔ Reads [] commitDigits d s := by
  rw [readCommit, requireForm_eq_ok_iff rfl]
  simp only [Reads, isHash_iff_gives]

theorem readAddress_eq_ok_iff (d : Document) (s : String) :
    readAddress d = .ok s ↔ Reads hexMark addressDigits d s := by
  rw [readAddress, requireForm_eq_ok_iff rfl]
  simp only [Reads, isPrefixedHash_iff_gives]

theorem readTransaction_eq_ok_iff (d : Document) (o : Option String) :
    readTransaction d = .ok o ↔
      d = .null ∧ o = none ∨ ∃ s, Reads hexMark transactionDigits d s ∧ o = some s := by
  cases d with
  | null => simp [readTransaction, Reads, eq_comm (b := o)]
  | _ =>
    simp only [readTransaction, Except.map_eq_ok_iff, readForm_eq_ok_iff, isPrefixedHash_iff_gives]
    simp [Reads, eq_comm (b := o)]

theorem readContract_written {s : String} {c : Contract} (h : Contract.parse? s = some c) :
    readContract (.written s) = .ok (.contract c) := by
  simp [readContract, h]

theorem required_eq_ok_iff (fault : RequestFault) (d e : Document) :
    required fault d = .ok e ↔ d.isGiven = true ∧ e = d := by
  by_cases h : d.isGiven = true
  · simp [required, h, eq_comm (b := e)]
  · simp [required, h, refuse]

/-- A draft is accepted field by field. -/
theorem ofDraft_eq_ok_iff (d : Draft) (r : Request) :
    ofDraft d = .ok r ↔
      (d.repository.isGiven = true ∧ r.repository = d.repository) ∧
      readCommit d.commit = .ok r.commit ∧ readAddress d.address = .ok r.address ∧
      readTransaction d.creationTransaction = .ok r.creationTransaction ∧
      (d.profile.isGiven = true ∧ r.profile = d.profile) ∧
      readContract d.contract = .ok r.contract ∧ r.chain = d.chain := by
  simp only [ofDraft, Except.bind_eq_ok_iff, required_eq_ok_iff, pure, Except.pure, Except.ok.injEq]
  constructor
  · rintro ⟨_, ⟨hrepository, rfl⟩, c, hc, a, ha, t, ht, _, ⟨hprofile, rfl⟩, k, hk, rfl⟩
    exact ⟨⟨hrepository, rfl⟩, hc, ha, ht, ⟨hprofile, rfl⟩, hk, rfl⟩
  · rintro ⟨⟨hrepository, hr⟩, hc, ha, ht, ⟨hprofile, hp⟩, hk, hchain⟩
    refine ⟨_, ⟨hrepository, rfl⟩, _, hc, _, ha, _, ht, _, ⟨hprofile, rfl⟩, _, hk, ?_⟩
    cases r
    simp_all

/-! ### Line feeds -/

/-- A text with a line feed in it. -/
def HoldsLineFeed : Document → Prop
  | .text t => '\n' ∈ t.toList
  | _ => False

section

variable {mark : List Char} {count : Nat} {d : Document} {s : String}

theorem Reads.upToLineFeed (h : Reads mark count d s) (hmark : mark.map Char.toLower = mark) :
    UpToLineFeed (IsLowerHash mark count) s := by
  obtain ⟨t, -, hgives, rfl⟩ := h
  exact hgives.upToLineFeed hmark

theorem Reads.isLowerHash_iff (h : Reads mark count d s) (hmark : mark.map Char.toLower = mark)
    (hplain : '\n' ∉ mark) : IsLowerHash mark count s ↔ ¬HoldsLineFeed d := by
  obtain ⟨t, rfl, hgives, rfl⟩ := h
  exact hgives.isLowerHash_iff hmark hplain

end

theorem isTransaction_iff_of_readTransaction {d : Document} {o : Option String}
    (h : readTransaction d = .ok o) :
    (∀ t ∈ o, UpToLineFeed IsTransaction t) ∧ ((∀ t ∈ o, IsTransaction t) ↔ ¬HoldsLineFeed d) := by
  obtain ⟨rfl, rfl⟩ | ⟨s, hs, rfl⟩ := (readTransaction_eq_ok_iff d o).mp h
  · simp [HoldsLineFeed]
  · have hform : IsTransaction s ↔ ¬HoldsLineFeed d := hs.isLowerHash_iff rfl (by decide)
    have hfeed : UpToLineFeed IsTransaction s := hs.upToLineFeed rfl
    simp [hform, hfeed]

/-! ### What is accepted -/

/-- The identifiers of a request are of their forms, with no other character anywhere in them. -/
structure WellFormed (r : Request) : Prop where
  commit : IsCommit r.commit
  address : IsAddress r.address
  creationTransaction : ∀ t ∈ r.creationTransaction, IsTransaction t

/-- They are but for a line feed at the end of each. -/
structure NearlyFormed (r : Request) : Prop where
  commit : UpToLineFeed IsCommit r.commit
  address : UpToLineFeed IsAddress r.address
  creationTransaction : ∀ t ∈ r.creationTransaction, UpToLineFeed IsTransaction t

/-- A draft with everything that a request needs, its identifiers in either letter case. -/
structure IsComplete (d : Draft) : Prop where
  repository : d.repository.isGiven = true
  commit : ∃ s, Reads [] commitDigits d.commit s
  address : ∃ s, Reads hexMark addressDigits d.address s
  creationTransaction :
    d.creationTransaction = .null ∨ ∃ s, Reads hexMark transactionDigits d.creationTransaction s
  profile : d.profile.isGiven = true
  contract : ∃ c, readContract d.contract = .ok c

theorem exists_ofDraft_iff (d : Draft) : (∃ r, ofDraft d = .ok r) ↔ IsComplete d := by
  constructor
  · rintro ⟨r, h⟩
    obtain ⟨⟨hrepository, -⟩, hc, ha, ht, ⟨hprofile, -⟩, hk, -⟩ := (ofDraft_eq_ok_iff d r).mp h
    refine ⟨hrepository, ⟨_, (readCommit_eq_ok_iff _ _).mp hc⟩, ⟨_, (readAddress_eq_ok_iff _ _).mp ha⟩,
      ?_, hprofile, ⟨_, hk⟩⟩
    obtain ⟨hnull, -⟩ | ⟨s, hs, -⟩ := (readTransaction_eq_ok_iff _ _).mp ht
    · exact .inl hnull
    · exact .inr ⟨s, hs⟩
  · rintro ⟨hrepository, ⟨c, hc⟩, ⟨a, ha⟩, ht, hprofile, k, hk⟩
    obtain ⟨t, ht⟩ : ∃ t, readTransaction d.creationTransaction = .ok t := by
      obtain hnull | ⟨s, hs⟩ := ht
      · exact ⟨none, (readTransaction_eq_ok_iff _ _).mpr (.inl ⟨hnull, rfl⟩)⟩
      · exact ⟨some s, (readTransaction_eq_ok_iff _ _).mpr (.inr ⟨s, hs, rfl⟩)⟩
    exact ⟨⟨d.repository, c, k, a, t, d.profile, d.chain⟩, (ofDraft_eq_ok_iff _ _).mpr
      ⟨⟨hrepository, rfl⟩, (readCommit_eq_ok_iff _ _).mpr hc, (readAddress_eq_ok_iff _ _).mpr ha, ht,
        ⟨hprofile, rfl⟩, hk, rfl⟩⟩

theorem nearlyFormed_of_ofDraft {d : Draft} {r : Request} (h : ofDraft d = .ok r) : r.NearlyFormed := by
  obtain ⟨-, hc, ha, ht, -⟩ := (ofDraft_eq_ok_iff d r).mp h
  exact ⟨((readCommit_eq_ok_iff _ _).mp hc).upToLineFeed rfl,
    ((readAddress_eq_ok_iff _ _).mp ha).upToLineFeed rfl, (isTransaction_iff_of_readTransaction ht).1⟩

theorem wellFormed_iff_of_ofDraft {d : Draft} {r : Request} (h : ofDraft d = .ok r) :
    r.WellFormed ↔ ¬HoldsLineFeed d.commit ∧ ¬HoldsLineFeed d.address ∧
      ¬HoldsLineFeed d.creationTransaction := by
  obtain ⟨-, hc, ha, ht, -⟩ := (ofDraft_eq_ok_iff d r).mp h
  have hcommit : IsCommit r.commit ↔ ¬HoldsLineFeed d.commit :=
    ((readCommit_eq_ok_iff _ _).mp hc).isLowerHash_iff rfl (by simp)
  have haddress : IsAddress r.address ↔ ¬HoldsLineFeed d.address :=
    ((readAddress_eq_ok_iff _ _).mp ha).isLowerHash_iff rfl (by decide)
  rw [← hcommit, ← haddress, ← (isTransaction_iff_of_readTransaction ht).2]
  constructor
  · rintro ⟨hc, ha, ht⟩
    exact ⟨hc, ha, ht⟩
  · rintro ⟨hc, ha, ht⟩
    exact ⟨hc, ha, ht⟩

/-! ### Inspection -/

theorem address_of_conclude {request : Option Request} {address : String} {chains : List Int}
    {artifact : Option Artifact} {before : List Tool.Command}
    {survey : Except Refusal Chain.Survey.Result} {report : Report}
    (h : (Verifier.conclude request address chains artifact before survey).result = .ok report) :
    report.address = address := by
  unfold Verifier.conclude at h
  cases survey with
  | error f => cases h
  | ok s =>
    have hreport := Except.mapError_eq_ok_iff.mp h
    simp only [Report.assemble] at hreport
    split at hreport
    · cases hreport
      rfl
    · cases hreport

theorem inspect_of_readAddress_error (v : Verifier) {address : Document} (chain : Document)
    (world : World) {f : Refusal} (h : readAddress address = .error f) :
    v.inspect address chain world = ⟨.error (.ofRequest f), [], []⟩ := by
  simp only [Verifier.inspect, h]

theorem address_of_inspect {v : Verifier} {address chain : Document} {world : World} {s : String}
    {report : Report} (hread : readAddress address = .ok s)
    (h : (v.inspect address chain world).result = .ok report) : report.address = s := by
  simp only [Verifier.inspect, hread] at h
  split at h
  · cases h
  · exact address_of_conclude h

/-- What is accepted. A request comes of a draft exactly if the draft is complete; its identifiers then
are of their forms, but for a line feed at the end of each, and they are of their forms exactly if no line
feed was given. An inspection refuses an address before anything is done, or takes it and reports on
it under the same condition. -/
theorem accepted_forms (d : Draft) (address : Document) :
    ((∃ r, ofDraft d = .ok r) ↔ IsComplete d) ∧
    (∀ r, ofDraft d = .ok r →
      r.NearlyFormed ∧
      (r.WellFormed ↔ ¬HoldsLineFeed d.commit ∧ ¬HoldsLineFeed d.address ∧
        ¬HoldsLineFeed d.creationTransaction)) ∧
    ∀ (v : Verifier) (chain : Document) (world : World),
      (∃ f, v.inspect address chain world = ⟨.error (.ofRequest f), [], []⟩ ∧
        ¬∃ s, Reads hexMark addressDigits address s) ∨
      ∃ s, Reads hexMark addressDigits address s ∧ UpToLineFeed IsAddress s ∧
        (IsAddress s ↔ ¬HoldsLineFeed address) ∧
        ∀ report, (v.inspect address chain world).result = .ok report → report.address = s := by
  refine ⟨exists_ofDraft_iff d, ?_, ?_⟩
  · intro r h
    exact ⟨nearlyFormed_of_ofDraft h, wellFormed_iff_of_ofDraft h⟩
  · intro v chain world
    cases hread : readAddress address with
    | error f =>
      refine .inl ⟨f, inspect_of_readAddress_error v chain world hread, ?_⟩
      rintro ⟨s, hs⟩
      cases hread.symm.trans ((readAddress_eq_ok_iff address s).mpr hs)
    | ok s =>
      have hs := (readAddress_eq_ok_iff address s).mp hread
      exact .inr ⟨s, hs, hs.upToLineFeed rfl, hs.isLowerHash_iff rfl (by decide),
        fun report => address_of_inspect hread⟩

/-- Upper case is taken, and kept in lower case. -/
theorem accepted_forms_upperCase :
    let d : Draft := {
      repository := .text "https://github.com/example/counter"
      commit := .text "AAAAAAAAAAAAAAAAAAAAAAAAAAAAAAAAAAAAAAAA"
      contract := .written "src/Counter.sol:Counter"
      address := .text "0xAbAbAbAbAbAbAbAbAbAbAbAbAbAbAbAbAbAbAbAb" }
    ∃ r, ofDraft d = .ok r ∧ r.commit = "aaaaaaaaaaaaaaaaaaaaaaaaaaaaaaaaaaaaaaaa" ∧
      r.address = "0xabababababababababababababababababababab" ∧ r.WellFormed := by
  intro d
  obtain ⟨hcomplete, hforms, -⟩ := accepted_forms d .null
  obtain ⟨r, hr⟩ := hcomplete.mpr {
    repository := rfl
    commit := ⟨_, _, rfl, (isHash_iff_gives _ _).mp (by decide +kernel), rfl⟩
    address := ⟨_, _, rfl, (isPrefixedHash_iff_gives _ _).mp (by decide +kernel), rfl⟩
    creationTransaction := .inl rfl
    profile := rfl
    contract :=
      ⟨_, readContract_written (c := ⟨"src/Counter.sol", "Counter"⟩) (by decide +kernel)⟩ }
  obtain ⟨-, hcommit, haddress, -⟩ := (ofDraft_eq_ok_iff d r).mp hr
  refine ⟨r, hr, ?_, ?_, (hforms r hr).2.mpr ?_⟩
  · exact Except.ok.inj (hcommit.symm.trans (Except.eq_ok_of_toOption (by decide +kernel)))
  · exact Except.ok.inj (haddress.symm.trans (Except.eq_ok_of_toOption (by decide +kernel)))
  · simp [d, HoldsLineFeed]

/-- A commit that is followed by a line feed is taken with it. -/
theorem commit_keeps_lineFeed :
    let d : Draft := {
      repository := .text "https://github.com/example/counter"
      commit := .text "aaaaaaaaaaaaaaaaaaaaaaaaaaaaaaaaaaaaaaaa\n"
      contract := .written "src/Counter.sol:Counter"
      address := .text "0xabababababababababababababababababababab" }
    ∃ r, ofDraft d = .ok r ∧ r.commit = "aaaaaaaaaaaaaaaaaaaaaaaaaaaaaaaaaaaaaaaa\n" ∧
      ¬IsCommit r.commit := by
  intro d
  obtain ⟨r, hr⟩ := (exists_ofDraft_iff d).mpr {
    repository := rfl
    commit := ⟨_, _, rfl, (isHash_iff_gives _ _).mp (by decide +kernel), rfl⟩
    address := ⟨_, _, rfl, (isPrefixedHash_iff_gives _ _).mp (by decide +kernel), rfl⟩
    creationTransaction := .inl rfl
    profile := rfl
    contract :=
      ⟨_, readContract_written (c := ⟨"src/Counter.sol", "Counter"⟩) (by decide +kernel)⟩ }
  obtain ⟨-, hcommit, -⟩ := (ofDraft_eq_ok_iff d r).mp hr
  refine ⟨r, hr, ?_, fun hform => ?_⟩
  · exact Except.ok.inj (hcommit.symm.trans (Except.eq_ok_of_toOption (by decide +kernel)))
  · have hfeed := (((readCommit_eq_ok_iff _ _).mp hcommit).isLowerHash_iff rfl (by simp)).mp hform
    exact hfeed (by decide +kernel : '\n' ∈ "aaaaaaaaaaaaaaaaaaaaaaaaaaaaaaaaaaaaaaaa\n".toList)

end Request

end Attest
