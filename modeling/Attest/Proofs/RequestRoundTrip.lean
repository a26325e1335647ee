import Attest.Proofs.RequestForms
import Mathlib.Data.List.TakeWhile

/-! # Requests and their documents

The document of a request has the fields that the request came of, so a request that is made of its own
document is the same again: what was lowered stays as it is, what was left out is left out again, and the
contract's text is taken apart where it was put together, at its last colon. -/

namespace Attest

namespace Contract

/-! ### The last colon -/

/-- A path and a name that can be written with a colon between them and read again. -/
structure IsProper (c : Contract) : Prop where
  path : c.path ≠ ""
  name : c.name ≠ ""
  oneWord : ':' ∉ c.name.toList

/-- What has a colon is a path and a name around its last one. -/
theorem exists_text {s : String} (h : ':' ∈ s.toList) :
    ∃ path name, s = text ⟨path, name⟩ ∧ ':' ∉ name.toList := by
  obtain ⟨after, before, hreverse, hlast⟩ := List.eq_append_cons_of_mem (List.mem_reverse.mpr h)
  refine ⟨.ofList before.reverse, .ofList after.reverse, ?_, by simpa using hlast⟩
  have hs : s.toList = before.reverse ++ ':' :: after.reverse := by
    simpa using congrArg List.reverse hreverse
  apply String.toList_inj.mp
  simp [text, hs]

theorem splitLastColon_eq_none {s : String} (h : ':' ∉ s.toList) : splitLastColon s = none := by
  have hnone : s.toList.reverse.dropWhile (· ≠ ':') = [] := by
    rw [List.dropWhile_eq_nil_iff]
    intro c hc
    have hne : c ≠ ':' := fun e => h (e ▸ List.mem_reverse.mp hc)
    simpa using hne
  simp only [splitLastColon, hnone]

theorem parse?_text_of_oneWord (path : String) {name : String} (h : ':' ∉ name.toList) :
    parse? (text ⟨path, name⟩) =
      if path.isEmpty || name.isEmpty then none else some ⟨path, name⟩ := by
  rw [parse?, splitLastColon_text h]

theorem parse?_text {c : Contract} (h : c.IsProper) : parse? c.text = some c := by
  rw [parse?_text_of_oneWord c.path h.oneWord, if_neg]
  simp [h.path, h.name]

/-- A contract is read from its text only. -/
theorem parse?_eq_some_iff {s : String} {c : Contract} :
    parse? s = some c ↔ s = c.text ∧ c.IsProper := by
  constructor
  · intro h
    by_cases hcolon : ':' ∈ s.toList
    · obtain ⟨path, name, rfl, hname⟩ := exists_text hcolon
      rw [parse?_text_of_oneWord path hname] at h
      split at h
      · cases h
      · rename_i hgiven
        cases h
        simp only [Bool.or_eq_true, String.isEmpty_iff, not_or] at hgiven
        exact ⟨rfl, hgiven.1, hgiven.2, hname⟩
    · rw [parse?, splitLastColon_eq_none hcolon] at h
      cases h
  · rintro ⟨rfl, h⟩
    exact parse?_text h

/-- No contract is read where there is no colon, or nothing on one side of the last one. -/
theorem parse?_eq_none_iff {s : String} :
    parse? s = none ↔ ':' ∉ s.toList ∨
      ∃ path name, s = path ++ ":" ++ name ∧ ':' ∉ name.toList ∧ (path = "" ∨ name = "") := by
  constructor
  · intro h
    by_cases hcolon : ':' ∈ s.toList
    · obtain ⟨path, name, rfl, hname⟩ := exists_text hcolon
      refine .inr ⟨path, name, rfl, hname, ?_⟩
      rw [parse?_text_of_oneWord path hname] at h
      split at h
      · rename_i hempty
        simpa using hempty
      · cases h
    · exact .inl hcolon
  · rintro (hcolon | ⟨path, name, rfl, hname, hempty⟩)
    · rw [parse?, splitLastColon_eq_none hcolon]
    · refine (parse?_text_of_oneWord path hname).trans (if_pos ?_)
      simpa using hempty

end Contract

namespace Request

/-! ### Fields that are read again -/

section

variable {mark : List Char} {count : Nat} {d : Document} {s t : String}

/-- What was lowered is given as it is, and stays the same. -/
theorem Gives.lower (hmark : mark.map Char.toLower = mark) (h : Gives mark count t) :
    Gives mark count (lower t) ∧ Request.lower (Request.lower t) = Request.lower t := by
  obtain ⟨ds, ht, hlength, hdigits⟩ := h
  have hlowered : ∀ c ∈ ds.map Char.toLower, isHexDigit c = true ∧ c.toLower = c := by
    have hall : lowerDigits.all (fun c => isHexDigit c && c.toLower == c) = true := by decide
    intro c hc
    obtain ⟨d, hd, rfl⟩ := List.mem_map.mp hc
    simpa using List.all_eq_true.mp hall _ (toLower_mem_lowerDigits (hdigits d hd))
  have hagain : (ds.map Char.toLower).map Char.toLower = ds.map Char.toLower :=
    (List.map_congr_left fun c hc => (hlowered c hc).2).trans (List.map_id _)
  have hlower : (Request.lower t).toList = mark ++ ds.map Char.toLower ∨
      (Request.lower t).toList = mark ++ ds.map Char.toLower ++ ['\n'] := by
    rcases ht with ht | ht
    · exact .inl (by simp [Request.lower, ht, hmark])
    · exact .inr (by simp [Request.lower, ht, hmark])
  refine ⟨⟨_, hlower, by simpa using hlength, fun c hc => (hlowered c hc).1⟩, ?_⟩
  apply String.toList_inj.mp
  rw [Request.lower, String.toList_map]
  rcases hlower with hlower | hlower
  · rw [hlower, List.map_append, hmark, hagain]
  · rw [hlower, List.map_append, List.map_append, hmark, hagain]
    rfl

theorem Reads.again (hmark : mark.map Char.toLower = mark) (h : Reads mark count d s) :
    Reads mark count (.text s) s := by
  obtain ⟨t, -, hgives, rfl⟩ := h
  obtain ⟨hlower, hsame⟩ := hgives.lower hmark
  exact ⟨_, rfl, hlower, hsame.symm⟩

end

theorem readCommit_again {d : Document} {s : String} (h : readCommit d = .ok s) :
    readCommit (.text s) = .ok s :=
  (readCommit_eq_ok_iff _ _).mpr (((readCommit_eq_ok_iff _ _).mp h).again rfl)

theorem readAddress_again {d : Document} {s : String} (h : readAddress d = .ok s) :
    readAddress (.text s) = .ok s :=
  (readAddress_eq_ok_iff _ _).mpr (((readAddress_eq_ok_iff _ _).mp h).again rfl)

theorem readTransaction_again {d : Document} {o : Option String} (h : readTransaction d = .ok o) :
    readTransaction (.ofOption .text o) = .ok o := by
  obtain ⟨-, rfl⟩ | ⟨s, hs, rfl⟩ := (readTransaction_eq_ok_iff _ _).mp h
  · rfl
  · exact (readTransaction_eq_ok_iff _ _).mpr (.inr ⟨s, hs.again rfl, rfl⟩)

theorem readContract_again {s : String} {c : ContractReference}
    (h : readContract (.written s) = .ok c) : readContract (.written c.text) = .ok c := by
  cases hparse : Contract.parse? s with
  | none =>
    rw [readContract, hparse] at h
    cases h
  | some k =>
    rw [readContract_written hparse] at h
    cases h
    exact readContract_written (Contract.parse?_text (Contract.parse?_eq_some_iff.mp hparse).2)

/-! ### Requests -/

/-- The draft that a request's document gives. -/
def toDraft (r : Request) : Draft where
  repository := r.repository
  commit := .text r.commit
  contract := .written r.contract.text
  address := .text r.address
  creationTransaction := .ofOption .text r.creationTransaction
  profile := r.profile
  chain := r.chain

theorem exists_ofMembers (r : Request) :
    ∃ ms, r.toDocument = .object ms ∧ Draft.ofMembers ms = .ok r.toDraft :=
  ⟨_, rfl, rfl⟩

theorem ofDraft_toDraft {d : Draft} {r : Request} {s : String} (hs : d.contract = .written s)
    (h : ofDraft d = .ok r) : ofDraft r.toDraft = .ok r := by
  obtain ⟨⟨hrepository, hr⟩, hc, ha, ht, ⟨hprofile, hp⟩, hk, -⟩ := (ofDraft_eq_ok_iff d r).mp h
  rw [hs] at hk
  refine (ofDraft_eq_ok_iff _ r).mpr ⟨⟨?_, rfl⟩, readCommit_again hc, readAddress_again ha,
    readTransaction_again ht, ⟨?_, rfl⟩, readContract_again hk, rfl⟩
  · rwa [← hr] at hrepository
  · rwa [← hp] at hprofile

/-- A request whose contract was given as text is accepted again, and is the same, when it is made of the
fields of its document. The text of a contract is read as that contract if neither side of the colon is
empty and the name has no colon; a contract is read from no other text than its own; and none is read
exactly from a text without a colon or with nothing on one side of the last one. -/
theorem request_roundTrip :
    (∀ (d : Draft) (s : String) (r : Request), d.contract = .written s → ofDraft d = .ok r →
      ∃ ms d', r.toDocument = .object ms ∧ Draft.ofMembers ms = .ok d' ∧ ofDraft d' = .ok r) ∧
    (∀ c : Contract, c.path ≠ "" → c.name ≠ "" → ':' ∉ c.name.toList →
      Contract.parse? c.text = some c) ∧
    (∀ (s : String) (c : Contract), Contract.parse? s = some c → c.text = s) ∧
    ∀ s : String, Contract.parse? s = none ↔ ':' ∉ s.toList ∨
      ∃ path name, s = path ++ ":" ++ name ∧ ':' ∉ name.toList ∧ (path = "" ∨ name = "") := by
  refine ⟨?_, fun c hpath hname hword => Contract.parse?_text ⟨hpath, hname, hword⟩,
    fun s c h => (Contract.parse?_eq_some_iff.mp h).1.symm, fun s => Contract.parse?_eq_none_iff⟩
  intro d s r hs h
  obtain ⟨ms, hdocument, hms⟩ := r.exists_ofMembers
  exact ⟨ms, _, hdocument, hms, ofDraft_toDraft hs h⟩

/-- Upper case, a transaction, and a path that has a colon in it. -/
theorem request_roundTrip_upperCase :
    let d : Draft := {
      repository := .text "https://github.com/example/counter"
      commit := .text "AAAAAAAAAAAAAAAAAAAAAAAAAAAAAAAAAAAAAAAA"
      contract := .written "src:old/Counter.sol:Counter"
      address := .text "0xAbAbAbAbAbAbAbAbAbAbAbAbAbAbAbAbAbAbAbAb"
      creationTransaction :=
        .text "0xCdCdCdCdCdCdCdCdCdCdCdCdCdCdCdCdCdCdCdCdCdCdCdCdCdCdCdCdCdCdCdCd" }
    ∃ r ms d', ofDraft d = .ok r ∧ r.contract = .contract ⟨"src:old/Counter.sol", "Counter"⟩ ∧
      r.toDocument = .object ms ∧ Draft.ofMembers ms = .ok d' ∧ ofDraft d' = .ok r := by
  intro d
  have hcontract : Contract.parse? "src:old/Counter.sol:Counter" =
      some ⟨"src:old/Counter.sol", "Counter"⟩ := by decide +kernel
  obtain ⟨r, hr⟩ := (exists_ofDraft_iff d).mpr {
    repository := rfl
    commit := ⟨_, _, rfl, (isHash_iff_gives _ _).mp (by decide +kernel), rfl⟩
    address := ⟨_, _, rfl, (isPrefixedHash_iff_gives _ _).mp (by decide +kernel), rfl⟩
    creationTransaction := .inr ⟨_, _, rfl, (isPrefixedHash_iff_gives _ _).mp (by decide +kernel), rfl⟩
    profile := rfl
    contract := ⟨_, readContract_written hcontract⟩ }
  obtain ⟨ms, d', hdocument, hms, hd'⟩ := request_roundTrip.1 d _ r rfl hr
  obtain ⟨-, -, -, -, -, hk, -⟩ := (ofDraft_eq_ok_iff d r).mp hr
  exact ⟨r, ms, d', hr, Except.ok.inj (hk.symm.trans (readContract_written hcontract)), hdocument, hms,
    hd'⟩

end Request

end Attest
