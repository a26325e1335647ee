import Attest.Proofs.MatchedEntries
import Attest.Proofs.SurveyEntries

/-! # What absent verdicts mean

A verdict is absent where there was nothing to compare. In an entry without an error this is because the
node answered, and its answer was that there is nothing: failures of all kinds leave an error. -/

namespace Attest

/-! ## Comparisons -/

namespace Matching

theorem byCores_ne_absent (a b : Bytes) : byCores a b ≠ some .absent := by
  intro h
  unfold byCores at h
  dsimp only at h
  split at h
  · split at h <;> cases h
  · cases h

/-- Code is absent only if it has no bytes. -/
theorem runtime_ne_absent {compiled onchain : Bytes} {immutables : List Immutable}
    (h : onchain ≠ []) : runtime compiled onchain immutables ≠ .ok .absent := by
  intro habsent
  unfold runtime at habsent
  rw [if_neg (by simpa using h)] at habsent
  split at habsent
  · cases habsent
  split at habsent
  · cases habsent
  split at habsent
  · rename_i v hcores
    cases habsent
    exact byCores_ne_absent _ _ hcores
  split at habsent
  · cases habsent
  obtain ⟨a, _, habsent⟩ := Except.bind_eq_ok_iff.mp habsent
  obtain ⟨b, _, habsent⟩ := Except.bind_eq_ok_iff.mp habsent
  split at habsent
  · cases habsent
  · cases hcores : byCores a b with
    | none =>
      rw [hcores] at habsent
      cases habsent
    | some v =>
      rw [hcores] at habsent
      cases habsent
      exact byCores_ne_absent _ _ hcores

/-- A creation is absent only if its input has no bytes. -/
theorem creation_ne_absent {compiled onchain : Bytes} {parameters : Option (List Document)}
    (h : onchain ≠ []) : creation compiled onchain parameters ≠ .ok .absent := by
  intro habsent
  unfold creation at habsent
  rw [if_neg (by simpa using h)] at habsent
  split at habsent
  · cases habsent
  split at habsent
  · cases habsent
  split at habsent
  · cases habsent
  dsimp only at habsent
  split at habsent
  · cases habsent
  · rename_i v hv
    obtain ⟨_, _, habsent⟩ := Except.bind_eq_ok_iff.mp habsent
    cases habsent
    split at hv
    · cases hv
    · exact byCores_ne_absent _ _ hv

end Matching

namespace Chain

namespace Comparison

variable {artifact : Artifact} {side : Verdict × List String}

theorem side_ne_absent {name : String} {r : Except Obstacle Verdict}
    (h : r ≠ .ok .absent) (hside : Comparison.side name r = .ok side) : side.1 ≠ .absent := by
  cases r with
  | ok v =>
    cases hside
    exact fun habsent => h (congrArg Except.ok habsent)
  | error obstacle =>
    cases obstacle with
    | inconsistent cause =>
      cases hside
      simp
    | defect d => cases hside

theorem runtimeSide_absent_iff {bytes : Bytes}
    (h : runtimeSide artifact (.ofBytes bytes) = .ok side) : side.1 = .absent ↔ bytes = [] := by
  cases bytes with
  | nil =>
    cases h
    simp
  | cons b bytes =>
    obtain ⟨immutables, _, hside⟩ := Except.bind_eq_ok_iff.mp h
    have hne := side_ne_absent (Matching.runtime_ne_absent (List.cons_ne_nil b bytes)) hside
    simp [hne]

theorem creationSide_absent_iff {input : Bytes}
    (h : creationSide artifact (some input) = .ok side) : side.1 = .absent ↔ input = [] := by
  obtain ⟨parameters, _, hside⟩ := Except.bind_eq_ok_iff.mp h
  cases input with
  | nil =>
    cases hside
    simp
  | cons b input =>
    have hne := side_ne_absent (Matching.creation_ne_absent (List.cons_ne_nil b input)) hside
    simp [hne]

end Comparison

/-! ## Entries -/

namespace Investigation

variable {url : String} {s : Subject} {artifact : Artifact} {es : List Exchange}

/-- All that was asked about a subject was answered: the code is known, and so is the creation code if
a transaction is given. -/
structure Answered (url : String) (s : Subject) (es : List Exchange) : Prop where
  code : ∃ o, Node.finalCode url es = some o
  creation : ∀ hash, s.creationTransaction = some hash →
    ∃ i, Node.finalCreation url hash es = some i

/-- An entry holds an error unless all was answered, and then an absent verdict means an empty answer. -/
structure Vouches (url : String) (s : Subject) (e : Entry) (es : List Exchange) : Prop where
  error : e.error = none ↔ Answered url s es
  runtime : e.error = none → (e.runtime = .absent ↔ Node.finalCode url es = some [])
  creation : e.error = none → ∀ hash, s.creationTransaction = some hash →
    (e.creation = .absent ↔ Node.finalCreation url hash es = some [])

theorem errorText_eq_none_iff {found : Findings} :
    errorText found = none ↔ found.code.reason? = none ∧ found.creationError = none := by
  rw [errorText]
  cases found.code.reason? <;> cases found.creationError <;> simp

theorem Informs.errorText_iff {found : Findings} (h : Informs url s found es) :
    errorText found = none ↔ Answered url s es := by
  rw [errorText_eq_none_iff]
  constructor
  · rintro ⟨hcode, hcreation⟩
    constructor
    · rcases h.code with ⟨o, ho, _⟩ | ⟨_, reason, hfailed⟩
      · exact ⟨o, ho⟩
      · rw [hfailed] at hcode
        cases hcode
    · intro hash hhash
      rcases h.creation hash hhash with ⟨i, hi, _⟩ | ⟨_, error, herror⟩
      · exact ⟨i, hi⟩
      · rw [herror] at hcreation
        cases hcreation
  · rintro ⟨⟨o, ho⟩, hcreation⟩
    constructor
    · rcases h.code with ⟨o', _, hcode⟩ | ⟨hnone, _⟩
      · rw [hcode, Code.ofBytes]
        split <;> rfl
      · rw [hnone] at ho
        cases ho
    · cases hhash : s.creationTransaction with
      | none => exact h.untold hhash
      | some hash =>
        obtain ⟨i, hi⟩ := hcreation hash hhash
        rcases h.creation hash hhash with ⟨_, _, _, hnone⟩ | ⟨hnone, _⟩
        · exact hnone
        · rw [hnone] at hi
          cases hi

theorem assess_vouches {chain : Int} {found : Findings} (hfound : Informs url s found es)
    {c : Comparison} {e : Entry} (h : assess chain (some artifact) found = .ok (c, e)) :
    Vouches url s e es := by
  obtain ⟨c', hmake, h⟩ := Except.bind_eq_ok_iff.mp h
  obtain ⟨fields, _, h⟩ := Except.bind_eq_ok_iff.mp h
  cases h
  obtain ⟨⟨_, hcreation⟩, _, hruntime⟩ := Comparison.make_sides hmake
  refine ⟨hfound.errorText_iff, fun hnone => ?_, fun hnone hash hhash => ?_⟩
  · obtain ⟨⟨o, ho⟩, _⟩ := hfound.errorText_iff.mp hnone
    rcases hfound.code with ⟨o', ho', hcode⟩ | ⟨hunknown, _⟩
    · rw [hcode] at hruntime
      rw [ho', Option.some_inj]
      exact Comparison.runtimeSide_absent_iff hruntime
    · rw [hunknown] at ho
      cases ho
  · obtain ⟨i, hi⟩ := (hfound.errorText_iff.mp hnone).creation hash hhash
    rcases hfound.creation hash hhash with ⟨i', hi', hinput, _⟩ | ⟨hunknown, _⟩
    · rw [hinput] at hcreation
      rw [hi', Option.some_inj]
      exact Comparison.creationSide_absent_iff hcreation
    · rw [hunknown] at hi
      cases hi

theorem Judges.vouches {chain : Int} {found : Findings} {e : Entry}
    (h : Judges chain (some artifact) found e) (hfound : Informs url s found es) :
    Vouches url s e es := by
  obtain ⟨c, assessed, hassess, hadded⟩ := h
  have hvouches := assess_vouches hfound hassess
  rcases hadded with rfl | ⟨_, _, _, rfl⟩
  · exact hvouches
  · exact ⟨hvouches.error, hvouches.runtime, hvouches.creation⟩

/-- The entry of a chain says no more and no less than its node did. -/
theorem investigate_vouches {engine : Engine} (hengine : engine.AsksNoNode) (f : Node.Fetcher)
    (hartifact : s.artifact = some artifact) :
    (investigate engine f s).Tells fun r es =>
      ∀ e, r = .ok e → Vouches f.endpoint.url s e es := by
  refine (investigate_judges hengine f s).imp fun r es h e he => ?_
  obtain ⟨found, hinforms, hjudges⟩ := h e he
  rw [hartifact] at hjudges
  exact hjudges.vouches hinforms

end Investigation

/-! ## Surveys -/

namespace Survey

open Investigation

variable {s : Settings} {engine : Engine} {subject : Subject} {artifact : Artifact}
  {chain : Document} {ids : List Int} {clock : Seconds} {deadline : Binary64} {outside : Outside}

theorem vouches_of_lookup (hengine : engine.AsksNoNode) (hartifact : subject.artifact = some artifact)
    {id : Int} {e : Endpoint} (he : s.endpoint? id = some e) {entry : Entry} {es : List Exchange}
    (h : (transcript s engine subject ids clock deadline outside).finished.lookup id =
      some (.ok entry, es)) : Vouches e.url subject entry es :=
  tells_of_lookup (fun e => investigate_vouches hengine (.ofSettings e s) hartifact) he h entry rfl

/-- What the node of a chain told, if the work on the chain came to its end in time, and to an entry. -/
def told (final : Schedule.State (Except Defect Entry × List Exchange)) (id : Int) :
    Option (List Exchange) :=
  match final.finished.lookup id with
  | some (.ok _, es) => some es
  | _ => none

/-- The entry of a chain that told nothing, for it was struck or broke down, holds an error. -/
theorem entryFor_vouches (hengine : engine.AsksNoNode) (hartifact : subject.artifact = some artifact)
    {e : Endpoint} (he : s.endpoint? e.chain = some e) (text : String) {entry : Entry}
    (hentry : entry = entryFor text
      (schedule s clock deadline outside (jobs s engine subject ids)).finished e.chain) :
    (told (transcript s engine subject ids clock deadline outside) e.chain = none ∧
        entry.error ≠ none) ∨
      ∃ es, told (transcript s engine subject ids clock deadline outside) e.chain = some es ∧
        Vouches e.url subject entry es := by
  rw [entryFor, lookup_transcript] at hentry
  rw [told]
  cases h : (transcript s engine subject ids clock deadline outside).finished.lookup e.chain with
  | none =>
    rw [h] at hentry
    rw [hentry]
    exact .inl ⟨rfl, by simp [Entry.cancelled, Entry.failed]⟩
  | some r =>
    obtain ⟨r, es⟩ := r
    rw [h] at hentry
    rw [hentry]
    cases r with
    | error d => exact .inl ⟨rfl, by simp [Entry.failed]⟩
    | ok result => exact .inr ⟨es, rfl, vouches_of_lookup hengine hartifact he h⟩

/-- An entry of a survey holds no error exactly when the work on its chain came to its end in time and
to an entry, and all that was asked was answered. Then its runtime is absent exactly when the node
answered with no code, and its creation exactly when the transaction that the node answered with is
mined and carries no creation code. -/
theorem absent_without_error (hengine : engine.AsksNoNode)
    (hartifact : subject.artifact = some artifact) (htargets : targets s chain = .ok ids)
    {result : Result} (hrun : run s engine subject chain clock deadline outside = .ok result) :
    ∀ entry ∈ result.entries, ∃ e ∈ s.chains, e.chain = entry.chain ∧
      (entry.error = none ↔
        ∃ es, told (transcript s engine subject ids clock deadline outside) e.chain = some es ∧
          Answered e.url subject es) ∧
      (entry.error = none →
        ∃ es, told (transcript s engine subject ids clock deadline outside) e.chain = some es ∧
          (entry.runtime = .absent ↔ Node.finalCode e.url es = some []) ∧
          ∀ hash, subject.creationTransaction = some hash →
            (entry.creation = .absent ↔ ∃ t, Node.finalTransaction e.url hash es = some t ∧
              t.block ≠ none ∧ Node.extractCreationCode t.recipient t.input = .ok [])) := by
  have hslots : 0 ≤ s.maxInFlight := by
    by_contra hnegative
    rw [run, htargets] at hrun
    simp only [bind, Except.bind, if_pos (Int.not_le.mp hnegative)] at hrun
    cases hrun
  rw [run_of_targets htargets hslots] at hrun
  cases hrun
  intro entry hentry
  obtain ⟨id, hid, rfl⟩ := List.mem_map.mp hentry
  obtain ⟨e, he⟩ := endpoint_of_targets htargets hid
  obtain ⟨hmem, rfl⟩ := Settings.endpoint?_mem he
  refine ⟨e, hmem, (chain_entryFor _ _).symm, ?_⟩
  rcases entryFor_vouches hengine hartifact he deadline.text rfl with
    ⟨htold, herror⟩ | ⟨es, htold, hvouches⟩
  · rw [htold]
    refine ⟨⟨fun h => absurd h herror, ?_⟩, fun h => absurd h herror⟩
    rintro ⟨es, hes, _⟩
    cases hes
  · rw [htold]
    refine ⟨?_, fun h => ⟨es, rfl, hvouches.runtime h, fun hash hhash => ?_⟩⟩
    · simpa using hvouches.error
    · rw [← Node.finalCreation_eq_some_iff]
      exact hvouches.creation h hash hhash

/-- A node that knows the creating transaction, which carried nothing, and knows of no code. -/
def bareNode : Outside where
  nodes := [("u1", [
    ⟨0, .answered 200 "" (.document (.object [("result", .text "0x")]))⟩,
    ⟨0, .answered 200 "" (.document (.object [("result",
      .object [("blockNumber", .text "0x1"), ("input", .text "0x")])]))⟩])]

/-- A contract that is nowhere but in its source, with a creating transaction. -/
def bareSubject : Subject :=
  ⟨"0x", some ⟨.contract ⟨"a.sol", "A"⟩, [0x60], [0x60], [], [], 0, .null⟩, some "0xab"⟩

def oneChain : Settings where
  chains := [⟨1, "mainnet", "u1"⟩]

theorem absent_without_error_bare :
    Engine.listing.AsksNoNode ∧ (∃ artifact, bareSubject.artifact = some artifact) ∧
      targets oneChain (.int 1) = .ok [1] ∧
      ∃ result, run oneChain .listing bareSubject (.int 1) 0 (.ofInt 300) bareNode = .ok result ∧
        result.entries.map (fun e => (e.runtime, e.creation, e.error)) =
          [(.absent, .absent, none)] ∧
        ∃ es, told (transcript oneChain .listing bareSubject [1] 0 (.ofInt 300) bareNode) 1 =
            some es ∧
          Node.finalCode "u1" es = some [] ∧
          ∃ t, Node.finalTransaction "u1" "0xab" es = some t ∧ t.block ≠ none ∧
            Node.extractCreationCode t.recipient t.input = .ok [] := by
  have hengine : Engine.listing.AsksNoNode := fun _ => rfl
  obtain ⟨result, hrun, hverdicts⟩ : ∃ result,
      run oneChain .listing bareSubject (.int 1) 0 (.ofInt 300) bareNode = .ok result ∧
        result.entries.map (fun e => (e.runtime, e.creation, e.error)) =
          [(.absent, .absent, none)] :=
    ⟨_, run_of_targets rfl (by decide), by decide +kernel⟩
  refine ⟨hengine, ⟨_, rfl⟩, rfl, result, hrun, hverdicts, ?_⟩
  obtain ⟨entry, hentries, hverdict⟩ := List.map_eq_singleton_iff.mp hverdicts
  simp only [Prod.mk.injEq] at hverdict
  obtain ⟨hruntime, hcreation, hnone⟩ := hverdict
  obtain ⟨e, he, _, _, habsent⟩ :=
    absent_without_error hengine rfl rfl hrun entry (by rw [hentries]; exact List.mem_singleton_self _)
  obtain rfl := List.mem_singleton.mp he
  obtain ⟨es, htold, hcode, hinput⟩ := habsent hnone
  exact ⟨es, htold, hcode.mp hruntime, (hinput "0xab" rfl).mp hcreation⟩

end Survey

end Chain

end Attest
