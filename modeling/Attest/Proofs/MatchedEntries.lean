import Attest.Proofs.CodeAnswer
import Attest.Proofs.SurveyTargets
import Attest.Report

/-! Which entries of a survey match: those of chains that came to their end in time, and whose final
answer for the code matches. -/

namespace Attest

namespace Chain.Survey

section Answers

variable {s : Settings} {name : Document} {engine : Engine} {subject : Subject}
  {artifact : Artifact} {ids : List Int} {clock : Seconds} {deadline : Binary64} {outside : Outside}

/-! ### Transcripts of a survey -/

/-- A survey that keeps what each node was asked and told. -/
def transcript (s : Settings) (engine : Engine) (subject : Subject) (ids : List Int)
    (clock : Seconds) (deadline : Binary64) (outside : Outside) :
    Schedule.State (Except Defect Entry × List Exchange) :=
  schedule s clock deadline outside ((jobs s engine subject ids).map Schedule.Job.transcribed)

theorem lookup_transcript (id : Int) :
    (schedule s clock deadline outside (jobs s engine subject ids)).finished.lookup id =
      ((transcript s engine subject ids clock deadline outside).finished.lookup id).map Prod.fst := by
  have hrun : (transcript s engine subject ids clock deadline outside).map Prod.fst =
      schedule s clock deadline outside (jobs s engine subject ids) :=
    Schedule.run_transcribed _ _ _ _ _ _
  rw [← hrun, Schedule.State.lookup_finished_map]

/-- What holds of the work on each chain and of what its node told holds in the transcript. -/
theorem tells_of_lookup {p : Endpoint → Except Defect Entry → List Exchange → Prop}
    (hwork : ∀ e, (Investigation.investigate engine (.ofSettings e s) subject).Tells (p e)) {id : Int}
    {e : Endpoint} (he : s.endpoint? id = some e) {r : Except Defect Entry} {es : List Exchange}
    (h : (transcript s engine subject ids clock deadline outside).finished.lookup id =
      some (r, es)) : p e r es := by
  refine Schedule.finished_all (p := fun id r => ∀ e, s.endpoint? id = some e → p e r.1 r.2) ?_
    (Schedule.mem_of_lookup_eq_some h) e he
  intro job hjob
  obtain ⟨plain, hplain, rfl⟩ := List.mem_map.mp hjob
  obtain ⟨id, _, e, he, rfl⟩ := mem_jobs.mp hplain
  refine ((hwork e).all []).imp ?_
  rintro r ⟨es, hes, hp⟩ e' he'
  obtain rfl : e = e' := Option.some_inj.mp (he.symm.trans he')
  rw [hes]
  exact hp

/-- Whatever a chain that came to its end was told, its entry accounts for it. -/
theorem accounts_of_lookup (hengine : Engine.ofName name = .ok engine)
    (hartifact : subject.artifact = some artifact) {id : Int} {e : Endpoint}
    (he : s.endpoint? id = some e)
    {entry : Entry} {es : List Exchange}
    (h : (transcript s engine subject ids clock deadline outside).finished.lookup id =
      some (.ok entry, es)) :
    Investigation.Accounts artifact id e.url entry es := by
  obtain ⟨_, rfl⟩ := Settings.endpoint?_mem he
  exact tells_of_lookup (fun e => Investigation.investigate_tells (Engine.asksNoNode_ofName hengine)
    (.ofSettings e s) hartifact) he h entry rfl

/-! ### Entries -/

/-- A chain came to its end in time and with an entry, and the final answer for its code matches. -/
def Matches (final : Schedule.State (Except Defect Entry × List Exchange)) (artifact : Artifact)
    (e : Endpoint) : Prop :=
  ∃ entry es, final.finished.lookup e.chain = some (.ok entry, es) ∧
    CodeMatches artifact e.url es

/-- What the entry of a chain, whether it came to its end or not, has to do with its transcript. -/
structure Reflects (final : Schedule.State (Except Defect Entry × List Exchange))
    (artifact : Artifact) (e : Endpoint) (entry : Entry) : Prop where
  chain : entry.chain = e.chain
  runtime : entry.runtime.isMatch = true ↔ Matches final artifact e
  decompilation : entry.runtime.isMatch = true → entry.decompilation = none

theorem Reflects.of_absent {final : Schedule.State (Except Defect Entry × List Exchange)}
    {e : Endpoint} {entry : Entry} (hchain : entry.chain = e.chain) (habsent : entry.runtime = .absent)
    (hnone : ∀ entry es, final.finished.lookup e.chain ≠ some (.ok entry, es)) :
    Reflects final artifact e entry := by
  have hmismatch : entry.runtime.isMatch ≠ true := by
    rw [habsent]
    exact Bool.false_ne_true
  refine ⟨hchain, ⟨fun h => absurd h hmismatch, ?_⟩, fun h => absurd h hmismatch⟩
  rintro ⟨entry, es, hlookup, _⟩
  exact absurd hlookup (hnone entry es)

theorem entryFor_reflects (hengine : Engine.ofName name = .ok engine)
    (hartifact : subject.artifact = some artifact) {e : Endpoint}
    (he : s.endpoint? e.chain = some e) (text : String) (spelling : Option Document) :
    Reflects (transcript s engine subject ids clock deadline outside) artifact e
      { entryFor text (schedule s clock deadline outside
          (jobs s engine subject ids)).finished e.chain with spelling } := by
  rw [entryFor, lookup_transcript]
  cases h : (transcript s engine subject ids clock deadline outside).finished.lookup e.chain with
  | none =>
    refine .of_absent rfl rfl fun entry es hlookup => ?_
    rw [h] at hlookup
    cases hlookup
  | some r =>
    obtain ⟨r, es⟩ := r
    cases r with
    | error d =>
      refine .of_absent rfl rfl fun entry es hlookup => ?_
      rw [h] at hlookup
      cases hlookup
    | ok entry =>
      have haccounts := accounts_of_lookup hengine hartifact he h
      refine ⟨haccounts.chain, haccounts.runtime.trans ?_, haccounts.decompilation⟩
      constructor
      · exact fun hmatch => ⟨entry, es, h, hmatch⟩
      · rintro ⟨entry', es', hlookup, hmatch⟩
        rw [h] at hlookup
        cases hlookup
        exact hmatch

theorem mem_entriesOf (hengine : Engine.ofName name = .ok engine)
    (hartifact : subject.artifact = some artifact)
    (hids : ∀ id ∈ ids, ∃ e, s.endpoint? id = some e) {text : String} {spelling : Option Document}
    {entry : Entry} (h : entry ∈ entriesOf text spelling ids
      (schedule s clock deadline outside (jobs s engine subject ids))) :
    ∃ e, s.endpoint? e.chain = some e ∧ e.chain ∈ ids ∧
      Reflects (transcript s engine subject ids clock deadline outside) artifact e entry := by
  obtain ⟨id, hid, rfl⟩ := List.mem_map.mp h
  obtain ⟨e, he⟩ := hids id hid
  obtain ⟨_, rfl⟩ := Settings.endpoint?_mem he
  exact ⟨e, he, hid, entryFor_reflects hengine hartifact he text spelling⟩

theorem map_chain_entriesOf (hengine : Engine.ofName name = .ok engine)
    (hartifact : subject.artifact = some artifact)
    (hids : ∀ id ∈ ids, ∃ e, s.endpoint? id = some e) (text : String) (spelling : Option Document) :
    (entriesOf text spelling ids
      (schedule s clock deadline outside (jobs s engine subject ids))).map (·.chain) = ids := by
  rw [entriesOf, List.map_map]
  conv_rhs => rw [← List.map_id ids]
  refine List.map_congr_left fun id hid => ?_
  obtain ⟨e, he⟩ := hids id hid
  obtain ⟨_, rfl⟩ := Settings.endpoint?_mem he
  exact (entryFor_reflects hengine hartifact he text spelling).chain

/-- All entries match when all chains do. -/
theorem all_entriesOf_iff (hengine : Engine.ofName name = .ok engine)
    (hartifact : subject.artifact = some artifact)
    (hids : ∀ id ∈ ids, ∃ e, s.endpoint? id = some e) (text : String) (spelling : Option Document) :
    (∀ entry ∈ entriesOf text spelling ids
      (schedule s clock deadline outside (jobs s engine subject ids)),
        entry.runtime.isMatch = true) ↔
      ∀ id ∈ ids, ∃ e, s.endpoint? id = some e ∧
        Matches (transcript s engine subject ids clock deadline outside) artifact e := by
  rw [entriesOf, List.forall_mem_map]
  refine forall_congr' fun id => forall_congr' fun hid => ?_
  obtain ⟨e, he⟩ := hids id hid
  obtain ⟨_, rfl⟩ := Settings.endpoint?_mem he
  refine (entryFor_reflects hengine hartifact he text spelling).runtime.trans ?_
  constructor
  · exact fun hmatch => ⟨e, he, hmatch⟩
  · rintro ⟨e', he', hmatch⟩
    obtain rfl : e = e' := Option.some_inj.mp (he.symm.trans he')
    exact hmatch

end Answers

end Chain.Survey

end Attest
