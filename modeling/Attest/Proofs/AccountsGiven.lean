import Attest.Proofs.SurveyEntries
import Attest.Proofs.Timeless
import Attest.Proofs.TrailerSplit
import Attest.Proofs.TransactionAnswers

/-! # When code is decompiled, and what else an entry tells

The entry of a chain whose work came to its end is settled by what the node finally answered: there is
an account of the code, or a note on why there is none, just if there is code and neither side matched;
only a trailer gives metadata; and what keeps a side from being compared is noted on that side. -/

namespace Attest

namespace Activity

/-- What holds of all that may come of an activity holds of what some turns lead it to. -/
theorem Tells.of_leads {p : α → List Exchange → Prop} {x : Activity α} (hx : x.Tells p)
    {turns : List Turn} {a : α} (h : x.Leads turns a) :
    p a (turns.flatMap fun t => t.wait.exchanges t.answer) := by
  induction h generalizing p with
  | done a => exact hx
  | mark h ih => exact ih hx
  | time now h ih => exact ih (hx now)
  | wait answer h ih => exact ih (hx answer)

end Activity

namespace Chain.Investigation

/-- What a node was asked and told in some turns. -/
def exchangesOf (turns : List Turn) : List Exchange :=
  turns.flatMap fun t => t.wait.exchanges t.answer

/-- The node finally answered with this code, and it is not empty. -/
def Fetched (url : String) (es : List Exchange) (code : Bytes) : Prop :=
  Node.finalCode url es = some code ∧ code ≠ []

/-- The creation code that the node finally told, if it was asked for. -/
def toldCreation (url : String) (s : Subject) (es : List Exchange) : Option Bytes :=
  s.creationTransaction.bind fun hash => Node.finalCreation url hash es

/-- What keeps the creation code from being compared. -/
inductive CreationClash (url : String) (s : Subject) (es : List Exchange) (cause : Inconsistency) :
    Prop where
  | intro {artifact : Artifact} {input : Bytes} {parameters : Option (List Document)}
      (hartifact : s.artifact = some artifact) (hinput : toldCreation url s es = some input)
      (hparameters : artifact.constructorInputs = .ok parameters)
      (h : Matching.creation artifact.creationCode input parameters =
        .error (.inconsistent cause)) : CreationClash url s es cause

/-- What keeps the runtime code from being compared. -/
inductive RuntimeClash (url : String) (s : Subject) (es : List Exchange) (cause : Inconsistency) :
    Prop where
  | intro {artifact : Artifact} {code : Bytes} {immutables : List Immutable}
      (hartifact : s.artifact = some artifact) (hcode : Fetched url es code)
      (himmutables : artifact.immutableMap = .ok immutables)
      (h : Matching.runtime artifact.runtimeCode code immutables =
        .error (.inconsistent cause)) : RuntimeClash url s es cause

/-- There is code, and neither side of it matched. -/
def Unmatched (url : String) (es : List Exchange) (e : Entry) : Prop :=
  (∃ code, Fetched url es code) ∧ e.creation.isMatch = false ∧ e.runtime.isMatch = false

/-- How a side is told of: what keeps it from being compared makes it different, and is its one note. -/
structure Noted (side : String) (clash : Inconsistency → Prop) (v : Verdict × List String) :
    Prop where
  different : ∀ cause, clash cause → v = (.different, [side ++ ": " ++ cause.message])
  silent : (∀ cause, ¬clash cause) → v.2 = []

/-- What an entry tells, as the answers in the turns that led to it have it. -/
structure Described (f : Node.Fetcher) (s : Subject) (turns : List Turn) (e : Entry) : Prop where
  /-- Code that matched nothing is decompiled, or it is noted why not. -/
  account : Unmatched f.endpoint.url (exchangesOf turns) e →
    e.decompilation ≠ none ∨ e.notesOn "decompilation" ≠ []
  /-- Nothing else is, and no engine has any part in the entry. -/
  noAccount : ¬Unmatched f.endpoint.url (exchangesOf turns) e →
    e.decompilation = none ∧ e.notesOn "decompilation" = [] ∧
      ∀ engine : Engine, (investigate engine f s).Leads turns (.ok e)
  metadata : e.metadata ≠ none →
    ∃ core trailer, Fetched f.endpoint.url (exchangesOf turns) (core ++ trailer) ∧
      Trailer.IsTrailer trailer
  creation : Noted "creation" (CreationClash f.endpoint.url s (exchangesOf turns))
    (e.creation, e.notesOn "creation")
  runtime : Noted "runtime" (RuntimeClash f.endpoint.url s (exchangesOf turns))
    (e.runtime, e.notesOn "runtime")
  /-- There are no other notes. -/
  notes : ∀ n ∈ e.notes, ∃ side ∈ ["creation", "runtime", "decompilation"], Entry.isOn side n = true

/-! ### Findings -/

variable {engine : Engine} {f : Node.Fetcher} {s : Subject} {turns : List Turn} {found : Findings}

/-- The work on a chain first finds, and then judges what was found. -/
theorem leads_investigate_iff {e : Entry} :
    (investigate engine f s).Leads turns (.ok e) ↔ ∃ asked judging found, turns = asked ++ judging ∧
      (find f s).inSession.Leads asked (.ok found) ∧
      (judge engine f.endpoint.chain s.artifact found).Leads judging (.ok e) := by
  refine Activity.leads_bind_iff.trans ?_
  constructor
  · rintro ⟨asked, judging, r, hturns, hfind, hrest⟩
    cases r with
    | error d => cases (Activity.leads_done_iff.mp hrest).2
    | ok found => exact ⟨asked, judging, found, hturns, hfind, hrest⟩
  · rintro ⟨asked, judging, found, hturns, hfind, hjudge⟩
    exact ⟨asked, judging, .ok found, hturns, hfind, hjudge⟩

theorem findCreation_tells (transaction : Option String) :
    (findCreation f transaction).Tells fun r es =>
      (∀ e ∈ es, e.call.method = "eth_getTransactionByHash") ∧ ∀ input error, r = .ok (input, error) →
        input = transaction.bind fun hash => Node.finalCreation f.endpoint.url hash es := by
  cases transaction with
  | none =>
    refine ⟨fun e he => absurd he List.not_mem_nil, fun input error hr => ?_⟩
    cases hr
    rfl
  | some hash =>
    refine (Node.Fetcher.creationInput_tells f hash).map fun r es h => ?_
    obtain ⟨hcalls, hcode⟩ := h
    refine ⟨hcalls, fun input error hr => ?_⟩
    rw [Option.bind_some, ← hcode]
    cases r with
    | ok bytes =>
      cases hr
      rfl
    | error p =>
      cases p with
      | fault fault =>
        cases hr
        rfl
      | defect d => cases hr

/-- Creation code is found just if it was told. -/
theorem find_tells_creation :
    (find f s).inSession.Tells fun r es => ∀ found, r = .ok found →
      found.creationInput = toldCreation f.endpoint.url s es := by
  have hfind : (find f s).Tells fun r es => ∀ found, r = .ok found →
      found.creationInput = toldCreation f.endpoint.url s es := by
    refine (findCode_informs f s).bind fun r es h => ?_
    obtain ⟨hcalls, -⟩ := h
    cases r with
    | error d =>
      intro found hr
      cases hr
    | ok code =>
      refine (findCreation_tells s.creationTransaction).bind fun r es' h => ?_
      obtain ⟨hcalls', hcreation⟩ := h
      cases r with
      | error d =>
        intro found hr
        cases hr
      | ok creation =>
        intro found hr
        cases hr
        rw [List.append_nil, toldCreation]
        refine (hcreation _ _ rfl).trans (congrArg (Option.bind _) (funext fun hash => ?_))
        exact (Node.finalCreation_append_left (Node.method_ne hcalls (by decide))).symm
  refine hfind.bind fun r es h => ?_
  rw [← List.append_nil es] at h
  exact h

/-! ### Sides -/

section

variable {artifact : Option Artifact} {url : String} {es : List Exchange}

theorem noted_of_side {name : String} {r : Except Obstacle Verdict} {v : Verdict × List String}
    (h : Comparison.side name r = .ok v) :
    Noted name (fun cause => r = .error (.inconsistent cause)) v := by
  cases r with
  | ok verdict =>
    cases h
    exact ⟨fun cause hr => (nomatch hr), fun _ => rfl⟩
  | error o =>
    cases o with
    | inconsistent cause =>
      cases h
      refine ⟨fun cause' hr => ?_, fun hr => absurd rfl (hr cause)⟩
      cases hr
      rfl
    | defect d => cases h

/-- A side that nothing is compared on. -/
theorem noted_absent {side : String} {clash : Inconsistency → Prop} (h : ∀ cause, ¬clash cause) :
    Noted side clash (.absent, []) :=
  ⟨fun cause hclash => absurd hclash (h cause), fun _ => rfl⟩

theorem noted_creation (hinput : found.creationInput = toldCreation url s es)
    {v : Verdict × List String} (h : creationOf s.artifact found.creationInput = .ok v) :
    Noted "creation" (CreationClash url s es) v := by
  rw [hinput] at h
  cases hartifact : s.artifact with
  | none =>
    rw [hartifact] at h
    cases h
    refine noted_absent fun cause hclash => ?_
    cases hclash with
    | intro hartifact' => cases hartifact.symm.trans hartifact'
  | some artifact =>
    cases htold : toldCreation url s es with
    | none =>
      rw [hartifact, htold] at h
      cases h
      refine noted_absent fun cause hclash => ?_
      cases hclash with
      | intro _ htold' => cases htold.symm.trans htold'
    | some input =>
      rw [hartifact, htold] at h
      obtain ⟨parameters, hparameters, hside⟩ := Except.bind_eq_ok_iff.mp h
      have hnoted := noted_of_side hside
      refine ⟨fun cause hclash => hnoted.different cause ?_, fun hnone => hnoted.silent fun cause hr => ?_⟩
      · cases hclash with
        | intro hartifact' htold' hparameters' hr =>
          cases hartifact.symm.trans hartifact'
          cases htold.symm.trans htold'
          cases hparameters.symm.trans hparameters'
          exact hr
      · exact hnone cause ⟨hartifact, htold, hparameters, hr⟩

theorem noted_runtime (hcode : Finds url found.code es) {v : Verdict × List String}
    (h : runtimeOf s.artifact found.code = .ok v) : Noted "runtime" (RuntimeClash url s es) v := by
  have hfetched : ∀ code, Fetched url es code → found.code = .present code := fun code =>
    (hcode code).mpr
  cases hartifact : s.artifact with
  | none =>
    rw [hartifact] at h
    cases h
    refine noted_absent fun cause hclash => ?_
    cases hclash with
    | intro hartifact' => cases hartifact.symm.trans hartifact'
  | some artifact =>
    rw [hartifact] at h
    cases hfound : found.code with
    | empty =>
      rw [hfound] at h
      cases h
      refine noted_absent fun cause hclash => ?_
      cases hclash with
      | intro _ hcode' => cases hfound.symm.trans (hfetched _ hcode')
    | failed reason =>
      rw [hfound] at h
      cases h
      refine noted_absent fun cause hclash => ?_
      cases hclash with
      | intro _ hcode' => cases hfound.symm.trans (hfetched _ hcode')
    | present code =>
      rw [hfound] at h
      obtain ⟨immutables, himmutables, hside⟩ := Except.bind_eq_ok_iff.mp h
      have hnoted := noted_of_side hside
      refine ⟨fun cause hclash => hnoted.different cause ?_, fun hnone => hnoted.silent fun cause hr => ?_⟩
      · cases hclash with
        | intro hartifact' hcode' himmutables' hr =>
          cases hartifact.symm.trans hartifact'
          cases hfound.symm.trans (hfetched _ hcode')
          cases himmutables.symm.trans himmutables'
          exact hr
      · exact hnone cause ⟨hartifact, (hcode code).mp hfound, himmutables, hr⟩

/-- Metadata come from a trailer at the end of the code. -/
theorem trailer_of_metadata (hcode : Finds url found.code es)
    {fields : List (String × String)} (h : metadata found.code = .ok (some fields)) :
    ∃ core trailer, Fetched url es (core ++ trailer) ∧ Trailer.IsTrailer trailer := by
  cases hfound : found.code with
  | empty =>
    rw [hfound] at h
    cases h
  | failed reason =>
    rw [hfound] at h
    cases h
  | present code =>
    rw [hfound] at h
    have hne : (Trailer.split code).trailer ≠ [] := by
      intro hnil
      rw [metadata, hnil] at h
      cases h
    refine ⟨(Trailer.split code).core, (Trailer.split code).trailer, ?_, ?_⟩
    · rw [Trailer.split_append]
      exact (hcode code).mp hfound
    · exact (Trailer.split_cases code).resolve_left fun hnone => hne hnone.2

end

/-! ### Judgements -/

/-- A judgement leaves the entry that the comparison gave, whatever the engine, or adds an account. -/
theorem judged_of_leads {chain : Int} {artifact : Option Artifact} {e : Entry}
    (h : (judge engine chain artifact found).Leads turns (.ok e)) :
    ∃ c assessed, assess chain artifact found = .ok (c, assessed) ∧
      (found.code.needsDecompiling c.creation c.runtime = true ∧ WithAccount assessed e ∨
        found.code.needsDecompiling c.creation c.runtime = false ∧ e = assessed ∧
          ∀ engine : Engine, (judge engine chain artifact found).Leads turns (.ok e)) := by
  rw [judge] at h
  cases hassess : assess chain artifact found with
  | error d =>
    rw [hassess] at h
    cases (Activity.leads_done_iff.mp h).2
  | ok assessed =>
    obtain ⟨c, assessed⟩ := assessed
    rw [hassess] at h
    dsimp only at h
    refine ⟨c, assessed, rfl, ?_⟩
    cases hneeds : found.code.needsDecompiling c.creation c.runtime with
    | true =>
      rw [if_pos hneeds] at h
      obtain ⟨first, rest, account, rfl, -, hdone⟩ := Activity.leads_bind_iff.mp h
      have hadded := (Activity.leads_done_iff.mp hdone).2
      refine .inl ⟨rfl, ?_⟩
      cases account with
      | ok d =>
        cases hadded
        exact .account d
      | error problem =>
        cases problem with
        | fault fault =>
          cases hadded
          exact .note fault
        | defect d => cases hadded
    | false =>
      rw [if_neg (by simp [hneeds])] at h
      obtain ⟨rfl, he⟩ := Activity.leads_done_iff.mp h
      cases he
      refine .inr ⟨rfl, rfl, fun engine => ?_⟩
      rw [judge, hassess]
      dsimp only
      rw [if_neg (by simp [hneeds])]
      exact .done _

theorem needsDecompiling_iff {url : String} {es : List Exchange} (hcode : Finds url found.code es)
    {creation runtime : Verdict} :
    found.code.needsDecompiling creation runtime = true ↔
      (∃ code, Fetched url es code) ∧ creation.isMatch = false ∧ runtime.isMatch = false := by
  cases hfound : found.code with
  | present code =>
    have hfetched : Fetched url es code := (hcode code).mp hfound
    simp only [Code.needsDecompiling, Bool.and_eq_true, Bool.not_eq_true']
    exact (and_iff_right ⟨code, hfetched⟩).symm
  | empty =>
    have hnone : ¬∃ code, Fetched url es code := by
      rintro ⟨code, hfetched⟩
      cases hfound.symm.trans ((hcode code).mpr hfetched)
    simp [Code.needsDecompiling, hnone]
  | failed reason =>
    have hnone : ¬∃ code, Fetched url es code := by
      rintro ⟨code, hfetched⟩
      cases hfound.symm.trans ((hcode code).mpr hfetched)
    simp [Code.needsDecompiling, hnone]

/-- What a comparison alone leaves of notes, and no account. -/
theorem notes_of_assess {chain : Int} {artifact : Option Artifact} {c : Comparison} {e : Entry}
    (h : assess chain artifact found = .ok (c, e)) :
    e.creation = c.creation ∧ e.runtime = c.runtime ∧ e.decompilation = none ∧
      ∃ creation runtime, AllOn "creation" creation ∧ AllOn "runtime" runtime ∧
        e.notes = creation ++ runtime := by
  rw [assess_eq] at h
  obtain ⟨creation, hcreation, h⟩ := Except.bind_eq_ok_iff.mp h
  obtain ⟨told, htold, h⟩ := Except.bind_eq_ok_iff.mp h
  obtain ⟨runtime, hruntime, htold⟩ := Except.bind_eq_ok_iff.mp htold
  obtain ⟨fields, -, htold⟩ := Except.bind_eq_ok_iff.mp htold
  cases htold
  cases h
  exact ⟨rfl, rfl, rfl, _, _, allOn_creation hcreation, allOn_runtime hruntime, rfl⟩

theorem isOn_of_allOn {side : String} {notes : List String} (h : AllOn side notes) :
    ∀ n ∈ notes, Entry.isOn side n = true := by
  intro n hn
  obtain ⟨text, rfl⟩ := h n hn
  exact isOn_self side text

/-- A comparison is never on the side of accounts. -/
theorem filter_account {creation runtime : List String} (hcreation : AllOn "creation" creation)
    (hruntime : AllOn "runtime" runtime) :
    (creation ++ runtime).filter (Entry.isOn "decompilation") = [] := by
  rw [List.filter_append, hcreation.filter_other fun _ => by simp [Entry.isOn, List.isPrefixOf],
    hruntime.filter_other fun _ => by simp [Entry.isOn, List.isPrefixOf], List.append_nil]

theorem notes_of_withAccount {assessed e : Entry} (h : WithAccount assessed e) :
    (e.decompilation ≠ none ∨ e.notesOn "decompilation" ≠ []) ∧
      ∀ n ∈ e.notes, n ∈ assessed.notes ∨ Entry.isOn "decompilation" n = true := by
  cases h with
  | account d => exact ⟨.inl (by simp), fun n hn => .inl hn⟩
  | note fault =>
    have hon : Entry.isOn "decompilation" ("decompilation: " ++ fault.describe) = true :=
      isOn_self "decompilation" fault.describe
    refine ⟨.inr ?_, fun n hn => ?_⟩
    · simp [Entry.notesOn, hon]
    · rcases List.mem_append.mp hn with hn | hn
      · exact .inl hn
      · rw [List.mem_singleton.mp hn]
        exact .inr hon

/-- The work on a chain that comes to an entry comes to one that tells no more and no less than this. -/
theorem described_of_leads (hengine : engine.AsksNoNode) {e : Entry}
    (h : (investigate engine f s).Leads turns (.ok e)) : Described f s turns e := by
  obtain ⟨asked, judging, found, rfl, hfind, hjudge⟩ := leads_investigate_iff.mp h
  have hes : exchangesOf (asked ++ judging) = exchangesOf asked := by
    have hnone := ((judge_tells hengine f.endpoint.chain s.artifact found).of_leads hjudge).1
    rw [exchangesOf, List.flatMap_append, hnone, List.append_nil]
    rfl
  have hcode : Finds f.endpoint.url found.code (exchangesOf asked) :=
    ((find_inSession_informs f s).of_leads hfind found rfl).finds
  have hinput : found.creationInput = toldCreation f.endpoint.url s (exchangesOf asked) :=
    find_tells_creation.of_leads hfind found rfl
  obtain ⟨c, assessed, hassess, hjudged⟩ := judged_of_leads hjudge
  obtain ⟨hcreationVerdict, hruntimeVerdict, hnoAccount, creationNotes, runtimeNotes, hcreationNotes,
    hruntimeNotes, hnotes⟩ := notes_of_assess hassess
  have hadded : e = assessed ∨ WithAccount assessed e :=
    hjudged.elim (fun h => .inr h.2) fun h => .inl h.2.1
  obtain ⟨creation, told, hcreation, htold, hreads⟩ := reads_of_assess hassess hadded
  obtain ⟨runtime, hruntime, htold⟩ := Except.bind_eq_ok_iff.mp htold
  obtain ⟨fields, hfields, htold⟩ := Except.bind_eq_ok_iff.mp htold
  cases htold
  have hverdicts : e.creation = c.creation ∧ e.runtime = c.runtime := by
    rcases hadded with rfl | ⟨d⟩ | ⟨fault⟩ <;> exact ⟨hcreationVerdict, hruntimeVerdict⟩
  have hunmatched : Unmatched f.endpoint.url (exchangesOf asked) e ↔
      found.code.needsDecompiling c.creation c.runtime = true := by
    rw [needsDecompiling_iff hcode, Unmatched, hverdicts.1, hverdicts.2]
  refine ⟨fun h => ?_, fun h => ?_, fun h => ?_, ?_, ?_, fun n hn => ?_⟩
  · rw [hes, hunmatched] at h
    obtain ⟨-, haccount⟩ | ⟨hneeds, -⟩ := hjudged
    · exact (notes_of_withAccount haccount).1
    · cases hneeds.symm.trans h
  · rw [hes, hunmatched] at h
    obtain ⟨hneeds, -⟩ | ⟨-, rfl, hany⟩ := hjudged
    · exact absurd hneeds h
    · refine ⟨hnoAccount, ?_, fun engine => ?_⟩
      · rw [Entry.notesOn, hnotes, filter_account hcreationNotes hruntimeNotes]
      · exact leads_investigate_iff.mpr ⟨asked, judging, found, rfl, hfind, hany engine⟩
  · rw [hes]
    rw [hreads.metadata] at h
    cases fields with
    | none => exact absurd rfl h
    | some fields => exact trailer_of_metadata hcode hfields
  · rw [hes, hreads.creation]
    exact noted_creation hinput hcreation
  · rw [hes, hreads.runtime]
    exact noted_runtime hcode hruntime
  · have hassessed : n ∈ assessed.notes →
        Entry.isOn "creation" n = true ∨ Entry.isOn "runtime" n = true := by
      intro hn
      rw [hnotes] at hn
      exact (List.mem_append.mp hn).imp (isOn_of_allOn hcreationNotes n) (isOn_of_allOn hruntimeNotes n)
    have hside : n ∈ assessed.notes ∨ Entry.isOn "decompilation" n = true := by
      rcases hadded with rfl | haccount
      · exact .inl hn
      · exact (notes_of_withAccount haccount).2 n hn
    simpa [or_assoc] using hside.imp_left hassessed

end Chain.Investigation

/-! ### Surveys -/

namespace Chain.Survey

open Investigation

variable {s : Settings} {engine : Engine} {subject : Subject} {chain : Document} {ids : List Int}
  {clock : Seconds} {deadline : Binary64} {outside : Outside} {result : Result}

theorem eq_of_run (htargets : targets s chain = .ok ids)
    (hrun : run s engine subject chain clock deadline outside = .ok result) :
    result = ⟨entriesOf deadline.text (spelling? chain) ids
        (schedule s clock deadline outside (jobs s engine subject ids)),
      schedule s clock deadline outside (jobs s engine subject ids)⟩ := by
  by_cases hslots : 0 ≤ s.maxInFlight
  · rw [run_of_targets htargets hslots] at hrun
    exact (Except.ok.inj hrun).symm
  · rw [run, htargets] at hrun
    simp only [bind, Except.bind, if_pos (Int.not_le.mp hslots)] at hrun
    cases hrun

/-- Every entry of a survey is that of a cancelled chain, that of a chain whose work broke down, or one
that tells what the node's final answers come to: it holds an account of the code, or a note on why
there is none, exactly when there is code and neither verdict is a match, and otherwise no engine has
any part in it. -/
theorem accounts_given (hengine : engine.AsksNoNode) (htargets : targets s chain = .ok ids)
    (hrun : run s engine subject chain clock deadline outside = .ok result) :
    ∀ entry ∈ result.entries, ∃ e ∈ s.chains, e.chain = entry.chain ∧
      ((histories s engine subject ids clock deadline outside).finished.lookup e.chain = none ∧
          entry = { Entry.cancelled e.chain deadline.text with spelling := spelling? chain } ∨
        (∃ d turns,
          (histories s engine subject ids clock deadline outside).finished.lookup e.chain =
            some (.error d, turns) ∧
          entry = { Entry.failed e.chain d.describe with spelling := spelling? chain }) ∨
        ∃ r turns,
          (histories s engine subject ids clock deadline outside).finished.lookup e.chain =
            some (.ok r, turns) ∧
          entry = { r with spelling := spelling? chain } ∧
          Described (.ofSettings e s) subject turns r) := by
  rw [eq_of_run htargets hrun]
  intro entry hentry
  obtain ⟨id, hid, rfl⟩ := List.mem_map.mp hentry
  obtain ⟨e, he⟩ := endpoint_of_targets htargets hid
  obtain ⟨hmem, rfl⟩ := Settings.endpoint?_mem he
  refine ⟨e, hmem, (chain_entryFor _ _).symm, ?_⟩
  rw [entryFor, lookup_histories]
  cases hlookup : (histories s engine subject ids clock deadline outside).finished.lookup e.chain with
  | none => exact .inl ⟨rfl, rfl⟩
  | some r =>
    obtain ⟨r, turns⟩ := r
    cases r with
    | error d => exact .inr (.inl ⟨d, turns, rfl, rfl⟩)
    | ok r =>
      obtain ⟨e', he', hleads, -⟩ := leads_of_histories hlookup
      cases he.symm.trans he'
      exact .inr (.inr ⟨r, turns, rfl, rfl, described_of_leads hengine hleads⟩)

end Chain.Survey

namespace CommandLine

open Chain Survey

/-- A node that has other code than what was built. -/
theorem accounts_given_otherCode :
    Engine.listing.AsksNoNode ∧ targets mainnetOnly (.int 1) = .ok [1] ∧
      ∃ result, Survey.run mainnetOnly .listing otherSubject (.int 1) 0 (.ofInt 300)
          (otherCode {}) = .ok result ∧
        ∃ entry ∈ result.entries, ∃ r turns, entry = { r with spelling := none } ∧
          Investigation.Described (.ofSettings ⟨1, "mainnet", "u1"⟩ mainnetOnly) otherSubject turns
            r := by
  have hengine : Engine.listing.AsksNoNode := fun _ => rfl
  have htargets : targets mainnetOnly (.int 1) = .ok [1] := rfl
  obtain ⟨result, hrun, hone⟩ : ∃ result, Survey.run mainnetOnly .listing otherSubject (.int 1) 0
      (.ofInt 300) (otherCode {}) = .ok result ∧ result.entries.length = 1 :=
    ⟨_, run_of_targets htargets (by decide), rfl⟩
  obtain ⟨entry, hentries⟩ := List.length_eq_one_iff.mp hone
  have hmem : entry ∈ result.entries := by simp [hentries]
  have hfinished : ((histories mainnetOnly .listing otherSubject [1] 0 (.ofInt 300)
      (otherCode {})).finished.lookup 1).any (fun r => r.1.toOption.isSome) = true := by
    decide +kernel
  obtain ⟨e, he, -, hcases⟩ := accounts_given hengine htargets hrun entry hmem
  obtain rfl := List.mem_singleton.mp he
  refine ⟨hengine, htargets, result, hrun, entry, hmem, ?_⟩
  obtain ⟨hnone, -⟩ | ⟨d, turns, hdefect, -⟩ | ⟨r, turns, -, hentry, hdescribed⟩ := hcases
  · rw [hnone] at hfinished
    cases hfinished
  · rw [hdefect] at hfinished
    cases hfinished
  · exact ⟨r, turns, hentry, hdescribed⟩

end CommandLine

end Attest
