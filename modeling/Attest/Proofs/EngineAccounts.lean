import Attest.Proofs.ChainIsolation
import Attest.Proofs.ExitStatus
import Attest.Proofs.Histories
import Attest.Proofs.ReadingLimits

/-! # What an engine can change

An account of the code is added to an entry, or a note on why there is none. Verdicts, errors and the
exit status stay as they are, unless the engine's output is of a kind that breaks the work. -/

namespace Attest

/-! ### Engines -/

namespace Engine

/-- The files that an interface is looked for in. -/
def interfaces (output : Tree) : List Path := output.find [] (· == "abi.json")

/-- The files that source is looked for in. -/
def sources (output : Tree) : List Path := output.find [] (Path.hasSuffix ".sol")

/-- Output that cannot be used, and that no fault is made of. -/
inductive Unusable (output : Tree) : Prop
  /-- What should be a file is a directory. -/
  | directory {path : Path}
      (hfirst : (interfaces output).head? = some path ∨ (sources output).head? = some path)
      (h : output.text? path = none)
  /-- The interface is nested too deeply to be read. -/
  | tooDeep {path : Path} {s activity : String} (hfirst : (interfaces output).head? = some path)
      (htext : output.text? path = some s) (h : Json.read s = .error (.tooDeep activity))
  /-- The interface is null, a truth value or a number. -/
  | scalar {path : Path} {s : String} {d : Document}
      (hfirst : (interfaces output).head? = some path) (htext : output.text? path = some s)
      (hread : Json.read s = .ok (.ok d))
      (h : d = .null ∨ (∃ b, d = .bool b) ∨ (∃ i, d = .int i) ∨ ∃ x, d = .float x)

/-- An interface is what the first file spells, or an empty list without a file. -/
theorem readInterface_cases (output : Tree) :
    (∃ abi, readInterface output (interfaces output) = .ok abi ∧ (abi = .list [] ∨
      ∃ path s, (interfaces output).head? = some path ∧ output.text? path = some s ∧
        Json.read s = .ok (.ok abi))) ∨
    (∃ f, readInterface output (interfaces output) = .error (.fault f)) ∨
    (∃ d, readInterface output (interfaces output) = .error (.defect d)) ∧ Unusable output := by
  cases hpaths : interfaces output with
  | nil => exact .inl ⟨_, rfl, .inl rfl⟩
  | cons path rest =>
    have hfirst : (interfaces output).head? = some path := by rw [hpaths, List.head?_cons]
    cases hread : output.read outputDirectory path with
    | error d =>
      refine .inr (.inr ⟨⟨d, ?_⟩, .directory (.inl hfirst) (Tree.fails_read_iff.mp ⟨d, hread⟩)⟩)
      rw [readInterface, hread]
    | ok s =>
      have htext := Tree.text?_of_read hread
      cases hjson : Json.read s with
      | error d =>
        obtain ⟨activity, rfl⟩ := Json.tooDeep_of_read hjson
        refine .inr (.inr ⟨⟨.tooDeep activity, ?_⟩, .tooDeep hfirst htext hjson⟩)
        simp only [readInterface, hread, hjson]
      | ok r =>
        cases r with
        | error f =>
          refine .inr (.inl ⟨.unreadable (f.message s), ?_⟩)
          simp only [readInterface, hread, hjson, Except.mapError]
        | ok abi =>
          refine .inl ⟨abi, ?_, .inr ⟨path, s, by rw [List.head?_cons], htext, hjson⟩⟩
          simp only [readInterface, hread, hjson, Except.mapError]

theorem readSource_defect {output : Tree} {p : Problem}
    (h : readSource output (sources output) = .error p) : Unusable output := by
  cases hpaths : sources output with
  | nil =>
    rw [hpaths] at h
    cases h
  | cons path rest =>
    have hfirst : (sources output).head? = some path := by rw [hpaths, List.head?_cons]
    rw [hpaths, readSource] at h
    cases hread : output.read outputDirectory path with
    | error d => exact .directory (.inr hfirst) (Tree.fails_read_iff.mp ⟨d, hread⟩)
    | ok s =>
      rw [hread] at h
      cases h

theorem scalar_of_elements {abi : Document} {d : Defect} (h : abi.elements = .error d) :
    abi = .null ∨ (∃ b, abi = .bool b) ∨ (∃ i, abi = .int i) ∨ ∃ x, abi = .float x := by
  cases abi with
  | null => exact .inl rfl
  | bool b => exact .inr (.inl ⟨b, rfl⟩)
  | int i => exact .inr (.inr (.inl ⟨i, rfl⟩))
  | float x => exact .inr (.inr (.inr ⟨x, rfl⟩))
  | text s => cases h
  | list xs => cases h
  | object ms => cases h

/-- Only unusable output comes to a defect. -/
theorem collect_defect {output : Tree} {d : Defect} (h : collect output = .error (.defect d)) :
    Unusable output := by
  unfold collect at h
  dsimp only at h
  split at h
  · cases h
  · rcases readInterface_cases output with ⟨abi, hread, habi⟩ | ⟨f, hread⟩ | ⟨_, hunusable⟩
    · rcases Except.bind_eq_error_iff.mp h with hfails | ⟨abi', hread', h⟩
      · exact nomatch hread.symm.trans hfails
      obtain rfl := Except.ok.inj (hread.symm.trans hread')
      rcases Except.bind_eq_error_iff.mp h with hsource | ⟨source, _, h⟩
      · exact readSource_defect hsource
      rcases Except.bind_eq_error_iff.mp h with helements | ⟨xs, _, h⟩
      · cases hxs : abi.elements with
        | ok xs =>
          rw [hxs] at helements
          cases helements
        | error d =>
          rcases habi with rfl | ⟨path, s, hfirst, htext, hjson⟩
          · cases hxs
          · exact .scalar hfirst htext hjson (scalar_of_elements hxs)
      · cases h
    · rcases Except.bind_eq_error_iff.mp h with hfails | ⟨abi', hread', _⟩
      · cases hread.symm.trans hfails
      · cases hread.symm.trans hread'
    · exact hunusable

/-- A step of the outside engine that breaks the work: it succeeds with unusable output, or cannot be
started for a reason that the operating system does not report. -/
inductive Spoils (step : Tool.Step) : Prop
  | output (hexit : step.exit = 0) (h : Unusable (.ofFiles step.files))
  | mishap {m : Tool.Mishap} (h : step.mishap = some m) (hsystem : m.isSystem = false)

theorem spoils_of_outcome {step : Tool.Step} {c : Tool.Command} {d : Defect}
    (h : ofOutcome (step.leftovers c) (step.perform c).2 = .error (.defect d)) : Spoils step := by
  unfold Tool.Step.perform Tool.Step.leftovers at h
  cases hlimit : c.limit.isExceededBy step.delay with
  | true =>
    simp only [hlimit, if_true] at h
    cases h
  | false =>
    simp only [hlimit, Bool.false_eq_true, if_false, Bool.false_or] at h
    cases hmishap : step.mishap with
    | some m =>
      cases hsystem : m.isSystem with
      | true =>
        simp only [hmishap, hsystem, if_true] at h
        cases h
      | false => exact .mishap hmishap hsystem
    | none =>
      simp only [hmishap, Option.isSome_none, Bool.false_eq_true, if_false, ofOutcome] at h
      split at h
      · cases h
      · rename_i hexit
        exact .output (not_not.mp hexit) (collect_defect h)

/-- A program without a script leaves nothing and breaks nothing. -/
theorem not_spoils_default : ¬Spoils {} := by
  rintro (⟨_, h⟩ | ⟨h, _⟩)
  · have hinterfaces : interfaces (.ofFiles []) = [] := by decide +kernel
    have hsources : sources (.ofFiles []) = [] := by decide +kernel
    cases h with
    | directory hfirst _ =>
      rw [hinterfaces, hsources] at hfirst
      rcases hfirst with h | h <;> cases h
    | tooDeep hfirst _ _ => cases hinterfaces ▸ hfirst
    | scalar hfirst _ _ _ => cases hinterfaces ▸ hfirst
  · cases h

/-- A defect of an engine comes from a step that breaks the work. -/
theorem spoils_of_decompile {name : Document} {engine : Engine} (hengine : ofName name = .ok engine)
    {code : Bytes} {start : Outside} {turns : List Turn} {d : Defect}
    (h : (engine.decompile code).Leads turns (.error (.defect d)))
    (hfrom : ∀ t ∈ turns, t.From start) : ∃ step ∈ start.heimdall, Spoils step := by
  rcases eq_of_ofName hengine with rfl | rfl
  · cases h
  · cases h with
    | wait answer h =>
      cases answer with
      | none => cases h
      | some answer =>
        obtain ⟨step, hstep, rfl⟩ := hfrom _ List.mem_cons_self
        have hspoils : Spoils step := spoils_of_outcome (Activity.leads_done_iff.mp h).2.symm
        rcases hstep with hstep | rfl
        · exact ⟨step, hstep, hspoils⟩
        · exact absurd hspoils not_spoils_default

end Engine

/-! ### Reports as text -/

namespace Report

theorem exists_accountLines_iff {account : Option Decompilation} :
    (∃ ls, accountLines account = .ok ls) ↔
      ∀ d, account = some d → ∀ x ∈ d.abi, ∃ ms, x = .object ms := by
  cases account with
  | none => exact ⟨fun _ _ h => (nomatch h), fun _ => ⟨_, rfl⟩⟩
  | some d =>
    have hget (x : Document) : (∃ y, x.get "name" .null = .ok y) ↔ ∃ ms, x = .object ms := by
      constructor
      · rintro ⟨y, hy⟩
        obtain ⟨ms, hms, _⟩ := Except.bind_eq_ok_iff.mp hy
        unfold Document.members at hms
        split at hms
        · exact ⟨_, rfl⟩
        · cases hms
      · rintro ⟨ms, rfl⟩
        exact ⟨_, rfl⟩
    have hnames : (∃ ls, accountLines (some d) = .ok ls) ↔
        ∃ names, (d.abi.mapM fun f => f.get "name" .null) = .ok names := by
      constructor
      · rintro ⟨ls, h⟩
        obtain ⟨names, hnames, _⟩ := Except.bind_eq_ok_iff.mp h
        exact ⟨names, hnames⟩
      · rintro ⟨names, hnames⟩
        exact ⟨_, Except.bind_eq_ok_iff.mpr ⟨names, hnames, rfl⟩⟩
    rw [hnames, Except.exists_mapM_iff]
    simp only [hget, Option.some.injEq, forall_eq']

/-- A report can be shown as text when every interface in it is made of objects. -/
theorem exists_lines_iff {r : Report} :
    (∃ ls, r.lines = .ok ls) ↔
      ∀ e ∈ r.entries, ∀ d, e.decompilation = some d → ∀ x ∈ d.abi, ∃ ms, x = .object ms := by
  have hentry (e : Chain.Entry) :
      (∃ ls, entryLines e = .ok ls) ↔ ∃ ls, accountLines e.decompilation = .ok ls := by
    constructor
    · rintro ⟨ls, h⟩
      obtain ⟨account, haccount, _⟩ := Except.bind_eq_ok_iff.mp h
      exact ⟨account, haccount⟩
    · rintro ⟨account, haccount⟩
      exact ⟨_, Except.bind_eq_ok_iff.mpr ⟨account, haccount, rfl⟩⟩
  have hlines : (∃ ls, r.lines = .ok ls) ↔ ∃ parts, r.entries.mapM entryLines = .ok parts := by
    constructor
    · rintro ⟨ls, h⟩
      obtain ⟨parts, hparts, _⟩ := Except.bind_eq_ok_iff.mp h
      exact ⟨parts, hparts⟩
    · rintro ⟨parts, hparts⟩
      exact ⟨_, Except.bind_eq_ok_iff.mpr ⟨parts, hparts, rfl⟩⟩
  rw [hlines, Except.exists_mapM_iff]
  exact forall₂_congr fun e _ => (hentry e).trans exists_accountLines_iff

end Report

namespace Chain

namespace Investigation

variable {engine : Engine}

/-- The work on one chain, with what it found before it judged. -/
def withFindings (engine : Engine) (f : Node.Fetcher) (s : Subject) :
    Activity (Except Defect Findings × Except Defect Entry) :=
  (find f s).inSession.bind fun
    | .error d => .done (.error d, .error d)
    | .ok found => (judge engine f.endpoint.chain s.artifact found).map fun r => (.ok found, r)

theorem map_snd_withFindings (f : Node.Fetcher) (s : Subject) :
    (withFindings engine f s).map Prod.snd = investigate engine f s := by
  rw [withFindings, Activity.map, Activity.bind_assoc]
  refine congrArg (Activity.bind _) (funext fun found => ?_)
  cases found with
  | error d => rfl
  | ok found => exact (Activity.bind_assoc _ _ _).trans (Activity.bind_done _)

/-- An entry with an account of the code, or with a note on why there is none. -/
inductive WithAccount (e : Entry) : Entry → Prop
  | account (d : Decompilation) : WithAccount e { e with decompilation := some d }
  | note (f : Engine.Fault) :
      WithAccount e { e with notes := e.notes ++ ["decompilation: " ++ f.describe] }

/-- What comes of findings: what the comparison says, with no more than an account added. Only where
nothing matched can an outside program whose step breaks the work take its place. -/
inductive Settled (outside : Outside) (chain : Int) (artifact : Option Artifact) (f : Findings) :
    Except Defect Entry → Prop
  | incomparable {d : Defect} (h : assess chain artifact f = .error d) :
      Settled outside chain artifact f (.error d)
  | plain {c : Comparison} {e : Entry} (h : assess chain artifact f = .ok (c, e))
      (hneeds : f.code.needsDecompiling c.creation c.runtime = false) :
      Settled outside chain artifact f (.ok e)
  | accounted {c : Comparison} {e e' : Entry} (h : assess chain artifact f = .ok (c, e))
      (hneeds : f.code.needsDecompiling c.creation c.runtime = true) (haccount : WithAccount e e') :
      Settled outside chain artifact f (.ok e')
  | spoilt {c : Comparison} {e : Entry} {d : Defect} (h : assess chain artifact f = .ok (c, e))
      (hneeds : f.code.needsDecompiling c.creation c.runtime = true)
      (hspoils : ∃ step ∈ outside.heimdall, Engine.Spoils step) :
      Settled outside chain artifact f (.error d)

/-- What comes of all that was asked: a defect in the asking is one of the work. -/
def Settles (outside : Outside) (chain : Int) (artifact : Option Artifact) :
    Except Defect Findings × Except Defect Entry → Prop
  | (.error d, r) => r = .error d
  | (.ok found, r) => Settled outside chain artifact found r

theorem runtime_of_assess {chain : Int} {artifact : Option Artifact} {found : Findings}
    {c : Comparison} {e : Entry} (h : assess chain artifact found = .ok (c, e)) :
    e.runtime = c.runtime := by
  obtain ⟨_, _, h⟩ := Except.bind_eq_ok_iff.mp h
  obtain ⟨_, _, h⟩ := Except.bind_eq_ok_iff.mp h
  cases h
  rfl

theorem WithAccount.runtime {e e' : Entry} (h : WithAccount e e') : e'.runtime = e.runtime := by
  cases h <;> rfl

variable {name : Document} {outside : Outside} {chain : Int} {artifact : Option Artifact}
  {found : Findings} {turns : List Turn} {r : Except Defect Entry}

theorem settled_of_judge (hengine : Engine.ofName name = .ok engine)
    (h : (judge engine chain artifact found).Leads turns r)
    (hfrom : ∀ t ∈ turns, t.From outside) : Settled outside chain artifact found r := by
  rw [judge] at h
  cases hassess : assess chain artifact found with
  | error d =>
    rw [hassess] at h
    obtain ⟨_, rfl⟩ := Activity.leads_done_iff.mp h
    exact .incomparable hassess
  | ok assessed =>
    obtain ⟨c, e⟩ := assessed
    rw [hassess] at h
    dsimp only at h
    cases hneeds : found.code.needsDecompiling c.creation c.runtime with
    | false =>
      rw [hneeds, if_neg (by decide)] at h
      obtain ⟨_, rfl⟩ := Activity.leads_done_iff.mp h
      exact .plain hassess hneeds
    | true =>
      rw [hneeds, if_pos rfl] at h
      obtain ⟨first, rest, account, rfl, hdecompile, hdone⟩ := Activity.leads_bind_iff.mp h
      obtain ⟨_, rfl⟩ := Activity.leads_done_iff.mp hdone
      cases account with
      | ok d => exact .accounted hassess hneeds (.account d)
      | error problem =>
        cases problem with
        | fault f => exact .accounted hassess hneeds (.note f)
        | defect d =>
          exact .spoilt hassess hneeds (Engine.spoils_of_decompile hengine hdecompile fun t ht =>
            hfrom t (List.mem_append_left rest ht))

/-- What the work on a chain comes to is settled by what it found. -/
theorem settles_of_withFindings (hengine : Engine.ofName name = .ok engine) {f : Node.Fetcher}
    {s : Subject} {r : Except Defect Findings × Except Defect Entry}
    (h : (withFindings engine f s).Leads turns r) (hfrom : ∀ t ∈ turns, t.From outside) :
    Settles outside f.endpoint.chain s.artifact r := by
  obtain ⟨first, rest, asked, rfl, _, hrest⟩ := Activity.leads_bind_iff.mp h
  cases asked with
  | error d =>
    obtain ⟨_, rfl⟩ := Activity.leads_done_iff.mp hrest
    rfl
  | ok found =>
    obtain ⟨judging, last, judged, rfl, hjudge, hdone⟩ := Activity.leads_bind_iff.mp hrest
    obtain ⟨_, rfl⟩ := Activity.leads_done_iff.mp hdone
    exact settled_of_judge hengine hjudge fun t ht =>
      hfrom t (List.mem_append_right first (List.mem_append_left last ht))

end Investigation

namespace Survey

open Investigation

variable {s : Settings} {name : Document} {engine : Engine} {subject : Subject} {ids : List Int}
  {clock : Seconds} {deadline : Binary64} {outside : Outside}

/-- A survey that keeps more of the work on each chain knows the same in the end. -/
theorem lookup_of_work {β : Type} {work : Endpoint → Activity β} {result : β → Except Defect Entry}
    (hwork : ∀ e, (work e).map result = investigate engine (.ofSettings e s) subject) (id : Int) :
    (schedule s clock deadline outside (jobs s engine subject ids)).finished.lookup id =
      ((schedule s clock deadline outside (ids.filterMap fun id =>
        (s.endpoint? id).map fun e => ⟨id, work e⟩)).finished.lookup id).map result := by
  have hjobs : jobs s engine subject ids = (ids.filterMap fun id =>
      (s.endpoint? id).map fun e => (⟨id, work e⟩ : Schedule.Job β)).map (Schedule.Job.map result) := by
    rw [jobs, List.map_filterMap]
    refine congrArg (List.filterMap · ids) (funext fun id => ?_)
    rw [Option.map_map]
    refine congrArg (Option.map · _) (funext fun e => ?_)
    rw [Function.comp_apply, Schedule.Job.map, hwork]
  rw [← Schedule.State.lookup_finished_map, hjobs]
  rw [schedule, Schedule.run_map]
  rfl

/-- A survey that keeps what was found on each chain. -/
def withFindings (s : Settings) (engine : Engine) (subject : Subject) (ids : List Int)
    (clock : Seconds) (deadline : Binary64) (outside : Outside) :
    Schedule.State (Except Defect Findings × Except Defect Entry) :=
  schedule s clock deadline outside <| ids.filterMap fun id =>
    (s.endpoint? id).map fun e => ⟨id, Investigation.withFindings engine (.ofSettings e s) subject⟩

theorem lookup_withFindings (id : Int) :
    (schedule s clock deadline outside (jobs s engine subject ids)).finished.lookup id =
      ((withFindings s engine subject ids clock deadline outside).finished.lookup id).map Prod.snd :=
  lookup_of_work (fun _ => map_snd_withFindings _ _) id

theorem settles_of_lookup (hengine : Engine.ofName name = .ok engine) {id : Int}
    {r : Except Defect Findings × Except Defect Entry}
    (h : (withFindings s engine subject ids clock deadline outside).finished.lookup id = some r) :
    Settles outside id subject.artifact r := by
  refine Schedule.finished_yields (p := fun id r => Settles outside id subject.artifact r) ?_
    (Schedule.mem_of_lookup_eq_some h)
  intro job hjob turns r hleads hfrom
  obtain ⟨id, _, hjob⟩ := List.mem_filterMap.mp hjob
  obtain ⟨e, he, rfl⟩ := Option.map_eq_some_iff.mp hjob
  obtain ⟨_, rfl⟩ := Settings.endpoint?_mem he
  exact settles_of_withFindings hengine hleads hfrom

/-- A chain came to its end in time, and the comparison of what was found there is this one. -/
def Compared (final : Schedule.State (Except Defect Findings × Except Defect Entry))
    (artifact : Option Artifact) (id : Int) (c : Comparison) : Prop :=
  ∃ found r e, final.finished.lookup id = some (.ok found, r) ∧
    assess id artifact found = .ok (c, e)

/-- The entries of chains that came to their end, whatever engine gives accounts. -/
theorem settled_entries (hengine : Engine.ofName name = .ok engine) (text : String)
    (chain : Document) {id : Int} (hid : id ∈ ids) {found : Findings} {r : Except Defect Entry}
    (h : (withFindings s engine subject ids clock deadline outside).finished.lookup id =
      some (.ok found, r)) :
    Settled outside id subject.artifact found r ∧
      entryOf chain id r ∈ entriesOf text (spelling? chain) ids
        (schedule s clock deadline outside (jobs s engine subject ids)) := by
  refine ⟨settles_of_lookup hengine h, List.mem_map.mpr ⟨id, hid, ?_⟩⟩
  apply entryFor_of_lookup
  rw [lookup_withFindings, h]
  rfl

/-- The runtime verdict of an entry matches when that of the comparison does. -/
theorem isMatch_iff_compared (hengine : Engine.ofName name = .ok engine) (text : String) (id : Int) :
    (entryFor text (schedule s clock deadline outside
        (jobs s engine subject ids)).finished id).runtime.isMatch = true ↔
      ∃ c, Compared (withFindings s engine subject ids clock deadline outside) subject.artifact id c ∧
        c.runtime.isMatch = true := by
  rw [entryFor, lookup_withFindings]
  constructor
  · intro hmatch
    cases hlookup : (withFindings s engine subject ids clock deadline outside).finished.lookup id with
    | none =>
      rw [hlookup] at hmatch
      cases hmatch
    | some r =>
      have hsettles := settles_of_lookup hengine hlookup
      obtain ⟨asked, r⟩ := r
      rw [hlookup] at hmatch
      cases r with
      | error d => cases hmatch
      | ok entry =>
        cases asked with
        | error d => cases hsettles
        | ok found =>
          cases hsettles with
          | plain hassess _ =>
            exact ⟨_, ⟨found, _, _, hlookup, hassess⟩, runtime_of_assess hassess ▸ hmatch⟩
          | accounted hassess _ haccount =>
            refine ⟨_, ⟨found, _, _, hlookup, hassess⟩, ?_⟩
            rw [← runtime_of_assess hassess, ← haccount.runtime]
            exact hmatch
  · rintro ⟨c, ⟨found, r, e, hlookup, hassess⟩, hmatch⟩
    rw [hlookup]
    have hneeds : found.code.needsDecompiling c.creation c.runtime ≠ true :=
      fun h => not_isMatch_of_needsDecompiling h hmatch
    -- What matches is not decompiled, so the entry is the one that the comparison gave.
    have hentry : r = .ok e := by
      cases settles_of_lookup hengine hlookup with
      | incomparable h => cases h.symm.trans hassess
      | plain h _ =>
        cases h.symm.trans hassess
        rfl
      | accounted h hneeds' _ =>
        cases h.symm.trans hassess
        exact absurd hneeds' hneeds
      | spoilt h hneeds' _ =>
        cases h.symm.trans hassess
        exact absurd hneeds' hneeds
    rw [hentry]
    exact (runtime_of_assess hassess).symm ▸ hmatch

end Survey

end Chain

/-- The survey after a build, with what was found on each chain. -/
def Verifier.findings (v : Verifier) (r : Request) (artifact : Artifact) (started ended : Seconds)
    (outside : Outside) : Schedule.State (Except Defect Chain.Findings × Except Defect Chain.Entry) :=
  Chain.Survey.withFindings v.settings v.engine (subjectOf r artifact)
    (Chain.Survey.ascending (Chain.Survey.requested v.settings r.chain)) (v.term started ended).1
    (v.term started ended).2 outside

namespace CommandLine

open Chain Survey

/-- A command line that asks for a verification, for which all is accepted and the build succeeds. -/
structure Builds (i : Invocation) (s : Surroundings) (world : World) (v : Verifier)
    (request : Request) (artifact : Artifact) (workshop : Build.Workshop) : Prop where
  command : ∃ draft tool, i.command = .verify draft tool ∧ Request.ofDraft draft = .ok request
  settings : settingsFor i s = .ok v.settings
  engine : Engine.ofName i.engine = .ok v.engine
  toolchain : Verifier.make v.settings v.engine = .ok v
  build : v.build request world.workshop = (.ok artifact, workshop)
  chains : requested v.settings request.chain ≠ []

variable {i : Invocation} {s : Surroundings} {world : World} {v : Verifier} {request : Request}
  {artifact : Artifact} {workshop : Build.Workshop}

theorem exists_printed_iff (report : Report) (json : Bool) :
    (∃ text, printed json report = .ok text) ↔ json = true ∨
      ∀ e ∈ report.entries, ∀ d, e.decompilation = some d → ∀ x ∈ d.abi, ∃ ms, x = .object ms := by
  cases json with
  | true => exact ⟨fun _ => .inl rfl, fun _ => ⟨_, rfl⟩⟩
  | false =>
    rw [← Report.exists_lines_iff]
    constructor
    · rintro ⟨text, h⟩
      obtain ⟨ls, hls, _⟩ := Except.bind_eq_ok_iff.mp h
      exact .inr ⟨ls, hls⟩
    · rintro (h | ⟨ls, hls⟩)
      · cases h
      · exact ⟨_, Except.bind_eq_ok_iff.mpr ⟨ls, hls, rfl⟩⟩

/-- After a build there is a report, and the run is its conclusion. -/
theorem run_of_builds (h : Builds i s world v request artifact workshop) :
    run i s world = conclude i (.ok ⟨some request, request.address,
      v.entries request artifact world.workshop.clock workshop.clock world.outside,
      some artifact⟩) := by
  obtain ⟨draft, tool, hi, hrequest⟩ := h.command
  have hreport := Verifier.verify_of_build (sensible_settingsFor h.settings) h.engine h.chains h.build
  rw [run, h.settings]
  dsimp only
  rw [h.engine]
  show (Verifier.make v.settings v.engine >>= fun v => conclude i (perform i v world)) = _
  rw [h.toolchain, ← (perform_eq_ok_iff hi).mpr ⟨request, hrequest, hreport⟩]
  rfl

theorem entries_match_iff (h : Builds i s world v request artifact workshop) :
    (∀ entry ∈ v.entries request artifact world.workshop.clock workshop.clock world.outside,
      entry.runtime.isMatch = true) ↔
    ∀ id ∈ requested v.settings request.chain, ∃ c, Compared
      (v.findings request artifact world.workshop.clock workshop.clock world.outside) (some artifact)
      id c ∧ c.runtime.isMatch = true := by
  rw [Verifier.entries, entriesOf, List.forall_mem_map]
  refine forall_congr' fun id => ?_
  rw [(ascending_perm _).mem_iff]
  exact imp_congr_right fun _ => isMatch_iff_compared h.engine _ id

/-- The exit status tells success when all comparisons match. A run breaks down over its report only
where it has to list an interface that is not made of objects. -/
theorem status_of_builds (h : Builds i s world v request artifact workshop) :
    (∀ output, run i s world = .ok output → (output.status = success ↔
      ∀ id ∈ requested v.settings request.chain, ∃ c, Compared
        (v.findings request artifact world.workshop.clock workshop.clock world.outside)
        (some artifact) id c ∧ c.runtime.isMatch = true)) ∧
    ((∃ output, run i s world = .ok output) ↔ i.json = true ∨
      ∀ e ∈ v.entries request artifact world.workshop.clock workshop.clock world.outside,
        ∀ d, e.decompilation = some d → ∀ x ∈ d.abi, ∃ ms, x = .object ms) := by
  obtain ⟨draft, tool, hi, _⟩ := h.command
  rw [run_of_builds h, ← entries_match_iff h]
  constructor
  · intro output houtput
    constructor
    · intro hstatus
      obtain ⟨report, hreport, hall, _⟩ := (conclude_success_iff hi).mp ⟨output, houtput, hstatus⟩
      cases hreport
      exact hall
    · intro hall
      obtain ⟨text, htext, hconclude⟩ := Except.bind_eq_ok_iff.mp houtput
      obtain ⟨output', houtput', hstatus⟩ :=
        (conclude_success_iff hi).mpr ⟨_, rfl, hall, text, htext⟩
      cases houtput.symm.trans houtput'
      exact hstatus
  · refine Iff.trans ?_ (exists_printed_iff ⟨some request, request.address, v.entries request artifact
      world.workshop.clock workshop.clock world.outside, some artifact⟩ i.json)
    constructor
    · rintro ⟨output, houtput⟩
      obtain ⟨text, htext, _⟩ := Except.bind_eq_ok_iff.mp houtput
      exact ⟨text, htext⟩
    · rintro ⟨text, htext⟩
      exact ⟨_, Except.bind_eq_ok_iff.mpr ⟨text, htext, rfl⟩⟩

/-- No engine decides anything. In any survey, what a chain's node told settles the entry: the verdicts,
the error and the metadata are those of the comparison, and at most an account or a note is added. Only
where nothing matched can a step of the outside engine that breaks the work take the entry's place. The
exit status of a verification is that of the comparisons in any case. -/
theorem engine_decides_nothing {name : Document} {engine : Engine}
    (hengine : Engine.ofName name = .ok engine) :
    (∀ (s : Settings) (subject : Subject) (chain : Document) (ids : List Int) (clock : Seconds)
        (deadline : Binary64) (outside : Outside),
      targets s chain = .ok ids → 0 ≤ s.maxInFlight →
      ∃ result, Survey.run s engine subject chain clock deadline outside = .ok result ∧
        ∀ id ∈ ids, ∀ found r,
          (withFindings s engine subject ids clock deadline outside).finished.lookup id =
            some (.ok found, r) →
          Investigation.Settled outside id subject.artifact found r ∧
            entryOf chain id r ∈ result.entries) ∧
    (∀ (i : Invocation) (s : Surroundings) (world : World) (v : Verifier) (request : Request)
        (artifact : Artifact) (workshop : Build.Workshop), v.engine = engine →
      Builds i s world v request artifact workshop →
      (∀ output, run i s world = .ok output → (output.status = success ↔
        ∀ id ∈ requested v.settings request.chain, ∃ c, Compared
          (v.findings request artifact world.workshop.clock workshop.clock world.outside)
          (some artifact) id c ∧ c.runtime.isMatch = true)) ∧
      ((∃ output, run i s world = .ok output) ↔ i.json = true ∨
        ∀ e ∈ v.entries request artifact world.workshop.clock workshop.clock world.outside,
          ∀ d, e.decompilation = some d → ∀ x ∈ d.abi, ∃ ms, x = .object ms)) := by
  constructor
  · intro s subject chain ids clock deadline outside htargets hslots
    refine ⟨_, run_of_targets htargets hslots, fun id hid found r h => ?_⟩
    exact settled_entries hengine _ chain hid h
  · intro i s world v request artifact workshop _ h
    exact status_of_builds h

/-- A node that has other code than what was built, and an engine that makes what it likes of it. -/
def otherCode (step : Tool.Step) : Outside where
  nodes := [("u1", [⟨0, .answered 200 "" (.document (.object [("result", .text "0x6001")]))⟩])]
  heimdall := [step]

def otherSubject : Subject :=
  ⟨"0x", some ⟨.contract ⟨"a.sol", "A"⟩, [0x60], [0x60], [], [], 0, .null⟩, none⟩

def mainnetOnly : Settings where
  chains := [⟨1, "mainnet", "u1"⟩]

def failingStep : Tool.Step := { exit := 1, stderr := "no" }

/-- A step that succeeds and leaves a text for an interface. -/
def leaving (text : String) : Tool.Step := { files := [("abi.json", text)] }

def otherDraft : Draft :=
  ⟨.text "r", .text "cccccccccccccccccccccccccccccccccccccccc", .written "a.sol:A",
    .text "0xabababababababababababababababababababab", .null, .text "default", .int 1⟩

def otherInvocation : Invocation :=
  ⟨.verify otherDraft (some "solc"), .int 1, .text "heimdall", false⟩

def otherSurroundings : Surroundings where
  environment := [("MAINNET_RPC_URL", "u1")]

/-- A clone with one source, a compiler that builds it, and a node that has other code. -/
def otherWorld (step : Tool.Step) : World where
  workshop :=
    { compiler := { output := .object [("contracts", .object [("a.sol", .object [("A", .object [("evm",
        .object [("bytecode", .object [("object", .text "60")]),
          ("deployedBytecode", .object [("object", .text "60")])])])])])] }
      repository := .ofFiles [("a.sol", "pragma solidity ^0.8.0; contract A {}")] }
  outside := otherCode step

def otherVerifier : Verifier :=
  ⟨{ chains := [⟨1, "mainnet", "u1"⟩], buildTool := "solc" }, .solc, .heimdall⟩

theorem builds_otherInvocation (step : Tool.Step) :
    ∃ request artifact workshop, Builds otherInvocation otherSurroundings (otherWorld step)
      otherVerifier request artifact workshop := by
  obtain ⟨artifact, hartifact⟩ : ∃ artifact, ((Request.ofDraft otherDraft).toOption.bind fun request =>
      (otherVerifier.build request (otherWorld {}).workshop).1.toOption) = some artifact :=
    Option.isSome_iff_exists.mp (by decide +kernel)
  obtain ⟨request, hrequest, hbuild⟩ := Option.bind_eq_some_iff.mp hartifact
  have hrequested : (Request.ofDraft otherDraft).toOption.map
      (fun r => requested otherVerifier.settings r.chain) = some [1] := by
    decide +kernel
  rw [hrequest, Option.map_some] at hrequested
  exact ⟨request, artifact, _, ⟨_, _, rfl, Except.eq_ok_of_toOption hrequest⟩, rfl, rfl, rfl,
    Prod.ext (Except.eq_ok_of_toOption hbuild) rfl, by simp [Option.some.inj hrequested]⟩

theorem engine_decides_nothing_failing :
    Engine.ofName (.text "heimdall") = .ok .heimdall ∧
    (∃ result, Survey.run mainnetOnly .heimdall otherSubject (.int 1) 0 (.ofInt 300)
        (otherCode failingStep) = .ok result ∧
      ∃ found r, (withFindings mainnetOnly .heimdall otherSubject [1] 0 (.ofInt 300)
          (otherCode failingStep)).finished.lookup 1 = some (.ok found, r) ∧
        Investigation.Settled (otherCode failingStep) 1 otherSubject.artifact found r ∧
        entryOf (.int 1) 1 r ∈ result.entries) ∧
    ∃ request artifact workshop, Builds otherInvocation otherSurroundings (otherWorld failingStep)
        otherVerifier request artifact workshop ∧
      ((∃ output, run otherInvocation otherSurroundings (otherWorld failingStep) = .ok output) ↔
        otherInvocation.json = true ∨ ∀ e ∈ otherVerifier.entries request artifact
          (otherWorld failingStep).workshop.clock workshop.clock (otherWorld failingStep).outside,
          ∀ d, e.decompilation = some d → ∀ x ∈ d.abi, ∃ ms, x = .object ms) := by
  have hengine : Engine.ofName (.text "heimdall") = .ok .heimdall := rfl
  obtain ⟨hsurvey, hstatus⟩ := engine_decides_nothing hengine
  refine ⟨hengine, ?_, ?_⟩
  · obtain ⟨result, hrun, hentries⟩ := hsurvey mainnetOnly otherSubject (.int 1) [1] 0 (.ofInt 300)
      (otherCode failingStep) rfl (by decide)
    obtain ⟨⟨_ | found, r⟩, hlookup, hfound⟩ := (Option.any_eq_true _ _).mp
      (by decide +kernel : ((withFindings mainnetOnly .heimdall otherSubject [1] 0 (.ofInt 300)
        (otherCode failingStep)).finished.lookup 1).any (fun r => r.1.toOption.isSome) = true)
    · cases hfound
    · exact ⟨result, hrun, found, r, hlookup, hentries 1 (by decide) found r hlookup⟩
  · obtain ⟨request, artifact, workshop, hbuilds⟩ := builds_otherInvocation failingStep
    exact ⟨request, artifact, workshop, hbuilds, (hstatus _ _ _ _ _ _ _ rfl hbuilds).2⟩

/-- A number for an interface takes the place of verdicts that were there, and an interface that is not
made of objects breaks down a run that has to list it. -/
theorem number_replaces_verdicts :
    (∃ found r c e, (withFindings mainnetOnly .heimdall otherSubject [1] 0 (.ofInt 300)
        (otherCode (leaving "5"))).finished.lookup 1 = some (.ok found, r) ∧
      Investigation.assess 1 otherSubject.artifact found = .ok (c, e) ∧ c.runtime = .different ∧
      e.error = none ∧ (entryOf (.int 1) 1 r).runtime = .absent ∧
      (entryOf (.int 1) 1 r).error = some "TypeError: 'int' object is not iterable") ∧
    ∀ output, run otherInvocation otherSurroundings (otherWorld (leaving "[5]")) ≠ .ok output := by
  constructor
  · obtain ⟨⟨_ | found, r⟩, hlookup, hcheck⟩ := (Option.any_eq_true _ _).mp
      (by decide +kernel : ((withFindings mainnetOnly .heimdall otherSubject [1] 0 (.ofInt 300)
        (otherCode (leaving "5"))).finished.lookup 1).any (fun r =>
          (r.1.toOption.bind fun found =>
            (Investigation.assess 1 otherSubject.artifact found).toOption).any (fun a =>
              a.1.runtime == .different && a.2.error == none) &&
          ((entryOf (.int 1) 1 r.2).runtime == .absent &&
            (entryOf (.int 1) 1 r.2).error == some "TypeError: 'int' object is not iterable")) = true)
    · cases hcheck
    · obtain ⟨hassess, hentry⟩ := Bool.and_eq_true_iff.mp hcheck
      obtain ⟨⟨c, e⟩, hassess, hverdict⟩ := (Option.any_eq_true _ _).mp hassess
      obtain ⟨hruntime, herror⟩ := Bool.and_eq_true_iff.mp hverdict
      obtain ⟨habsent, hcomplaint⟩ := Bool.and_eq_true_iff.mp hentry
      exact ⟨found, r, c, e, hlookup, Except.eq_ok_of_toOption hassess, eq_of_beq hruntime,
        eq_of_beq herror, eq_of_beq habsent, eq_of_beq hcomplaint⟩
  · intro output h
    have hnone : (run otherInvocation otherSurroundings
        (otherWorld (leaving "[5]"))).toOption.isNone = true := by
      decide +kernel
    rw [h] at hnone
    cases hnone

end CommandLine

end Attest
