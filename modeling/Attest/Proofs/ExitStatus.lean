import Attest.Proofs.MatchedEntries
import Attest.Proofs.SettingsLoaded

/-! When a verification exits with success: everything before the survey succeeds, chains were asked
for, and each of them came to its end in time with a final answer that matches what was built. -/

namespace Attest

/-! ### Reports -/

namespace Report

theorem assemble_eq_ok {request : Option Request} {address : String} {entries : List Chain.Entry}
    {artifact : Option Artifact} (h : (entries.map (·.chain)).Nodup) :
    assemble request address (entries.map (·.chain)) entries artifact =
      .ok ⟨request, address, entries, artifact⟩ :=
  if_pos ⟨rfl, h⟩

/-- A report can be shown when it holds no account of code. -/
theorem exists_lines {r : Report} (h : ∀ e ∈ r.entries, e.decompilation = none) :
    ∃ ls, r.lines = .ok ls := by
  have hentries (es : List Chain.Entry) (h : ∀ e ∈ es, e.decompilation = none) :
      ∃ ls, es.mapM entryLines = .ok ls := by
    induction es with
    | nil => exact ⟨[], rfl⟩
    | cons e es ih =>
      obtain ⟨ls, hls⟩ := ih fun e he => h e (List.mem_cons_of_mem _ he)
      rw [List.mapM_cons, hls, entryLines, h e List.mem_cons_self]
      exact ⟨_, rfl⟩
  obtain ⟨ls, hls⟩ := hentries r.entries h
  rw [lines, hls]
  exact ⟨_, rfl⟩

end Report

/-! ### Verifications -/

namespace Verifier

open Chain Survey

variable {v : Verifier} {name : Document} {r : Request} {world : World} {artifact : Artifact}
  {workshop : Build.Workshop}

/-- What a request asks to be surveyed, given what was built. -/
def subjectOf (r : Request) (artifact : Artifact) : Subject :=
  ⟨r.address, some artifact, r.creationTransaction⟩

/-- When the survey of a build begins, and how long it may take. -/
def term (v : Verifier) (started ended : Seconds) : Seconds × Binary64 :=
  let now := resumption v.settings.deadline started ended
  (now, remaining v.settings.deadline (now.since started))

/-- The survey after a build, with what each node was asked and told. -/
def transcript (v : Verifier) (r : Request) (artifact : Artifact) (started ended : Seconds)
    (outside : Outside) : Schedule.State (Except Defect Entry × List Exchange) :=
  Survey.transcript v.settings v.engine (subjectOf r artifact)
    (ascending (requested v.settings r.chain)) (v.term started ended).1 (v.term started ended).2
    outside

/-- The entries of the survey after a build. -/
def entries (v : Verifier) (r : Request) (artifact : Artifact) (started ended : Seconds)
    (outside : Outside) : List Entry :=
  entriesOf (v.term started ended).2.text (spelling? r.chain)
    (ascending (requested v.settings r.chain))
    (schedule v.settings (v.term started ended).1 (v.term started ended).2 outside
      (jobs v.settings v.engine (subjectOf r artifact)
        (ascending (requested v.settings r.chain))))

theorem build_of_verify {report : Report} (h : (v.verify r world).result = .ok report) :
    ∃ ids artifact workshop, targets v.settings r.chain = .ok ids ∧
      v.build r world.workshop = (.ok artifact, workshop) := by
  rw [verify] at h
  cases htargets : targets v.settings r.chain with
  | error f =>
    rw [htargets] at h
    cases h
  | ok ids =>
    cases hbuild : v.build r world.workshop with
    | mk built workshop =>
      rw [htargets, hbuild] at h
      cases built with
      | error f => cases h
      | ok artifact => exact ⟨ids, artifact, workshop, rfl, rfl⟩

section Built

variable (hs : v.settings.Sensible) (hengine : Engine.ofName name = .ok v.engine)
include hs

theorem endpoint_of_requested {id : Int} (hid : id ∈ ascending (requested v.settings r.chain)) :
    ∃ e, v.settings.endpoint? id = some e := by
  have hne := List.ne_nil_of_mem ((ascending_perm _).mem_iff.mp hid)
  exact endpoint_of_targets ((targets_eq_ok_iff hs.chains).mpr ⟨rfl, hne⟩) hid

include hengine

/-- After a build, a verification gives a report. -/
theorem verify_of_build (hrequested : requested v.settings r.chain ≠ [])
    (hbuild : v.build r world.workshop = (.ok artifact, workshop)) :
    (v.verify r world).result = .ok ⟨some r, r.address,
      v.entries r artifact world.workshop.clock workshop.clock world.outside, some artifact⟩ := by
  have htargets := (targets_eq_ok_iff hs.chains).mpr ⟨rfl, hrequested⟩
  have hslots : 0 ≤ v.settings.maxInFlight := by
    have := hs.slots
    omega
  have hchains : (v.entries r artifact world.workshop.clock workshop.clock world.outside).map
      (·.chain) = ascending (requested v.settings r.chain) :=
    map_chain_entriesOf hengine rfl (fun _ hid => endpoint_of_requested hs hid) _ _
  have hassemble : Report.assemble (some r) r.address (ascending (requested v.settings r.chain))
      (v.entries r artifact world.workshop.clock workshop.clock world.outside) (some artifact) =
        .ok ⟨some r, r.address,
          v.entries r artifact world.workshop.clock workshop.clock world.outside,
          some artifact⟩ := by
    rw [← hchains]
    apply Report.assemble_eq_ok
    rw [hchains]
    exact (pairwise_targets hs.chains htargets).imp ne_of_lt
  rw [verify, htargets, hbuild]
  dsimp only
  rw [run_of_targets htargets hslots, conclude]
  exact congrArg (Except.mapError _) hassemble

/-- An entry of the report matches when its chain does. -/
theorem all_entries_iff (artifact : Artifact) (started ended : Seconds) (outside : Outside) :
    (∀ entry ∈ v.entries r artifact started ended outside, entry.runtime.isMatch = true) ↔
      ∀ id ∈ requested v.settings r.chain, ∃ e, v.settings.endpoint? id = some e ∧
        Matches (v.transcript r artifact started ended outside) artifact e := by
  refine (all_entriesOf_iff hengine rfl (fun _ hid => endpoint_of_requested hs hid) _ _).trans ?_
  refine forall_congr' fun id => ?_
  rw [(ascending_perm _).mem_iff]
  rfl

theorem decompilation_of_entries {started ended : Seconds} {outside : Outside} {entry : Entry}
    (hentry : entry ∈ v.entries r artifact started ended outside)
    (hmatch : entry.runtime.isMatch = true) : entry.decompilation = none := by
  obtain ⟨e, _, _, hreflects⟩ :=
    mem_entriesOf hengine rfl (fun _ hid => endpoint_of_requested hs hid) hentry
  exact hreflects.decompilation hmatch

end Built

end Verifier

/-! ### Command lines -/

namespace CommandLine

variable {i : Invocation} {draft : Draft} {tool : Option String} {s : Surroundings} {world : World}

/-- A verification's success is a report that could be shown and in which all entries match. -/
theorem conclude_success_iff (hi : i.command = .verify draft tool) {result : Except Failure Report} :
    (∃ output, conclude i result = .ok output ∧ output.status = success) ↔
      ∃ report, result = .ok report ∧ (∀ entry ∈ report.entries, entry.runtime.isMatch = true) ∧
        ∃ text, printed i.json report = .ok text := by
  constructor
  · rintro ⟨output, houtput, hstatus⟩
    cases result with
    | error f =>
      cases f with
      | request f =>
        cases houtput
        cases hstatus
      | build f =>
        cases houtput
        cases hstatus
      | defect d => cases houtput
    | ok report =>
      obtain ⟨text, htext, houtput⟩ := Except.bind_eq_ok_iff.mp houtput
      cases houtput
      refine ⟨report, rfl, ?_, text, htext⟩
      by_cases hall : report.entries.all (·.runtime.isMatch) = true
      · exact List.all_eq_true.mp hall
      · rw [hi, status, if_neg hall] at hstatus
        cases hstatus
  · rintro ⟨report, rfl, hall, text, htext⟩
    refine ⟨⟨success, text, ""⟩, ?_, rfl⟩
    rw [conclude, htext, hi, status, if_pos (List.all_eq_true.mpr hall)]
    rfl

theorem exists_printed {report : Report} (h : ∀ e ∈ report.entries, e.decompilation = none)
    (json : Bool) : ∃ text, printed json report = .ok text := by
  cases json with
  | true => exact ⟨_, rfl⟩
  | false =>
    obtain ⟨ls, hls⟩ := Report.exists_lines h
    rw [printed, hls]
    exact ⟨_, rfl⟩

theorem perform_eq_ok_iff (hi : i.command = .verify draft tool) {v : Verifier} {report : Report} :
    perform i v world = .ok report ↔
      ∃ request, Request.ofDraft draft = .ok request ∧
        (v.verify request world).result = .ok report := by
  rw [perform, hi]
  dsimp only
  cases Request.ofDraft draft with
  | error f =>
    constructor
    · exact fun h => nomatch h
    · rintro ⟨request, hrequest, _⟩
      cases hrequest
  | ok request =>
    constructor
    · exact fun hreport => ⟨request, rfl, hreport⟩
    · rintro ⟨request', hrequest, hreport⟩
      cases hrequest
      exact hreport

theorem make_eq_ok {settings : Settings} {engine : Engine} {v : Verifier}
    (h : Verifier.make settings engine = .ok v) : v.settings = settings ∧ v.engine = engine := by
  obtain ⟨toolchain, _, h⟩ := Except.bind_eq_ok_iff.mp h
  cases h
  exact ⟨rfl, rfl⟩

/-- What a verification has to come to: settings, an engine, a toolchain and a request that are
accepted, a build, and at least one chain that was asked for, all of which match. -/
def Verifies (i : Invocation) (draft : Draft) (s : Surroundings) (world : World) : Prop :=
  ∃ settings engine v request artifact workshop,
    settingsFor i s = .ok settings ∧ Engine.ofName i.engine = .ok engine ∧
    Verifier.make settings engine = .ok v ∧ Request.ofDraft draft = .ok request ∧
    v.build request world.workshop = (.ok artifact, workshop) ∧
    Chain.Survey.requested settings request.chain ≠ [] ∧
    ∀ id ∈ Chain.Survey.requested settings request.chain,
      ∃ e, settings.endpoint? id = some e ∧ Chain.Survey.Matches
        (v.transcript request artifact world.workshop.clock workshop.clock world.outside) artifact e

theorem verifies_of_run (hi : i.command = .verify draft tool) {output : Output}
    (h : run i s world = .ok output) (hstatus : output.status = success) :
    Verifies i draft s world := by
  rw [run] at h
  cases hsettings : settingsFor i s with
  | error f =>
    rw [hsettings] at h
    cases h
    cases hstatus
  | ok settings =>
    rw [hsettings] at h
    obtain ⟨engine, hengine, h⟩ := Except.bind_eq_ok_iff.mp h
    obtain ⟨v, hv, h⟩ := Except.bind_eq_ok_iff.mp h
    obtain ⟨report, hreport, hall, _⟩ := (conclude_success_iff hi).mp ⟨output, h, hstatus⟩
    obtain ⟨request, hrequest, hreport⟩ := (perform_eq_ok_iff hi).mp hreport
    obtain ⟨rfl, rfl⟩ := make_eq_ok hv
    obtain ⟨ids, artifact, workshop, htargets, hbuild⟩ := Verifier.build_of_verify hreport
    have hsensible := sensible_settingsFor hsettings
    have hne := ((Chain.Survey.targets_eq_ok_iff hsensible.chains).mp htargets).2
    obtain rfl := Except.ok.inj
      ((Verifier.verify_of_build hsensible hengine hne hbuild).symm.trans hreport)
    exact ⟨_, _, v, request, artifact, workshop, hsettings, hengine, hv, hrequest, hbuild, hne,
      (Verifier.all_entries_iff hsensible hengine _ _ _ _).mp hall⟩

theorem run_of_verifies (hi : i.command = .verify draft tool) (h : Verifies i draft s world) :
    ∃ output, run i s world = .ok output ∧ output.status = success := by
  obtain ⟨settings, engine, v, request, artifact, workshop, hsettings, hengine, hv, hrequest, hbuild,
    hne, hmatch⟩ := h
  obtain ⟨rfl, rfl⟩ := make_eq_ok hv
  have hsensible := sensible_settingsFor hsettings
  have hreport := Verifier.verify_of_build hsensible hengine hne hbuild
  have hall := (Verifier.all_entries_iff hsensible hengine _ _ _ _).mpr hmatch
  have hperform := (perform_eq_ok_iff hi).mpr ⟨request, hrequest, hreport⟩
  obtain ⟨output, houtput, hstatus⟩ :=
    (conclude_success_iff hi).mpr ⟨_, hperform, hall, exists_printed (fun entry he =>
      Verifier.decompilation_of_entries hsensible hengine he (hall entry he)) i.json⟩
  refine ⟨output, ?_, hstatus⟩
  rw [run, hsettings]
  exact Except.bind_eq_ok_iff.mpr ⟨_, hengine, Except.bind_eq_ok_iff.mpr ⟨v, hv, houtput⟩⟩

/-- A command line that asks for a verification exits with success just when it verifies. -/
theorem exit_success_iff (arguments : List String) (s : Surroundings) (world : World) :
    (∃ i draft tool output, read arguments = .ok i ∧ i.command = .verify draft tool ∧
        run i s world = .ok output ∧ output.status = success) ↔
      ∃ i draft tool, read arguments = .ok i ∧ i.command = .verify draft tool ∧
        Verifies i draft s world := by
  constructor
  · rintro ⟨i, draft, tool, output, hread, hi, hrun, hstatus⟩
    exact ⟨i, draft, tool, hread, hi, verifies_of_run hi hrun hstatus⟩
  · rintro ⟨i, draft, tool, hread, hi, hverifies⟩
    obtain ⟨output, hrun, hstatus⟩ := run_of_verifies hi hverifies
    exact ⟨i, draft, tool, output, hread, hi, hrun, hstatus⟩

end CommandLine

end Attest
