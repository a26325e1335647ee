import Attest.Proofs.ExitStatus
import Attest.Proofs.ScheduleLog
import Attest.Proofs.SurveyEntries

/-! # What a verification does, and in which order

A verification either ends with one entry for each chain that was asked for, or is refused before it does
anything, or fails to build before it asks a node. It never builds after it has asked a node. -/

namespace Attest

/-! ## Times -/

/-- A time is past, or so close that a clock does not tell it from the present. -/
def Seconds.HasCome (t now : Seconds) : Prop := t ≤ now ∨ t < now.after Seconds.resolution

theorem Seconds.HasCome.later {t now later : Seconds} (h : t.HasCome now) (hle : now ≤ later) :
    t.HasCome later := by
  rcases h with h | h
  · exact .inl (h.trans hle)
  · exact .inr (h.trans_le (Seconds.nearest_mono (add_le_add_left hle _)))

/-! ## Building -/

/-- A command that gets or compiles a project. -/
def Tool.Command.IsBuild (c : Tool.Command) : Prop :=
  c.arguments.head? = some "git" ∨ c.arguments.head? = some "forge"

/-- A wait for anything but a build. -/
def Wait.BuildsNothing (w : Wait) : Prop := ∀ c, w = .run c → ¬c.IsBuild

theorem Wait.IsLocal.buildsNothing {url : String} {w : Wait} (h : w.IsLocal url) :
    w.BuildsNothing := by
  rintro c rfl
  exact h.elim

/-- An engine that builds nothing, whatever code it is given. -/
def Engine.BuildsNothing (engine : Engine) : Prop :=
  ∀ code, (engine.decompile code).All Wait.BuildsNothing fun _ => True

theorem Engine.buildsNothing_ofName {name : Document} {engine : Engine}
    (h : ofName name = .ok engine) : engine.BuildsNothing := by
  intro code
  rcases eq_of_ofName h with rfl | rfl
  · trivial
  · refine ⟨?_, fun answer => by cases answer <;> trivial⟩
    rintro c hc
    cases hc
    simp [Tool.Command.IsBuild, Engine.command]

theorem Report.assemble_of_chains {request : Option Request} {address : String}
    {entries : List Chain.Entry} {artifact : Option Artifact} {ids : List Int}
    (hchains : entries.map (·.chain) = ids) (hids : ids.Nodup) :
    assemble request address ids entries artifact = .ok ⟨request, address, entries, artifact⟩ := by
  subst hchains
  exact assemble_eq_ok hids

/-! ## Traces -/

namespace Verifier

/-- One thing that a verification does: a command or a call of the compiler library for the build, or an
event of the survey. -/
inductive Act where
  | command (c : Tool.Command)
  | compilation (call : Document)
  | event (e : Event)

namespace Act

/-- Something that builds, by whomever it is done. -/
def IsBuild : Act → Prop
  | command _ | compilation _ => True
  | event e => ∃ c, e.deed = .ran c ∧ c.IsBuild

def IsPost : Act → Prop
  | event e => ∃ url call id, e.deed = .posted url call id
  | _ => False

def command? : Act → Option Tool.Command
  | command c => some c
  | compilation _ => none
  | event e => match e.deed with
    | .ran c => some c
    | _ => none

def event? : Act → Option Event
  | event e => some e
  | _ => none

end Act

open Chain Survey

/-- What was done in a workshop. -/
def built (w : Build.Workshop) : List Act :=
  w.commands.map .command ++ w.compilerCalls.map .compilation

/-- What a verification does, one thing after the other. -/
def acts (v : Verifier) (r : Request) (world : World) : List Act :=
  match targets v.settings r.chain with
  | .error _ => []
  | .ok _ => built (v.build r world.workshop).2 ++ (v.verify r world).events.map .event

/-- How a verification ends: with an entry for each of some chains, or with a refusal and nothing done,
or with a failed build and no node asked. -/
inductive Ends (ids : List Int) (acts : List Act) : Except Failure Report → Prop where
  | reported {report : Report} (hchains : report.entries.map (·.chain) = ids)
      (hascending : ids.Pairwise (· < ·)) : Ends ids acts (.ok report)
  | refused {f : RequestFault} (hnothing : acts = []) : Ends ids acts (.error (.request f))
  | unbuilt {f : Build.Fault} (hposts : ∀ a ∈ acts, ¬a.IsPost) : Ends ids acts (.error (.build f))

/-- A verification that ends well or early, with the trace of what it did: nothing is posted before
anything is built, nor before the time at which the build ends. -/
structure InOrder (ids : List Int) (ended : Seconds) (acts : List Act) (x : Verification) :
    Prop where
  ending : Ends ids acts x.result
  commands : acts.filterMap Act.command? = x.commands
  events : acts.filterMap Act.event? = x.events
  order : acts.Pairwise fun a b => b.IsBuild → ¬a.IsPost
  times : ∀ e ∈ x.events, ended.HasCome e.time

theorem not_isPost_of_mem_built {w : Build.Workshop} : ∀ a ∈ built w, ¬a.IsPost := by
  intro a ha
  rcases List.mem_append.mp ha with ha | ha
  · obtain ⟨c, _, rfl⟩ := List.mem_map.mp ha
    exact id
  · obtain ⟨call, _, rfl⟩ := List.mem_map.mp ha
    exact id

theorem command?_built (w : Build.Workshop) : (built w).filterMap Act.command? = w.commands := by
  simp [built, List.filterMap_append, List.filterMap_map, Function.comp_def, Act.command?]

theorem event?_built (w : Build.Workshop) : (built w).filterMap Act.event? = [] := by
  simp [built, List.filterMap_append, List.filterMap_map, Function.comp_def, Act.event?]

theorem command?_events (events : List Event) :
    (events.map Act.event).filterMap Act.command? = commandsIn events := by
  rw [List.filterMap_map]
  rfl

theorem event?_events (events : List Event) :
    (events.map Act.event).filterMap Act.event? = events := by
  rw [List.filterMap_map]
  exact List.filterMap_some

/-- Events from some time on, none of which builds anything. -/
def IsSurvey (start : Seconds) (events : List Event) : Prop :=
  Schedule.LogFits start (fun _ => Wait.BuildsNothing) events

theorem IsSurvey.not_isBuild {start : Seconds} {events : List Event} (h : IsSurvey start events) :
    ∀ a ∈ events.map Act.event, ¬a.IsBuild := by
  intro a ha
  obtain ⟨e, he, rfl⟩ := List.mem_map.mp ha
  rintro ⟨c, hdeed, hbuild⟩
  have hmeets := (h e he).deed
  rw [hdeed] at hmeets
  exact hmeets c rfl hbuild

/-- A build and then a survey. -/
theorem pairwise_built {w : Build.Workshop} {start : Seconds} {events : List Event}
    (h : IsSurvey start events) :
    (built w ++ events.map Act.event).Pairwise fun a b => b.IsBuild → ¬a.IsPost := by
  rw [List.pairwise_append]
  refine ⟨?_, ?_, fun a ha b hb _ => not_isPost_of_mem_built a ha⟩
  · exact List.pairwise_of_forall_mem_list fun a ha b hb _ => not_isPost_of_mem_built a ha
  · exact List.pairwise_of_forall_mem_list fun a ha b hb hbuild => absurd hbuild (h.not_isBuild b hb)

/-! ## Verifications -/

variable {v : Verifier} {chain : Document} {ids : List Int}

theorem targets_of_key (hkey : ∃ key, chain.asKey = .ok key) :
    (∃ ids, targets v.settings chain = .ok ids) ∨
      ∃ f, targets v.settings chain = .error (.fault f) := by
  obtain ⟨key, hkey⟩ := hkey
  unfold targets
  split
  · split
    · exact .inr ⟨_, rfl⟩
    · exact .inl ⟨_, rfl⟩
  · rw [hkey]
    simp only [Except.mapError_ok, bind, Except.bind]
    split
    · exact .inl ⟨_, rfl⟩
    · exact .inr ⟨_, rfl⟩

theorem isSurvey_log (hengine : v.engine.BuildsNothing) {subject : Subject} {clock : Seconds}
    {deadline : Binary64} {outside : Outside} :
    IsSurvey clock
      (schedule v.settings clock deadline outside (jobs v.settings v.engine subject ids)).log := by
  apply Schedule.run_logFits
  intro job hjob
  obtain ⟨id, _, e, _, rfl⟩ := mem_jobs.mp hjob
  exact (Investigation.investigate_waits (.ofSettings e v.settings) subject
    (fun w hw => Wait.IsLocal.buildsNothing hw) hengine).imp fun _ _ => trivial

theorem conclude_ok {request : Option Request} {address : String} {artifact : Option Artifact}
    {before : List Tool.Command} {result : Survey.Result}
    (hchains : result.entries.map (·.chain) = ids) (hids : ids.Nodup) :
    conclude request address ids artifact before (.ok result) =
      ⟨.ok ⟨request, address, result.entries, artifact⟩,
        before ++ commandsIn result.final.log, result.final.log⟩ := by
  rw [conclude, Report.assemble_of_chains hchains hids]
  rfl

/-- A survey ends in a report with an entry for each of the chains. -/
theorem conclude_of_targets (hs : v.settings.Sensible) (hengine : v.engine.BuildsNothing)
    (htargets : targets v.settings chain = .ok ids) (request : Option Request) (address : String)
    (artifact : Option Artifact) (before : List Tool.Command) (subject : Subject) (clock : Seconds)
    (deadline : Binary64) (outside : Outside) :
    ∃ report events,
      conclude request address ids artifact before
          (Survey.run v.settings v.engine subject chain clock deadline outside) =
        ⟨.ok report, before ++ commandsIn events, events⟩ ∧
      report.entries.map (·.chain) = ids ∧ IsSurvey clock events := by
  have hslots : 0 ≤ v.settings.maxInFlight := by
    have := hs.slots
    omega
  have hchains : (entriesOf deadline.text (spelling? chain) ids (schedule v.settings clock deadline
      outside (jobs v.settings v.engine subject ids))).map (·.chain) = ids := chains_entriesOf _ _
  have hnodup : ids.Nodup := (pairwise_targets hs.chains htargets).imp ne_of_lt
  rw [run_of_targets htargets hslots]
  exact ⟨_, _, conclude_ok hchains hnodup, hchains, isSurvey_log hengine⟩

theorem verify_of_refused {r : Request} {world : World} {f : Request.Refusal}
    (h : targets v.settings r.chain = .error f) :
    v.verify r world = ⟨.error (.ofRequest f), [], []⟩ := by
  rw [verify, h]

theorem verify_of_unbuilt {r : Request} {world : World} {f : Failure}
    (htargets : targets v.settings r.chain = .ok ids) (hbuild : (v.build r world.workshop).1 = .error f) :
    v.verify r world = ⟨.error f, (v.build r world.workshop).2.commands, []⟩ := by
  rw [verify, htargets]
  dsimp only
  rw [hbuild]

theorem hasCome_resumption {deadline : Binary64} {started ended : Seconds}
    (h : isLate deadline started ended = false) :
    ended.HasCome (resumption deadline started ended) := by
  cases deadline with
  | finite negative mantissa exponent =>
    generalize hdeadline : Binary64.finite negative mantissa exponent = deadline at h ⊢
    have hexpiry : Expiry.after started deadline =
        .at (started.after (deadline.toRat?.getD 0)) := by
      subst hdeadline
      rfl
    have hsoon : ended < (started.after (deadline.toRat?.getD 0)).after Seconds.resolution := by
      subst hdeadline
      simpa [isLate] using h
    rw [resumption, hexpiry]
    dsimp only
    split
    · exact .inr hsoon
    · exact .inl le_rfl
  | infinite negative => cases negative <;> exact .inl le_rfl
  | undefined => exact .inl le_rfl

theorem isLate_of_built {r : Request} {w : Build.Workshop} {artifact : Artifact}
    (h : (v.build r w).1 = .ok artifact) :
    isLate v.settings.deadline w.clock (v.build r w).2.clock = false := by
  cases hrun : (Build.build v.toolchain ⟨r.repository, r.commit, r.contract, r.profile⟩
      (some v.settings.deadline)).run.run w with
  | mk result after =>
    simp only [build, hrun] at h ⊢
    split at h
    · cases h
    · rename_i hlate
      rw [if_neg hlate]
      simpa using hlate

/-- After a build, a verification is a survey. -/
theorem verify_of_built (hs : v.settings.Sensible) (hengine : v.engine.BuildsNothing) {r : Request}
    {world : World} (htargets : targets v.settings r.chain = .ok ids) {artifact : Artifact}
    (hbuild : (v.build r world.workshop).1 = .ok artifact) :
    ∃ report events,
      v.verify r world = ⟨.ok report,
        (v.build r world.workshop).2.commands ++ commandsIn events, events⟩ ∧
      report.entries.map (·.chain) = ids ∧
      IsSurvey (resumption v.settings.deadline world.workshop.clock
        (v.build r world.workshop).2.clock) events := by
  rw [verify, htargets]
  dsimp only
  rw [hbuild]
  exact conclude_of_targets hs hengine htargets _ _ _ _ _ _ _ _

theorem verify_inOrder (hs : v.settings.Sensible) (hengine : v.engine.BuildsNothing) {r : Request}
    {world : World} (hkey : ∃ key, r.chain.asKey = .ok key)
    (hbuild : (∃ artifact, (v.build r world.workshop).1 = .ok artifact) ∨
      ∃ f, (v.build r world.workshop).1 = .error (.build f)) :
    InOrder (ascending (requested v.settings r.chain)) (v.build r world.workshop).2.clock
      (v.acts r world) (v.verify r world) := by
  rcases targets_of_key hkey with ⟨ids, htargets⟩ | ⟨f, htargets⟩
  · obtain ⟨rfl, -⟩ := (targets_eq_ok_iff hs.chains).mp htargets
    have hascending := pairwise_targets hs.chains htargets
    rw [acts, htargets]
    dsimp only
    rcases hbuild with ⟨artifact, hbuild⟩ | ⟨f, hbuild⟩
    · obtain ⟨report, events, hverify, hchains, hevents⟩ :=
        verify_of_built hs hengine htargets hbuild
      rw [hverify]
      refine ⟨.reported hchains hascending, ?_, ?_, pairwise_built hevents, fun e he => ?_⟩
      · rw [List.filterMap_append, command?_built, command?_events]
      · rw [List.filterMap_append, event?_built, event?_events, List.nil_append]
      · exact (hasCome_resumption (isLate_of_built hbuild)).later (hevents e he).time
    · rw [verify_of_unbuilt htargets hbuild, List.map_nil, List.append_nil]
      refine ⟨.unbuilt not_isPost_of_mem_built, command?_built _, event?_built _, ?_, by simp⟩
      exact List.pairwise_of_forall_mem_list fun a ha b hb _ => not_isPost_of_mem_built a ha
  · rw [acts, htargets, verify_of_refused htargets]
    exact ⟨.refused rfl, rfl, rfl, .nil, by simp⟩

/-! ## Inspections -/

theorem readAddress_cases {address : Document} (h : address.isGiven → ∃ s, address = .text s) :
    (∃ a, Request.readAddress address = .ok a) ∨
      ∃ f, Request.readAddress address = .error (.fault f) := by
  rw [Request.readAddress, Request.requireForm]
  split
  · rename_i hgiven
    obtain ⟨s, rfl⟩ := h hgiven
    rw [Request.readForm]
    split
    · exact .inl ⟨_, rfl⟩
    · exact .inr ⟨_, rfl⟩
  · exact .inr ⟨_, rfl⟩

theorem inspect_inOrder (hs : v.settings.Sensible) (hengine : v.engine.BuildsNothing)
    {address : Document} {world : World} (haddress : address.isGiven → ∃ s, address = .text s)
    (hkey : ∃ key, chain.asKey = .ok key) :
    InOrder (ascending (requested v.settings chain)) world.workshop.clock
      ((v.inspect address chain world).events.map .event) (v.inspect address chain world) := by
  rw [inspect]
  rcases readAddress_cases haddress with ⟨a, ha⟩ | ⟨f, hf⟩
  · rw [ha]
    dsimp only
    rcases targets_of_key hkey with ⟨ids, htargets⟩ | ⟨f, htargets⟩
    · rw [htargets]
      dsimp only
      obtain ⟨rfl, -⟩ := (targets_eq_ok_iff hs.chains).mp htargets
      obtain ⟨report, events, hconclude, hchains, hevents⟩ :=
        conclude_of_targets hs hengine htargets none a none [] ⟨a, none, none⟩ world.workshop.clock
          v.settings.deadline world.outside
      rw [hconclude]
      refine ⟨.reported hchains (pairwise_targets hs.chains htargets), ?_, event?_events events, ?_,
        fun e he => .inl (hevents e he).time⟩
      · rw [command?_events, List.nil_append]
      · apply List.pairwise_of_forall_mem_list
        exact fun a _ b hb hbuild => absurd hbuild (hevents.not_isBuild b hb)
    · rw [htargets]
      exact ⟨.refused rfl, rfl, rfl, .nil, by simp⟩
  · rw [hf]
    exact ⟨.refused rfl, rfl, rfl, .nil, by simp⟩

/-- For every world and whatever nodes and programs do in it, verifications and inspections are in
order: they end with one entry for each chain that was asked for, in ascending order, or are refused
before anything is done, or fail to build before any node is asked. -/
theorem one_entry_each (hs : v.settings.Sensible) (hengine : v.engine.BuildsNothing) (world : World) :
    (∀ r : Request, (∃ key, r.chain.asKey = .ok key) →
      ((∃ artifact, (v.build r world.workshop).1 = .ok artifact) ∨
        ∃ f, (v.build r world.workshop).1 = .error (.build f)) →
      InOrder (ascending (requested v.settings r.chain)) (v.build r world.workshop).2.clock
        (v.acts r world) (v.verify r world)) ∧
    ∀ address chain : Document, (address.isGiven → ∃ s, address = .text s) →
      (∃ key, chain.asKey = .ok key) →
      InOrder (ascending (requested v.settings chain)) world.workshop.clock
        ((v.inspect address chain world).events.map .event) (v.inspect address chain world) := by
  constructor
  · intro r hkey hbuild
    exact verify_inOrder hs hengine hkey hbuild
  · intro address chain haddress hkey
    exact inspect_inOrder hs hengine haddress hkey

/-- A clone with one source, and a compiler that knows what comes of it. -/
def oneSource : Build.Workshop where
  compiler := { output := .object [("contracts", .object [("a.sol", .object [("A", .object [("evm",
    .object [("bytecode", .object [("object", .text "60")]),
      ("deployedBytecode", .object [("object", .text "60")])])])])])] }
  repository := .ofFiles [("a.sol", "pragma solidity ^0.8.0; contract A {}")]

/-- A verifier for one chain that compiles by the library and decompiles by the outside engine. -/
def forMainnet : Verifier :=
  ⟨{ chains := [⟨1, "mainnet", "u1"⟩], buildTool := "solc" }, .solc, .heimdall⟩

def sourceRequest : Request :=
  ⟨.text "r", "c", .contract ⟨"a.sol", "A"⟩, "0x", none, .text "default", .null⟩

theorem one_entry_each_mainnet :
    forMainnet.settings.Sensible ∧ forMainnet.engine.BuildsNothing ∧
      (∃ artifact, (forMainnet.build sourceRequest oneSource).1 = .ok artifact) ∧
      InOrder (ascending [1]) (forMainnet.build sourceRequest oneSource).2.clock
        (forMainnet.acts sourceRequest ⟨oneSource, {}⟩) (forMainnet.verify sourceRequest ⟨oneSource, {}⟩) ∧
      InOrder (ascending [1]) 0
        ((forMainnet.inspect (.text "0x12") (.int 1) ⟨oneSource, {}⟩).events.map .event)
        (forMainnet.inspect (.text "0x12") (.int 1) ⟨oneSource, {}⟩) := by
  have hs : forMainnet.settings.Sensible := ⟨by decide, by decide⟩
  have hengine : forMainnet.engine.BuildsNothing :=
    Engine.buildsNothing_ofName (rfl : Engine.ofName (.text "heimdall") = .ok Engine.heimdall)
  have hbuild : ∃ artifact, (forMainnet.build sourceRequest oneSource).1 = .ok artifact := by
    have hok : (forMainnet.build sourceRequest oneSource).1.toOption.isSome = true := by
      decide +kernel
    obtain ⟨artifact, h⟩ := Option.isSome_iff_exists.mp hok
    exact ⟨artifact, Except.eq_ok_of_toOption h⟩
  obtain ⟨hverify, hinspect⟩ := one_entry_each hs hengine ⟨oneSource, {}⟩
  refine ⟨hs, hengine, hbuild, hverify sourceRequest ⟨_, rfl⟩ (.inl hbuild), ?_⟩
  exact hinspect (.text "0x12") (.int 1) (fun _ => ⟨_, rfl⟩) ⟨_, rfl⟩

end Verifier

end Attest
