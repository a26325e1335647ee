import Attest.Proofs.BuildAlike
import Attest.Proofs.ChainIsolation
import Attest.Proofs.ExitStatus
import Attest.Proofs.PrintedMembers
import Attest.Proofs.Timeless
import Attest.Proofs.VerificationOrder
import Attest.Proofs.WritableDocuments

/-! # What timing can change in a report

Two verifications that get the same answers, sooner or later, and in which the same chains come to their
end, tell the same. Only the entry of a cancelled chain shows how much time the build had left. -/

namespace Attest

open Activity

/-! ### Nodes that reply the same, sooner or later -/

/-- Outsides that differ in time only. -/
structure Outside.Alike (o o' : Outside) : Prop where
  nodes : ∀ url, (o.script url).map (·.reply) = (o'.script url).map (·.reply)
  heimdall : o.heimdall.map Tool.Step.untimed = o'.heimdall.map Tool.Step.untimed

/-- What a node with a script replies to a wait, and what is left of the script. -/
def Node.respond (script : List Response) : (w : Wait) → Option w.Answer × List Response
  | .post .. => (some (script.head?.getD .silence).reply, script.tail)
  | .pause _ => (some (), script)
  | .run _ => (none, script)

/-- Turns that were answered by a node with a script, one after the other. -/
inductive Answered : List Node.Response → List Turn → Prop
  | nil (script : List Node.Response) : Answered script []
  | cons {script : List Node.Response} {turns : List Turn} (w : Wait)
      (h : Answered (Node.respond script w).2 turns) :
      Answered script (⟨w, (Node.respond script w).1⟩ :: turns)

theorem Node.respond_alike {script script' : List Response}
    (h : script.map (·.reply) = script'.map (·.reply)) (w : Wait) :
    (respond script w).1 = (respond script' w).1 ∧
      (respond script w).2.map (·.reply) = (respond script' w).2.map (·.reply) := by
  cases w with
  | pause span => exact ⟨rfl, h⟩
  | run command => exact ⟨rfl, h⟩
  | post url call =>
    cases script with
    | nil =>
      rw [List.map_eq_nil_iff.mp h.symm]
      exact ⟨rfl, rfl⟩
    | cons r script =>
      cases script' with
      | nil => cases h
      | cons r' script' =>
        obtain ⟨hreply, hrest⟩ := List.cons.inj h
        exact ⟨congrArg some hreply, hrest⟩

/-- Scripts with the same replies give the same answers. -/
theorem Answered.sameAnswers {script script' : List Node.Response} {turns turns' : List Turn}
    (h : Answered script turns) (h' : Answered script' turns')
    (hscript : script.map (·.reply) = script'.map (·.reply)) : SameAnswers turns turns' := by
  intro before
  -- along a common beginning both scripts give way at the same places, and stay alike
  induction before generalizing script script' turns turns' with
  | nil =>
    intro t t' ht ht' hwait
    cases h with
    | nil => cases List.prefix_nil.mp ht
    | cons w h =>
      cases h' with
      | nil => cases List.prefix_nil.mp ht'
      | cons w' h' =>
        obtain ⟨rfl, _⟩ := List.cons_prefix_cons.mp ht
        obtain ⟨rfl, _⟩ := List.cons_prefix_cons.mp ht'
        obtain rfl : w = w' := hwait
        rw [(Node.respond_alike hscript w).1]
  | cons u before ih =>
    intro t t' ht ht' hwait
    cases h with
    | nil => cases List.prefix_nil.mp ht
    | cons w h =>
      cases h' with
      | nil => cases List.prefix_nil.mp ht'
      | cons w' h' =>
        obtain ⟨hu, hrest⟩ := List.cons_prefix_cons.mp ht
        obtain ⟨hu', hrest'⟩ := List.cons_prefix_cons.mp ht'
        obtain rfl : w = w' := congrArg Turn.wait (hu.symm.trans hu')
        exact ih h h' (Node.respond_alike hscript w).2 t t' hrest hrest' hwait

/-- A wait for a node is served with what its script says. -/
theorem Outside.serve_respond {url : String} {w : Wait} (hw : w.IsLocal url) (o : Outside) :
    some (o.serve w).1.2 = (Node.respond (o.script url) w).1 ∧
      (o.serve w).2.script url = (Node.respond (o.script url) w).2 := by
  cases w with
  | pause span => exact ⟨rfl, rfl⟩
  | run command => exact hw.elim
  | post u call =>
    obtain rfl : u = url := hw
    exact ⟨congrArg (fun r => some r.reply) (take_fst u o.nodes), lookup_take_self u o.nodes⟩

/-- Alone with its node, the work on a chain is answered by the node's script, if at all. -/
theorem answered_of_outcome {url : String} {q : α → Prop} {x : Activity α}
    (hx : x.All (Wait.IsLocal url) q) {before : List Turn} {clock : Seconds} {o : Outside}
    {e : Ending (α × List Turn)} (h : (x.remembered before).outcome clock o = some e) :
    ∃ turns, e.answer.2 = before ++ turns ∧
      ((∀ t ∈ turns, t.answer ≠ none) → Answered (o.script url) turns) := by
  induction x generalizing before clock o with
  | done a =>
    cases h
    exact ⟨[], (List.append_nil before).symm, fun _ => .nil _⟩
  | mark m rest ih => exact ih hx h
  | time next ih => exact ih clock (hx clock) h
  | wait w expiry next ih =>
    obtain ⟨hw, hnext⟩ := hx
    obtain ⟨hanswer, hscript⟩ := o.serve_respond hw
    rw [remembered, outcome] at h
    split at h
    · cases h
    · obtain ⟨turns, hturns, hanswered⟩ := ih _ (hnext _) h
      refine ⟨⟨w, some (o.serve w).1.2⟩ :: turns, ?_, fun hall => ?_⟩
      · rw [hturns, List.append_assoc, List.singleton_append]
      · -- the node's own first response is what the wait was served with
        rw [hanswer]
        refine .cons w ?_
        rw [← hscript]
        exact hanswered fun t ht => hall t (List.mem_cons_of_mem _ ht)
    · obtain ⟨turns, hturns, _⟩ := ih _ (hnext _) h
      refine ⟨⟨w, none⟩ :: turns, ?_, fun hall => ?_⟩
      · rw [hturns, List.append_assoc, List.singleton_append]
      · exact absurd rfl (hall _ List.mem_cons_self)

/-! ### Surveys -/

theorem Activity.All.remembered {q : Wait → Prop} {p : α → Prop} {x : Activity α} (hx : x.All q p)
    (before : List Turn) : (x.remembered before).All q fun _ => True := by
  induction x generalizing before with
  | done a => trivial
  | mark m rest ih => exact ih hx before
  | time next ih => exact fun now => ih now (hx now) before
  | wait w expiry next ih => exact ⟨hx.1, fun answer => ih answer (hx.2 answer) _⟩

theorem Schedule.Separate.remembered {url : Int → String} {jobs : List (Job α)}
    (h : Separate url jobs) : Separate url (jobs.map Job.remembered) where
  chains := by
    rw [List.map_map]
    exact h.chains
  nodes := by
    intro a ha b hb hurl
    obtain ⟨plain, hplain, rfl⟩ := List.mem_map.mp ha
    obtain ⟨plain', hplain', rfl⟩ := List.mem_map.mp hb
    exact h.nodes plain hplain plain' hplain' hurl
  asks := by
    intro job hjob
    obtain ⟨plain, hplain, rfl⟩ := List.mem_map.mp hjob
    exact (h.asks plain hplain).remembered []

namespace Chain.Survey

variable {s : Settings} {subject : Subject} {ids : List Int} {chain : Document}

/-- Each chain with a node of its own is answered by this node's script. -/
theorem answered_of_histories (hchains : (s.chains.map (·.chain)).Nodup)
    (hurls : (s.chains.map (·.url)).Nodup) (htargets : targets s chain = .ok ids) {clock : Seconds}
    {deadline : Binary64} {outside : Outside} {id : Int} {a : Except Defect Entry}
    {turns : List Turn}
    (h : (histories s .listing subject ids clock deadline outside).finished.lookup id =
      some (a, turns)) (hall : ∀ t ∈ turns, t.answer ≠ none) :
    Answered (outside.script (nodeOf s id)) turns := by
  have hseparate : Schedule.Separate (nodeOf s) (jobs s .listing subject ids) :=
    separate_jobs hchains hurls htargets
  obtain ⟨ending, ⟨job, hjob, rfl, t, _, _, houtcome⟩, hanswer, _⟩ :=
    Schedule.began_of_mem_finished (p := fun _ => True) hseparate.remembered trivial
      (.inr Schedule.lasting_true) (Schedule.mem_of_lookup_eq_some h)
  obtain ⟨plain, hplain, rfl⟩ := List.mem_map.mp hjob
  obtain ⟨turns', hturns, hanswered⟩ := answered_of_outcome (hseparate.asks plain hplain) houtcome
  rw [hanswer, List.nil_append] at hturns
  obtain rfl : turns = turns' := hturns
  have hscript : (outside.only (nodeOf s plain.chain)).script (nodeOf s plain.chain) =
      outside.script (nodeOf s plain.chain) := by
    rw [Outside.only, Outside.script_ofScript]
  exact hscript ▸ hanswered hall

/-- The same answers, the same result. -/
theorem result_of_sameAnswers {name : Document} {engine : Engine}
    (hengine : Engine.ofName name = .ok engine) {clock clock' : Seconds}
    {deadline deadline' : Binary64} {outside outside' : Outside} {id : Int}
    {a a' : Except Defect Entry} {turns turns' : List Turn}
    (h : (histories s engine subject ids clock deadline outside).finished.lookup id =
      some (a, turns))
    (h' : (histories s engine subject ids clock' deadline' outside').finished.lookup id =
      some (a', turns')) (hsame : SameAnswers turns turns') : a = a' := by
  obtain ⟨e, he, hleads, _⟩ := leads_of_histories h
  obtain ⟨e', he', hleads', _⟩ := leads_of_histories h'
  obtain rfl : e = e' := Option.some.inj (he.symm.trans he')
  exact ((Investigation.investigate_alike _ _ hengine).eq_of_leads hleads hleads' hsame).2

end Chain.Survey

/-! ### Verifications -/

namespace Verifier

open Chain Survey

variable {v : Verifier} {r : Request} {world world' : World}

/-- The time that is left for a survey after the build. -/
def timeLeft (v : Verifier) (r : Request) (world : World) : Binary64 :=
  (v.term world.workshop.clock (v.build r world.workshop).2.clock).2

/-- What is known in the end of a chain: what the work on it came to, and its turns. -/
def history (v : Verifier) (r : Request) (world : World) (id : Int) :
    Option (Except Defect Entry × List Turn) := do
  let ids ← (targets v.settings r.chain).toOption
  let artifact ← (v.build r world.workshop).1.toOption
  (histories v.settings v.engine (subjectOf r artifact) ids
    (v.term world.workshop.clock (v.build r world.workshop).2.clock).1 (v.timeLeft r world)
    world.outside).finished.lookup id

/-- The entry of a chain of which something is known, or that was cancelled. -/
def entryKnown (text : String) (chain : Document) (id : Int) :
    Option (Except Defect Entry) → Entry
  | some result => entryOf chain id result
  | none => { Entry.cancelled id text with spelling := spelling? chain }

theorem entryKnown_lookup (text : String) (chain : Document)
    (finished : List (Int × Except Defect Entry)) (id : Int) :
    entryKnown text chain id (finished.lookup id) =
      { entryFor text finished id with spelling := spelling? chain } := by
  cases h : finished.lookup id with
  | none => rw [entryKnown, entryFor, h]
  | some result => rw [entryKnown, entryFor_of_lookup h]

/-- A report tells what is known of each chain. -/
theorem report_of_verify {report : Report} (h : (v.verify r world).result = .ok report) :
    ∃ ids artifact, targets v.settings r.chain = .ok ids ∧
      (v.build r world.workshop).1 = .ok artifact ∧
      report = ⟨some r, r.address, ids.map fun id => entryKnown (v.timeLeft r world).text r.chain id
        ((v.history r world id).map Prod.fst), some artifact⟩ := by
  rw [verify] at h
  cases htargets : targets v.settings r.chain with
  | error f =>
    rw [htargets] at h
    cases h
  | ok ids =>
    rw [htargets] at h
    dsimp only at h
    cases hbuilt : (v.build r world.workshop).1 with
    | error f =>
      rw [hbuilt] at h
      cases h
    | ok artifact =>
      rw [hbuilt] at h
      dsimp only at h
      refine ⟨ids, artifact, rfl, rfl, ?_⟩
      by_cases hslots : 0 ≤ v.settings.maxInFlight
      · rw [run_of_targets htargets hslots] at h
        have hassemble := Except.mapError_eq_ok_iff.mp h
        rw [Report.assemble] at hassemble
        split_ifs at hassemble
        -- the report lists the survey's entries, one for each chain in the order of `ids`
        rw [← Except.ok.inj hassemble]
        refine congrArg (fun entries => (⟨some r, r.address, entries, some artifact⟩ : Report)) ?_
        refine List.map_congr_left fun id _ => ?_
        have hhistory : (v.history r world id).map Prod.fst =
            (schedule v.settings (v.term world.workshop.clock (v.build r world.workshop).2.clock).1
              (v.timeLeft r world) world.outside
              (jobs v.settings v.engine (subjectOf r artifact) ids)).finished.lookup id := by
          rw [lookup_histories, history, htargets, hbuilt]
          rfl
        rw [hhistory, entryKnown_lookup]
        rfl
      · rw [Survey.run, htargets] at h
        simp only [Bind.bind, Except.bind, if_pos (not_le.mp hslots)] at h
        cases h

theorem artifact_of_builds {artifact artifact' : Artifact}
    (hworkshop : world.workshop.Alike world'.workshop)
    (h : (v.build r world.workshop).1 = .ok artifact)
    (h' : (v.build r world'.workshop).1 = .ok artifact') : artifact = artifact' := by
  have hbuilt {w : Build.Workshop} {a : Artifact} (h : (v.build r w).1 = .ok a) :
      ((Build.build v.toolchain ⟨r.repository, r.commit, r.contract, r.profile⟩
        (some v.settings.deadline)).run.run w).1 = .ok a := by
    rw [build] at h
    split at h
    rename_i built after hrun
    split_ifs at h
    rw [hrun]
    exact Except.mapError_eq_ok_iff.mp h
  exact (Build.build_agree v.toolchain _ _ _ _ _ _ _ _ hworkshop (Prod.ext (hbuilt h) rfl)
    (Prod.ext (hbuilt h') rfl)).1

/-- The time that was left does not show where something is known. -/
theorem entryKnown_eq {left left' : String} {chain : Document} {id : Int}
    {known : Option (Except Defect Entry)} (h : left = left' ∨ known ≠ none) :
    entryKnown left chain id known = entryKnown left' chain id known := by
  rcases h with rfl | h
  · rfl
  · obtain ⟨result, rfl⟩ := Option.ne_none_iff_exists'.mp h
    rfl

/-- Two runs in which the same chains come to their end, and are answered the same. -/
structure Agrees (v : Verifier) (r : Request) (world world' : World) : Prop where
  workshop : world.workshop.Alike world'.workshop
  finished : ∀ ids, targets v.settings r.chain = .ok ids → ∀ id ∈ ids,
    v.history r world id = none ↔ v.history r world' id = none
  answers : ∀ id a a' turns turns', v.history r world id = some (a, turns) →
    v.history r world' id = some (a', turns') → SameAnswers turns turns'

theorem histories_of_history {id : Int} {known : Except Defect Entry × List Turn}
    (h : v.history r world id = some known) :
    ∃ ids artifact clock deadline, targets v.settings r.chain = .ok ids ∧
      (v.build r world.workshop).1 = .ok artifact ∧
      (histories v.settings v.engine (subjectOf r artifact) ids clock deadline
        world.outside).finished.lookup id = some known := by
  obtain ⟨ids, hids, h⟩ := Option.bind_eq_some_iff.mp h
  obtain ⟨artifact, hartifact, h⟩ := Option.bind_eq_some_iff.mp h
  exact ⟨ids, artifact, _, _, Except.eq_ok_of_toOption hids, Except.eq_ok_of_toOption hartifact, h⟩

/-- Worlds that differ in time only, where every chain has a node of its own, the engine lists
instructions, and no question runs out of time. -/
structure Apart (v : Verifier) (r : Request) (world world' : World) : Prop where
  workshop : world.workshop.Alike world'.workshop
  outside : world.outside.Alike world'.outside
  engine : v.engine = .listing
  chains : (v.settings.chains.map (·.chain)).Nodup
  urls : (v.settings.chains.map (·.url)).Nodup
  finished : ∀ ids, targets v.settings r.chain = .ok ids → ∀ id ∈ ids,
    v.history r world id = none ↔ v.history r world' id = none
  answered : ∀ id a turns, v.history r world id = some (a, turns) ∨
    v.history r world' id = some (a, turns) → ∀ t ∈ turns, t.answer ≠ none

theorem Apart.agrees (h : v.Apart r world world') : v.Agrees r world world' := by
  refine ⟨h.workshop, h.finished, fun id a a' turns turns' hknown hknown' => ?_⟩
  obtain ⟨ids, artifact, clock, deadline, htargets, _, hhistory⟩ := histories_of_history hknown
  obtain ⟨ids', artifact', clock', deadline', htargets', _, hhistory'⟩ :=
    histories_of_history hknown'
  rw [h.engine] at hhistory hhistory'
  have hanswered := answered_of_histories h.chains h.urls htargets hhistory
    (h.answered id a turns (.inl hknown))
  have hanswered' := answered_of_histories h.chains h.urls htargets' hhistory'
    (h.answered id a' turns' (.inr hknown'))
  exact hanswered.sameAnswers hanswered' (h.outside.nodes _)

theorem Agrees.known {name : Document} (h : v.Agrees r world world')
    (hengine : Engine.ofName name = .ok v.engine) {ids : List Int}
    (htargets : targets v.settings r.chain = .ok ids) {id : Int} (hid : id ∈ ids) :
    (v.history r world id).map Prod.fst = (v.history r world' id).map Prod.fst := by
  have hfinished := h.finished ids htargets id hid
  cases hknown : v.history r world id with
  | none => rw [hfinished.mp hknown]
  | some known =>
    cases hknown' : v.history r world' id with
    | none => cases hknown.symm.trans (hfinished.mpr hknown')
    | some known' =>
      obtain ⟨a, turns⟩ := known
      obtain ⟨a', turns'⟩ := known'
      obtain ⟨ids₁, artifact, clock, deadline, hids₁, hbuilt, hhistory⟩ := histories_of_history hknown
      obtain ⟨ids₂, artifact', clock', deadline', hids₂, hbuilt', hhistory'⟩ :=
        histories_of_history hknown'
      obtain rfl : ids₁ = ids₂ := Except.ok.inj (hids₁.symm.trans hids₂)
      obtain rfl := artifact_of_builds h.workshop hbuilt hbuilt'
      exact congrArg some
        (result_of_sameAnswers hengine hhistory hhistory' (h.answers id a a' turns turns' hknown hknown'))

/-- Timing shows in a report at most where it tells of cancelled chains how much time was left for the
survey. Two verifications whose builds succeed, in which the same chains come to their end and get the
same answers, report the same otherwise: the same artifact, and of each chain what is known of it in
both. With the same time left for the survey, or without a cancelled chain, they print the same. -/
theorem timing_shows_in_cancellations {name : Document}
    (hengine : Engine.ofName name = .ok v.engine)
    (h : v.Agrees r world world' ∨ v.Apart r world world') {report report' : Report}
    (hreport : (v.verify r world).result = .ok report)
    (hreport' : (v.verify r world').result = .ok report') :
    report.request = report'.request ∧ report.address = report'.address ∧
      report.artifact = report'.artifact ∧
      ∃ (ids : List Int) (known : Int → Option (Except Defect Entry)),
        targets v.settings r.chain = .ok ids ∧
        (∀ id ∈ ids, (v.history r world id).map Prod.fst = known id ∧
          (v.history r world' id).map Prod.fst = known id) ∧
        report.entries = ids.map (fun id =>
          entryKnown (v.timeLeft r world).text r.chain id (known id)) ∧
        report'.entries = ids.map (fun id =>
          entryKnown (v.timeLeft r world').text r.chain id (known id)) ∧
        ((v.timeLeft r world).text = (v.timeLeft r world').text ∨ (∀ id ∈ ids, known id ≠ none) →
          ∀ room indent, report.toJson room indent = report'.toJson room indent) := by
  have hagrees : v.Agrees r world world' := h.elim id Apart.agrees
  obtain ⟨ids, artifact, htargets, hbuilt, rfl⟩ := report_of_verify hreport
  obtain ⟨ids', artifact', htargets', hbuilt', rfl⟩ := report_of_verify hreport'
  obtain rfl : ids = ids' := Except.ok.inj (htargets.symm.trans htargets')
  obtain rfl := artifact_of_builds hagrees.workshop hbuilt hbuilt'
  -- what is left to compare is the entries, chain by chain
  have hentries : (ids.map fun id => entryKnown (v.timeLeft r world').text r.chain id
        ((v.history r world' id).map Prod.fst)) =
      ids.map fun id => entryKnown (v.timeLeft r world').text r.chain id
        ((v.history r world id).map Prod.fst) := by
    refine List.map_congr_left fun id hid => ?_
    rw [hagrees.known hengine htargets hid]
  refine ⟨rfl, rfl, rfl, ids, fun id => (v.history r world id).map Prod.fst, htargets,
    fun id hid => ⟨rfl, (hagrees.known hengine htargets hid).symm⟩, rfl, hentries,
    fun hsame room indent => ?_⟩
  rw [hentries]
  have hundated : (ids.map fun id => entryKnown (v.timeLeft r world).text r.chain id
        ((v.history r world id).map Prod.fst)) =
      ids.map fun id => entryKnown (v.timeLeft r world').text r.chain id
        ((v.history r world id).map Prod.fst) :=
    List.map_congr_left fun id hid => entryKnown_eq (hsame.imp_right fun hknown => hknown id hid)
  rw [hundated]

/-- A verifier for one chain that is patient with its node. -/
def patient : Verifier :=
  ⟨{ chains := [⟨1, "mainnet", "u1"⟩], chainTimeout := .ofInt 1000, buildTool := "solc" }, .solc,
    .listing⟩

/-- A world where the clone and the node's reply take their time. -/
def delayedWorld (clone reply : Seconds) : World where
  workshop := { oneSource with git := [{ delay := clone }] }
  outside := { nodes := [("u1",
    [⟨reply, .answered 200 "" (.document (.object [("result", .text "0x60")]))⟩])] }

theorem targets_patient : targets patient.settings sourceRequest.chain = .ok [1] := by
  have h : ascending [1] = [1] := List.mergeSort_singleton 1
  exact congrArg Except.ok h

/-- What is known of any chain in such a world is known of the one that is configured. -/
theorem history_patient {world : World} {id : Int} {known : Except Defect Entry × List Turn}
    (h : patient.history sourceRequest world id = some known) : id = 1 := by
  obtain ⟨ids, artifact, clock, deadline, _, _, hhistory⟩ := histories_of_history h
  obtain ⟨e, he, _⟩ := leads_of_histories hhistory
  obtain ⟨hmem, rfl⟩ := Settings.endpoint?_mem he
  rw [List.mem_singleton.mp hmem]

theorem apart_delayed {clone clone' reply reply' : Seconds}
    (hfinished : (patient.history sourceRequest (delayedWorld clone reply) 1).isSome =
      (patient.history sourceRequest (delayedWorld clone' reply') 1).isSome)
    (hanswered : ((patient.history sourceRequest (delayedWorld clone reply) 1).all fun known =>
      known.2.all (·.answer.isSome)) = true)
    (hanswered' : ((patient.history sourceRequest (delayedWorld clone' reply') 1).all fun known =>
      known.2.all (·.answer.isSome)) = true) :
    patient.Apart sourceRequest (delayedWorld clone reply) (delayedWorld clone' reply') where
  workshop := ⟨rfl, rfl, rfl, rfl⟩
  outside := by
    refine ⟨fun url => ?_, rfl⟩
    simp only [Outside.script, delayedWorld, List.lookup_cons]
    cases url == "u1" <;> rfl
  engine := rfl
  chains := by decide
  urls := by decide
  finished := by
    intro ids hids id hid
    obtain rfl : [1] = ids := Except.ok.inj (targets_patient.symm.trans hids)
    rw [List.mem_singleton.mp hid, ← Option.not_isSome_iff_eq_none, ← Option.not_isSome_iff_eq_none,
      hfinished]
  answered := by
    have hall {world : World} {id : Int} {a : Except Defect Entry} {turns : List Turn}
        (h : ((patient.history sourceRequest world 1).all fun known =>
          known.2.all (·.answer.isSome)) = true)
        (hknown : patient.history sourceRequest world id = some (a, turns)) (t : Turn)
        (ht : t ∈ turns) : t.answer ≠ none := by
      obtain rfl := history_patient hknown
      rw [hknown] at h
      exact Option.isSome_iff_ne_none.mp (List.all_eq_true.mp h t ht)
    intro id a turns h
    exact h.elim (hall hanswered) (hall hanswered')

/-- A slower clone and a slower reply make no difference to what is printed. -/
theorem timing_shows_in_cancellations_delayed :
    Engine.ofName (.text "evmdasm") = .ok patient.engine ∧
    patient.Apart sourceRequest (delayedWorld 0 0) (delayedWorld 1 2) ∧
    ∃ report report', (patient.verify sourceRequest (delayedWorld 0 0)).result = .ok report ∧
      (patient.verify sourceRequest (delayedWorld 1 2)).result = .ok report' ∧
      ∀ room indent, report.toJson room indent = report'.toJson room indent := by
  have hengine : Engine.ofName (.text "evmdasm") = .ok patient.engine := rfl
  have hapart : patient.Apart sourceRequest (delayedWorld 0 0) (delayedWorld 1 2) :=
    apart_delayed (by decide +kernel) (by decide +kernel) (by decide +kernel)
  have hknown : (patient.history sourceRequest (delayedWorld 0 0) 1).isSome = true := by
    decide +kernel
  obtain ⟨report, hreport⟩ := Option.isSome_iff_exists.mp
    (by decide +kernel :
      (patient.verify sourceRequest (delayedWorld 0 0)).result.toOption.isSome = true)
  obtain ⟨report', hreport'⟩ := Option.isSome_iff_exists.mp
    (by decide +kernel :
      (patient.verify sourceRequest (delayedWorld 1 2)).result.toOption.isSome = true)
  obtain ⟨_, _, _, ids, known, hids, hboth, _, _, hprinted⟩ :=
    timing_shows_in_cancellations hengine (.inr hapart) (Except.eq_ok_of_toOption hreport)
      (Except.eq_ok_of_toOption hreport')
  obtain rfl : [1] = ids := Except.ok.inj (targets_patient.symm.trans hids)
  refine ⟨hengine, hapart, report, report', Except.eq_ok_of_toOption hreport,
    Except.eq_ok_of_toOption hreport', hprinted (.inr fun id hid => ?_)⟩
  rw [← (hboth id hid).1, List.mem_singleton.mp hid, Ne, Option.map_eq_none_iff]
  exact Option.isSome_iff_ne_none.mp hknown

/-- Reports that differ in one entry's error have the same text only if these errors do. -/
theorem error_of_toJson {request : Option Request} {address : String} {artifact : Option Artifact}
    (before after : List Entry) {e : Entry} {error error' : Option String} {room : Nat}
    {indent : Json.Indent} {text : String}
    (h : (⟨request, address, before ++ { e with error } :: after, artifact⟩ : Report).toJson room
      indent = .ok text)
    (h' : (⟨request, address, before ++ { e with error := error' } :: after, artifact⟩ :
      Report).toJson room indent = .ok text) :
    Json.writeChars indent 3 (.ofOption .text error) =
      Json.writeChars indent 3 (.ofOption .text error') := by
  have hreport (entries : List Entry) :
      (⟨request, address, entries, artifact⟩ : Report).toDocument =
        .object ([("request", .ofOption Request.toDocument request), ("address", .text address)] ++
          ("chains", .list (entries.map Entry.toDocument)) ::
            [("artifact", .ofOption Artifact.summary artifact)]) := rfl
  have hentry (error : Option String) :
      Entry.toDocument { e with error } =
        .object ([("chain_id", e.spelling.getD (.int e.chain)), ("creation", .text e.creation.label),
          ("runtime", .text e.runtime.label)] ++ ("error", .ofOption .text error) ::
            [("diagnostics", .list (e.notes.map .text)),
              ("metadata", .ofOption Entry.metadataDocument e.metadata),
              ("decompilation", .ofOption Decompilation.toDocument e.decompilation)]) := rfl
  have hchars := (Json.write_eq_ok_iff.mp h).2.trans (Json.write_eq_ok_iff.mp h').2.symm
  rw [Json.render, Json.render, String.ofList_inj, hreport, hreport] at hchars
  have hchains := Json.member_of_writeChars hchars
  rw [List.map_append, List.map_append, List.map_cons, List.map_cons] at hchains
  have hitem := Json.item_of_writeChars hchains
  rw [hentry, hentry] at hitem
  exact Json.member_of_writeChars hitem

/-- A report that can be written has a text. -/
theorem exists_toJson {result : Option Report} {report : Report} (hreport : result = some report)
    (h : (result.all fun report => report.toDocument.integers.all Numeral.isWritable &&
      decide (report.toDocument.levels ≤ Nesting.room)) = true) :
    ∃ text, report.toJson Nesting.room none = .ok text := by
  rw [hreport, Option.all_some, Bool.and_eq_true, List.all_eq_true, decide_eq_true_eq] at h
  exact ⟨_, Json.write_eq_ok_iff.mpr ⟨h, rfl⟩⟩

/-- A clone that takes a second shows in the entry of a chain that is cancelled in any case. -/
theorem cancellation_tells_build_time :
    patient.Apart sourceRequest (delayedWorld 0 999) (delayedWorld 1 999) ∧
    ∃ report report', (patient.verify sourceRequest (delayedWorld 0 999)).result = .ok report ∧
      (patient.verify sourceRequest (delayedWorld 1 999)).result = .ok report' ∧
      report.entries.map (·.error) = [some "Cancelled: request deadline of 300.0s exceeded"] ∧
      report'.entries.map (·.error) = [some "Cancelled: request deadline of 299.0s exceeded"] ∧
      ∃ text text', report.toJson Nesting.room none = .ok text ∧
        report'.toJson Nesting.room none = .ok text' ∧ text ≠ text' := by
  have hapart : patient.Apart sourceRequest (delayedWorld 0 999) (delayedWorld 1 999) :=
    apart_delayed (by decide +kernel) (by decide +kernel) (by decide +kernel)
  obtain ⟨report, hreport⟩ := Option.isSome_iff_exists.mp
    (by decide +kernel :
      (patient.verify sourceRequest (delayedWorld 0 999)).result.toOption.isSome = true)
  obtain ⟨report', hreport'⟩ := Option.isSome_iff_exists.mp
    (by decide +kernel :
      (patient.verify sourceRequest (delayedWorld 1 999)).result.toOption.isSome = true)
  have hknown : patient.history sourceRequest (delayedWorld 0 999) 1 = none :=
    Option.isNone_iff_eq_none.mp (by decide +kernel)
  have hknown' : patient.history sourceRequest (delayedWorld 1 999) 1 = none :=
    Option.isNone_iff_eq_none.mp (by decide +kernel)
  have hleft : (patient.timeLeft sourceRequest (delayedWorld 0 999)).text = "300.0" := by
    decide +kernel
  have hleft' : (patient.timeLeft sourceRequest (delayedWorld 1 999)).text = "299.0" := by
    decide +kernel
  obtain ⟨text, htext⟩ := exists_toJson hreport (by decide +kernel)
  obtain ⟨text', htext'⟩ := exists_toJson hreport' (by decide +kernel)
  have hreport := Except.eq_ok_of_toOption hreport
  have hreport' := Except.eq_ok_of_toOption hreport'
  refine ⟨hapart, report, report', hreport, hreport', ?_⟩
  obtain ⟨ids, artifact, hids, hbuilt, rfl⟩ := report_of_verify hreport
  obtain ⟨ids', artifact', hids', hbuilt', rfl⟩ := report_of_verify hreport'
  obtain rfl : [1] = ids := Except.ok.inj (targets_patient.symm.trans hids)
  obtain rfl : [1] = ids' := Except.ok.inj (targets_patient.symm.trans hids')
  obtain rfl := artifact_of_builds hapart.workshop hbuilt hbuilt'
  simp only [List.map_cons, List.map_nil, hleft, hleft', hknown, hknown', Option.map_none]
    at htext htext' ⊢
  refine ⟨rfl, rfl, text, text', htext, htext', ?_⟩
  rintro rfl
  have herror := error_of_toJson [] [] htext htext'
  revert herror
  decide

end Verifier

end Attest
