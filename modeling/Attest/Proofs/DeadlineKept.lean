import Attest.Proofs.BuildFailFast
import Attest.Proofs.ChainIsolation
import Attest.Proofs.DeadlineStrikes
import Attest.Proofs.VerificationOrder

/-! # A verification keeps its deadline

Building and surveying together take no longer than the deadline, and what is finished by then is
reported, unless a question is answered in the very moment in which the deadline strikes: the chain that
asked it works on, and the verification waits for it. -/

namespace Attest

namespace Binary64

/-- No number between zero and a double is too great for a double. -/
theorem exists_toRat?_ofRat {q d : Rat} (hd : (ofRat d).toRat? = some d) (hq : 0 ≤ q) (hle : q ≤ d) :
    ∃ p, (ofRat q).toRat? = some p := by
  obtain rfl | hq := hq.eq_or_lt
  · exact ⟨0, by decide +kernel⟩
  rw [toRat?_ofRat_of_pos (hq.trans_le hle)] at hd
  rw [toRat?_ofRat_of_pos hq, if_neg]
  · exact ⟨_, rfl⟩
  · split_ifs at hd with hgreat
    exact fun h => hgreat (h.trans (rounded_mono hq hle))

end Binary64

theorem Seconds.clamp_nonneg (s : Seconds) : 0 ≤ s.clamp := by
  rw [Seconds.clamp]
  split
  · exact le_rfl
  · next h => exact not_lt.mp h

/-! ### Builds -/

namespace Tool

theorem Step.fst_perform {s : Step} {c : Command} (h : (s.perform c).2.Succeeded) :
    (s.perform c).1 = s.delay := by
  unfold Step.perform at h ⊢
  split_ifs at h ⊢
  · cases h
  · rfl

end Tool

namespace Build

open Tool

/-- A workshop with a clock that can keep its time, and with programs that take time. -/
structure Workshop.Clocked (w : Workshop) : Prop where
  clock : w.clock.Kept
  git : ∀ s ∈ w.git, 0 ≤ s.delay
  forge : ∀ s ∈ w.forge, 0 ≤ s.delay
  compiler : 0 ≤ w.compiler.delay

namespace Workshop.Clocked

variable {w : Workshop}

theorem delay_answer (hw : w.Clocked) (c : Command) : 0 ≤ (w.answer c).delay := by
  have hhead {steps : List Step} (h : ∀ s ∈ steps, 0 ≤ s.delay) :
      0 ≤ (steps.head?.getD {}).delay := by
    cases steps with
    | nil => exact le_rfl
    | cons s steps => exact h s List.mem_cons_self
  rw [answer]
  split
  · exact hhead hw.git
  · exact hhead hw.forge

/-- A command that succeeds takes its time. -/
theorem ran (hw : w.Clocked) {c : Command} (h : ((w.answer c).perform c).2.Succeeded) :
    (w.act (.ran c)).Clocked ∧ w.clock ≤ (w.act (.ran c)).clock := by
  refine ⟨⟨Seconds.kept_nearest _, fun s hs => ?_, fun s hs => ?_, hw.compiler⟩,
    hw.clock.le_after ?_⟩
  · simp only [act] at hs
    split at hs
    · exact hw.git s (List.mem_of_mem_tail hs)
    · exact hw.git s hs
  · simp only [act] at hs
    split at hs
    · exact hw.forge s hs
    · exact hw.forge s (List.mem_of_mem_tail hs)
  · rw [Step.fst_perform h]
    exact hw.delay_answer c

theorem replay {acts : List Act} (hw : w.Clocked) (hallows : w.Allows acts)
    (hsucceeded : ∀ t ∈ w.trials acts, t.outcome.Succeeded) :
    (w.replay acts).Clocked ∧ w.clock ≤ (w.replay acts).clock := by
  induction acts generalizing w with
  | nil => exact ⟨hw, le_rfl⟩
  | cons a acts ih =>
    rw [Workshop.replay, List.foldl_cons]
    have hrest : ∀ span, .waited span ∈ acts → span = w.compiler.delay :=
      fun span hspan => hallows span (List.mem_cons_of_mem a hspan)
    cases a with
    | ran c =>
      obtain ⟨hfirst, hothers⟩ := List.forall_mem_cons.mp hsucceeded
      obtain ⟨hran, hle⟩ := hw.ran hfirst
      obtain ⟨hleft, hend⟩ := ih hran hrest hothers
      exact ⟨hleft, hle.trans hend⟩
    | called call =>
      exact ih (w := w.act (.called call)) ⟨hw.clock, hw.git, hw.forge, hw.compiler⟩ hrest hsucceeded
    | waited span =>
      have hspan : 0 ≤ span := (hallows span List.mem_cons_self).symm ▸ hw.compiler
      obtain ⟨hleft, hend⟩ := ih (w := w.act (.waited span))
        ⟨Seconds.kept_nearest _, hw.git, hw.forge, hw.compiler⟩ hrest hsucceeded
      exact ⟨hleft, (hw.clock.le_after hspan).trans hend⟩

end Workshop.Clocked

end Build

/-- A deadline that is a number of seconds, of which there are some. -/
structure Settings.Due (s : Settings) (d : Rat) : Prop where
  deadline : s.deadline.toRat? = some d
  double : (Binary64.ofRat d).toRat? = some d
  pos : 0 < d

namespace Verifier

open Chain Survey

variable {v : Verifier} {r : Request} {world : World} {d : Rat} {artifact : Artifact} {ids : List Int}

/-- A build that comes to an artifact takes time. -/
theorem clock_le_build {w : Build.Workshop} (hw : w.Clocked) (h : (v.build r w).1 = .ok artifact) :
    (v.build r w).2.clock.Kept ∧ w.clock ≤ (v.build r w).2.clock := by
  obtain ⟨acts, hleft, hallows, hfollows⟩ := Build.build_obeys v.toolchain
    ⟨r.repository, r.commit, r.contract, r.profile⟩ (some v.settings.deadline) w
  cases hrun : (Build.build v.toolchain ⟨r.repository, r.commit, r.contract, r.profile⟩
      (some v.settings.deadline)).run.run w with
  | mk result after =>
    simp only [hrun] at hleft hfollows
    simp only [build, hrun] at h ⊢
    split at h
    · cases h
    · next hlate =>
      rw [if_neg hlate]
      cases result with
      | error e => cases h
      | ok a =>
        obtain ⟨hclocked, hle⟩ := hw.replay hallows hfollows.of_ok.2.1
        rw [hleft]
        exact ⟨hclocked.clock, hle⟩

/-- When a verification goes on after its build, however that ended. -/
def resumed (v : Verifier) (r : Request) (world : World) : Seconds :=
  resumption v.settings.deadline world.workshop.clock (v.build r world.workshop).2.clock

/-- What is left of the deadline for the survey. -/
def rest (v : Verifier) (r : Request) (world : World) : Binary64 :=
  remaining v.settings.deadline ((v.resumed r world).since world.workshop.clock)

/-- The subject of a verification that has an artifact to compare with. -/
def subject (r : Request) (artifact : Artifact) : Subject :=
  ⟨r.address, some artifact, r.creationTransaction⟩

/-- The survey that follows a build. -/
def survey (v : Verifier) (r : Request) (world : World) (artifact : Artifact) :
    Except Request.Refusal Survey.Result :=
  Survey.run v.settings v.engine (subject r artifact) r.chain (v.resumed r world) (v.rest r world)
    world.outside

/-- When a verification ends, none if it never does. -/
def finish? (v : Verifier) (r : Request) (world : World) : Option Seconds :=
  match targets v.settings r.chain, (v.build r world.workshop).1 with
  | .error _, _ => some world.workshop.clock
  | .ok _, .error _ => some (v.resumed r world)
  | .ok _, .ok artifact =>
      match v.survey r world artifact with
      | .error _ => some (v.resumed r world)
      | .ok s => if s.final.running.isEmpty then some s.final.clock else none

/-- When the deadline of a verification strikes. For the survey it is measured again, by what the build
left of it. -/
def strike (v : Verifier) (r : Request) (world : World) : Seconds :=
  match targets v.settings r.chain, (v.build r world.workshop).1 with
  | .ok _, .ok _ => (v.resumed r world).after ((v.rest r world).toRat?.getD 0)
  | _, _ => world.workshop.clock.after (v.settings.deadline.toRat?.getD 0)

/-- How a verification that may take some time keeps to it. -/
structure KeepsDeadline (v : Verifier) (r : Request) (world : World) (d : Rat) : Prop where
  /-- It has ended when the deadline strikes, unless a question is settled in that very moment. -/
  ends : (∃ t, v.finish? r world = some t ∧ t ≤ v.strike r world) ∨
    ∃ e ∈ (v.verify r world).events, e.deed = .settled ∧ e.time = v.strike r world
  /-- The deadline strikes when its time has passed since the start, as exactly as clocks tell. -/
  moment : Seconds.TellsLeft world.workshop.clock d (v.resumed r world) →
    (v.resumed r world).since world.workshop.clock = v.resumed r world - world.workshop.clock →
    v.strike r world = world.workshop.clock + d
  /-- A chain that was at its end clearly before is reported with what its own work came to. -/
  finished : ∀ e ∈ (v.verify r world).events, e.deed = .released →
    e.time.ClearlyBefore (v.strike r world) →
    ∃ report artifact endpoint turns result,
      (v.verify r world).result = .ok report ∧
      (v.build r world.workshop).1 = .ok artifact ∧
      v.settings.endpoint? e.chain = some endpoint ∧
      (Investigation.investigate v.engine (.ofSettings endpoint v.settings)
        (subject r artifact)).Leads turns result ∧
      (∀ t ∈ turns, t.From world.outside) ∧
      entryOf r.chain e.chain result ∈ report.entries

variable (hdue : v.settings.Due d)
include hdue

theorem resumption_of_due (started ended : Seconds) :
    resumption v.settings.deadline started ended =
      if started.after d < ended then started.after d else ended := by
  rw [resumption, Expiry.after_of_toRat? hdue.deadline]

theorem resumed_le : v.resumed r world ≤ world.workshop.clock.after d := by
  rw [resumed, resumption_of_due hdue]
  split
  · exact le_rfl
  · next h => exact not_lt.mp h

/-- The survey begins after the start. -/
theorem clock_le_resumed (hworld : world.workshop.Clocked)
    (hbuild : (v.build r world.workshop).1 = .ok artifact) :
    (v.resumed r world).Kept ∧ world.workshop.clock ≤ v.resumed r world := by
  obtain ⟨hkept, hle⟩ := clock_le_build hworld hbuild
  rw [resumed, resumption_of_due hdue]
  split
  · exact ⟨Seconds.kept_nearest _, hworld.clock.le_after hdue.pos.le⟩
  · exact ⟨hkept, hle⟩

omit hdue in
theorem remaining_of_toRat? {x : Binary64} {q : Rat} (h : x.toRat? = some q) (elapsed : Seconds) :
    remaining x elapsed = .ofRat (Seconds.clamp (q - elapsed)) := by
  cases x with
  | finite negative m e =>
    rw [remaining, h]
    rfl
  | infinite negative => cases h
  | undefined => cases h

theorem toRat?_rest (hworld : world.workshop.Clocked)
    (hbuild : (v.build r world.workshop).1 = .ok artifact) :
    (v.rest r world).toRat? = some (Seconds.nearest
      (Seconds.clamp (d - (v.resumed r world).since world.workshop.clock))) := by
  have helapsed : 0 ≤ (v.resumed r world).since world.workshop.clock :=
    Seconds.nearest_nonneg (sub_nonneg.mpr (clock_le_resumed hdue hworld hbuild).2)
  let left := Seconds.clamp (d - (v.resumed r world).since world.workshop.clock)
  have hleft : left ≤ d := by
    dsimp only [left]
    rw [Seconds.clamp]
    split
    · exact hdue.pos.le
    · linarith
  obtain ⟨p, hp⟩ := Binary64.exists_toRat?_ofRat hdue.double (Seconds.clamp_nonneg _) hleft
  rw [rest, remaining_of_toRat? hdue.deadline, Seconds.nearest, hp, Option.getD_some]

theorem strike_of_built (hworld : world.workshop.Clocked)
    (htargets : targets v.settings r.chain = .ok ids)
    (hbuild : (v.build r world.workshop).1 = .ok artifact) :
    v.strike r world = (v.resumed r world).after (Seconds.nearest
      (Seconds.clamp (d - (v.resumed r world).since world.workshop.clock))) := by
  rw [strike, htargets, hbuild]
  dsimp only
  rw [toRat?_rest hdue hworld hbuild, Option.getD_some]

theorem resumed_le_strike (hworld : world.workshop.Clocked)
    (htargets : targets v.settings r.chain = .ok ids)
    (hbuild : (v.build r world.workshop).1 = .ok artifact) :
    v.resumed r world ≤ v.strike r world := by
  rw [strike_of_built hdue hworld htargets hbuild]
  exact (clock_le_resumed hdue hworld hbuild).1.le_after
    (Seconds.nearest_nonneg (Seconds.clamp_nonneg _))

/-- Where the clock tells exactly what is left, the deadline strikes on time. -/
theorem strike_of_tellsLeft (hworld : world.workshop.Clocked)
    (htargets : targets v.settings r.chain = .ok ids)
    (hbuild : (v.build r world.workshop).1 = .ok artifact)
    (htells : Seconds.TellsLeft world.workshop.clock d (v.resumed r world))
    (helapsed : (v.resumed r world).since world.workshop.clock =
      v.resumed r world - world.workshop.clock) :
    v.strike r world = world.workshop.clock + d := by
  have hle : v.resumed r world ≤ world.workshop.clock + d := (resumed_le hdue).trans htells.deadline.le
  have hclamp : Seconds.clamp (d - (v.resumed r world - world.workshop.clock)) =
      d - (v.resumed r world - world.workshop.clock) := if_neg (by linarith)
  have hleft : Seconds.nearest (d - (v.resumed r world - world.workshop.clock)) =
      d - (v.resumed r world - world.workshop.clock) := by
    have h := htells.left
    rw [htells.deadline, Seconds.since] at h
    rw [← h]
    exact Seconds.nearest_nearest _
  rw [strike_of_built hdue hworld htargets hbuild, helapsed, hclamp, hleft, ← htells.deadline,
    Seconds.after, Seconds.after]
  congr 1
  ring

/-- A verification that asks no node. -/
theorem keepsDeadline_of_unsurveyed {t : Seconds} (hfinish : v.finish? r world = some t)
    (hle : t ≤ world.workshop.clock.after d) (hevents : (v.verify r world).events = [])
    (hstrike : v.strike r world = world.workshop.clock.after (v.settings.deadline.toRat?.getD 0)) :
    v.KeepsDeadline r world d := by
  rw [hdue.deadline, Option.getD_some] at hstrike
  exact {
    ends := .inl ⟨t, hfinish, hstrike ▸ hle⟩
    moment := fun htells _ => hstrike.trans htells.deadline
    finished := by simp [hevents] }

omit hdue

/-! ### Surveys -/

/-- The schedule of a verification that has built an artifact. -/
def surveyed (v : Verifier) (r : Request) (world : World) (artifact : Artifact) (ids : List Int) :
    Schedule.State (Except Defect Entry) :=
  Survey.schedule v.settings (v.resumed r world) (v.rest r world) world.outside
    (jobs v.settings v.engine (subject r artifact) ids)

theorem verify_of_surveyed (hs : v.settings.Sensible) (htargets : targets v.settings r.chain = .ok ids)
    (hbuild : (v.build r world.workshop).1 = .ok artifact) :
    v.verify r world = ⟨.ok ⟨some r, r.address,
        entriesOf (v.rest r world).text (spelling? r.chain) ids (v.surveyed r world artifact ids),
        some artifact⟩,
      (v.build r world.workshop).2.commands ++ commandsIn (v.surveyed r world artifact ids).log,
      (v.surveyed r world artifact ids).log⟩ := by
  have hslots : 0 ≤ v.settings.maxInFlight := Int.le_trans (by decide) hs.slots
  have hnodup : ids.Nodup := (pairwise_targets hs.chains htargets).imp ne_of_lt
  rw [verify, htargets]
  dsimp only
  rw [hbuild]
  dsimp only
  rw [run_of_targets htargets hslots]
  exact conclude_ok (chains_entriesOf _ _) hnodup

theorem finish?_of_surveyed (hs : v.settings.Sensible)
    (htargets : targets v.settings r.chain = .ok ids)
    (hbuild : (v.build r world.workshop).1 = .ok artifact) :
    v.finish? r world =
      if (v.surveyed r world artifact ids).running.isEmpty then
        some (v.surveyed r world artifact ids).clock
      else none := by
  have hslots : 0 ≤ v.settings.maxInFlight := Int.le_trans (by decide) hs.slots
  rw [finish?, htargets, hbuild]
  dsimp only
  rw [survey, run_of_targets htargets hslots]
  rfl

/-- The survey's deadline is the moment in which the deadline of all strikes. -/
theorem surveyed_eq (hdue : v.settings.Due d) (hworld : world.workshop.Clocked)
    (htargets : targets v.settings r.chain = .ok ids)
    (hbuild : (v.build r world.workshop).1 = .ok artifact) :
    v.surveyed r world artifact ids =
      Schedule.run v.settings.maxInFlight.toNat (waitsPerChain v.settings) (v.resumed r world)
        (.at (v.strike r world)) world.outside
        (jobs v.settings v.engine (subject r artifact) ids) := by
  rw [surveyed, Survey.schedule, Expiry.after_of_toRat? (toRat?_rest hdue hworld hbuild),
    strike_of_built hdue hworld htargets hbuild]

/-- What is finished in a survey is what the work on a chain leads to. -/
theorem leads_of_lookup {id : Int} {result : Except Defect Entry}
    (h : (v.surveyed r world artifact ids).finished.lookup id = some result) :
    id ∈ ids ∧ ∃ endpoint turns, v.settings.endpoint? id = some endpoint ∧
      (Investigation.investigate v.engine (.ofSettings endpoint v.settings)
        (subject r artifact)).Leads turns result ∧ ∀ t ∈ turns, t.From world.outside := by
  refine Schedule.finished_yields (p := fun id result => id ∈ ids ∧ ∃ endpoint turns,
    v.settings.endpoint? id = some endpoint ∧
    (Investigation.investigate v.engine (.ofSettings endpoint v.settings)
      (subject r artifact)).Leads turns result ∧ ∀ t ∈ turns, t.From world.outside) ?_
    (Schedule.mem_of_lookup_eq_some h)
  intro job hjob turns result hleads hfrom
  obtain ⟨id, hid, endpoint, hendpoint, rfl⟩ := mem_jobs.mp hjob
  exact ⟨hid, endpoint, turns, hendpoint, hleads, hfrom⟩

/-! ### Verifications -/

/-- A verification with a deadline ends in time, unless a question is settled in the moment of the
strike, and reports what was finished clearly before. -/
theorem verify_keepsDeadline (hs : v.settings.Sensible) {name : Document}
    (hengine : Engine.ofName name = .ok v.engine) (hdue : v.settings.Due d) (r : Request)
    {world : World} (hworld : world.workshop.Clocked) : v.KeepsDeadline r world d := by
  cases htargets : targets v.settings r.chain with
  | error f =>
    refine keepsDeadline_of_unsurveyed hdue (t := world.workshop.clock) ?_
      (hworld.clock.le_after hdue.pos.le) ?_ ?_
    · rw [finish?, htargets]
    · rw [verify_of_refused htargets]
    · rw [strike, htargets]
  | ok ids =>
  cases hbuild : (v.build r world.workshop).1 with
  | error f =>
    refine keepsDeadline_of_unsurveyed hdue (t := v.resumed r world) ?_ (resumed_le hdue) ?_ ?_
    · rw [finish?, htargets, hbuild]
    · rw [verify_of_unbuilt htargets hbuild]
    · rw [strike, htargets, hbuild]
  | ok artifact =>
    have hverify := verify_of_surveyed hs htargets hbuild
    have hsurveyed := surveyed_eq hdue hworld htargets hbuild
    have hclock : (v.resumed r world).Kept := (clock_le_resumed hdue hworld hbuild).1
    have hle := resumed_le_strike hdue hworld htargets hbuild
    have hkept : ∀ job ∈ jobs v.settings v.engine (subject r artifact) ids, job.activity.Kept := by
      intro job hjob
      obtain ⟨id, -, e, -, rfl⟩ := mem_jobs.mp hjob
      exact Investigation.investigate_kept hengine _ _
    refine ⟨?_, strike_of_tellsLeft hdue hworld htargets hbuild, fun e he hreleased hearly => ?_⟩
    · rw [finish?_of_surveyed hs htargets hbuild, hverify, hsurveyed]
      refine (Schedule.ends_or_settles_run hkept hclock hle).imp_left fun h => ?_
      exact ⟨_, if_pos (List.isEmpty_iff.mpr h.1), h.2⟩
    · rw [hverify] at he
      obtain ⟨result, hresult⟩ := Schedule.exists_lookup_of_released hkept hclock hle
        (hsurveyed ▸ he) hreleased hearly
      rw [← hsurveyed] at hresult
      obtain ⟨hid, endpoint, turns, hendpoint, hleads, hfrom⟩ := leads_of_lookup hresult
      refine ⟨_, artifact, endpoint, turns, result, congrArg Verification.result hverify, hbuild,
        hendpoint, hleads, hfrom, ?_⟩
      exact List.mem_map.mpr ⟨e.chain, hid, entryFor_of_lookup hresult _⟩

/-! ### In a hurry -/

/-- A verifier with ten seconds for everything. -/
def hurried : Verifier :=
  { forMainnet with settings := { forMainnet.settings with deadline := .ofInt 10 } }

/-- A request that asks for a deployment too. -/
def deploymentRequest : Request := { sourceRequest with creationTransaction := some "0xcc" }

/-- A node that tells a code after ten seconds, and then has trouble. -/
def lateNode : Outside where
  nodes := [("u1", [
    ⟨10, .answered 200 "" (.document (.object [("result", .text "0x60")]))⟩,
    ⟨20, .unreachable ""⟩, ⟨100, .unreachable ""⟩])]

theorem clocked_oneSource : oneSource.Clocked where
  clock := Seconds.nearest_zero
  git := nofun
  forge := nofun
  compiler := by decide +kernel

theorem due_hurried : hurried.settings.Due 10 where
  deadline := by decide +kernel
  double := by decide +kernel
  pos := by decide

/-- A node that tells a code after five seconds. -/
def quickNode : Outside where
  nodes := [("u1", [⟨5, .answered 200 "" (.document (.object [("result", .text "0x60")]))⟩])]

theorem verify_keepsDeadline_hurried :
    hurried.settings.Sensible ∧ Engine.ofName (.text "heimdall") = .ok hurried.engine ∧
      hurried.settings.Due 10 ∧ oneSource.Clocked ∧
      hurried.KeepsDeadline sourceRequest ⟨oneSource, quickNode⟩ 10 ∧
      hurried.strike sourceRequest ⟨oneSource, quickNode⟩ = 10 ∧
      hurried.finish? sourceRequest ⟨oneSource, quickNode⟩ = some 5 ∧
      (hurried.verify sourceRequest ⟨oneSource, quickNode⟩).events.any (fun e =>
        decide (e.time = 5) && e.deed matches .released) = true := by
  have hs : hurried.settings.Sensible := ⟨by decide, by decide⟩
  have hengine : Engine.ofName (.text "heimdall") = .ok hurried.engine := rfl
  refine ⟨hs, hengine, due_hurried, clocked_oneSource, ?_, ?_, ?_, ?_⟩
  · exact verify_keepsDeadline hs hengine due_hurried sourceRequest clocked_oneSource
  · decide +kernel
  · decide +kernel
  · decide +kernel

/-- A question that is answered just when the deadline strikes makes a verification last for a minute
more. -/
theorem deadline_overrun :
    hurried.finish? deploymentRequest ⟨oneSource, lateNode⟩ = some 70 ∧
      oneSource.clock + 10 < 70 := by
  decide +kernel

end Verifier

end Attest
