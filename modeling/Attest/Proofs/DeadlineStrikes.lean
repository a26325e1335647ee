import Attest.Proofs.BuildLimits
import Attest.Proofs.Histories
import Attest.Proofs.ScheduleTimes
import Attest.Proofs.SessionMarks

/-! # What a deadline does to a schedule

When the deadline strikes, everything comes to an end, unless a question is settled in that very moment:
the chain that asked it does not notice the strike. What was finished clearly before counts. -/

namespace Attest

/-! ### Times that clocks keep -/

/-- A time that a clock can keep. -/
def Seconds.Kept (t : Seconds) : Prop := t.nearest = t

theorem Seconds.kept_nearest (t : Seconds) : t.nearest.Kept := Seconds.nearest_nearest t

theorem Seconds.Kept.notBefore {now t : Seconds} (hnow : now.Kept) (ht : t.Kept) :
    (now.notBefore t).Kept := by
  rw [Seconds.notBefore]
  split
  · exact hnow
  · exact ht

theorem Seconds.Kept.le_after {t span : Seconds} (ht : t.Kept) (hspan : 0 ≤ span) :
    t ≤ t.after span :=
  ht.symm.le.trans (Seconds.nearest_mono (le_add_of_nonneg_right hspan))

/-- A time that a clock tells from a later one, with the clock's resolution between them. -/
def Seconds.ClearlyBefore (t limit : Seconds) : Prop :=
  t < limit ∧ t.after Seconds.resolution ≤ limit

def Expiry.Kept : Expiry → Prop
  | .at t => t.Kept
  | .atOnce | .never => True

theorem Expiry.kept_after (start : Seconds) (x : Binary64) : (Expiry.after start x).Kept := by
  cases x with
  | finite negative m e => exact Seconds.kept_nearest _
  | infinite negative => cases negative <;> trivial
  | undefined => trivial

/-- A wait that begins and is cut off at times that clocks keep ends at one. -/
theorem Expiry.Kept.endOf {e : Expiry} {now t : Seconds} {delay : Option Seconds} (he : e.Kept)
    (hnow : now.Kept) (h : (e.endOf now delay).time? = some t) : t.Kept := by
  unfold Expiry.endOf at h
  split at h
  · have hwake (d : Seconds) : (now.notBefore (now.after d)).Kept :=
      hnow.notBefore (Seconds.kept_nearest _)
    dsimp only at h
    split at h
    · split_ifs at h
      · cases h
        exact hwake _
      · cases h
        exact hnow.notBefore he
    · split_ifs at h
      · cases h
        exact hwake _
      · cases h
        exact hnow
    · cases h
      exact hwake _
  · split at h
    · cases h
      exact hnow.notBefore he
    · cases h
      exact hnow
    · cases h

/-- Patience is always at its end at a time that clocks keep. -/
def Activity.Kept : Activity α → Prop
  | done _ => True
  | mark _ rest => rest.Kept
  | time next => ∀ now, (next now).Kept
  | wait _ expiry next => expiry.Kept ∧ ∀ answer, (next answer).Kept

theorem Activity.Kept.bind {x : Activity α} {f : α → Activity β} (hx : x.Kept)
    (hf : ∀ a, (f a).Kept) : (x.bind f).Kept := by
  induction x with
  | done a => exact hf a
  | mark m rest ih => exact ih hx
  | time next ih => exact fun now => ih now (hx now)
  | wait w expiry next ih => exact ⟨hx.1, fun answer => ih answer (hx.2 answer)⟩

namespace Node.Fetcher

variable (f : Fetcher)

theorem attempt_kept (url : String) (call : Call) (timedOut : Problem) {expiry : Expiry}
    (hexpiry : expiry.Kept) (attempts : Nat) (pause : Binary64) :
    (attempt url call timedOut expiry attempts pause).Kept := by
  induction attempts generalizing pause with
  | zero => trivial
  | succ attempts ih =>
    refine ⟨hexpiry, fun reply => ?_⟩
    cases reply with
    | none => trivial
    | some reply =>
      dsimp only
      split
      · trivial
      · split
        · trivial
        · refine ⟨hexpiry, fun rested => ?_⟩
          cases rested with
          | none => trivial
          | some _ => exact ih pause.double

theorem ask_kept (call : Call) : (f.ask call).run.Kept := by
  rw [ask, ExceptT.run_mk]
  split
  · trivial
  · exact fun now => attempt_kept _ _ _ (Expiry.kept_after now f.timeout) _ _

theorem kept_then {x : Asking α} (hx : x.run.Kept) (g : α → Except Problem β) :
    (x >>= fun a => Asking.ofExcept (g a)).run.Kept := by
  rw [ExceptT.run_bind]
  refine hx.bind fun r => ?_
  cases r <;> trivial

end Node.Fetcher

namespace Chain.Investigation

theorem find_kept (f : Node.Fetcher) (s : Subject) : (find f s).Kept := by
  have hcode : (findCode f s).Kept :=
    (Node.Fetcher.kept_then (f.ask_kept _) _).bind fun _ => trivial
  refine hcode.bind fun r => ?_
  cases r with
  | error d => trivial
  | ok code =>
    have hcreation : (findCreation f s.creationTransaction).Kept := by
      cases s.creationTransaction with
      | none => trivial
      | some hash =>
        refine Activity.Kept.bind ?_ fun _ => trivial
        exact Node.Fetcher.kept_then (Node.Fetcher.kept_then (f.ask_kept _) _) _
    refine hcreation.bind fun r => ?_
    cases r <;> trivial

theorem investigate_kept {name : Document} {engine : Engine} (hengine : Engine.ofName name = .ok engine)
    (f : Node.Fetcher) (s : Subject) : (investigate engine f s).Kept := by
  have hdecompile (code : Bytes) : (engine.decompile code).Kept := by
    obtain rfl | rfl := Engine.eq_of_ofName hengine
    · trivial
    · refine ⟨trivial, fun answer => ?_⟩
      cases answer <;> trivial
  have hsession : (find f s).inSession.Kept := (find_kept f s).bind fun _ => trivial
  refine hsession.bind fun r => ?_
  cases r with
  | error d => trivial
  | ok findings =>
    dsimp only
    rw [judge]
    split
    · trivial
    · split
      · exact (hdecompile findings.code.bytes).bind fun _ => trivial
      · trivial

end Chain.Investigation

theorem Deed.isSettled_iff {d : Deed} : d.isSettled = true ↔ d = .settled := by
  cases d <;> simp [Deed.isSettled]

namespace Schedule

theorem kept_advance {x : Activity α} {clock : Seconds} (hclock : clock.Kept) (hx : x.Kept)
    (chain : Int) (outside : Outside) (sent : Nat) (inSession : Bool) {wake : Option Seconds}
    {answered : Bool} {next : Activity α}
    (h : (advance chain clock outside sent inSession x).standing = .waiting wake answered next) :
    (∀ t, wake = some t → t.Kept) ∧ next.Kept := by
  induction x generalizing inSession with
  | done a => cases h
  | mark m rest ih => exact ih hx _ h
  | time next ih => exact ih clock (hx clock) inSession h
  | wait w expiry rest ih =>
    obtain ⟨hexpiry, hrest⟩ := hx
    rw [advance] at h
    dsimp only at h
    cases hend : expiry.endOf clock (outside.serve w).1.1 with
    | never =>
      rw [hend] at h
      cases h
      exact ⟨by simp, hrest none⟩
    | answered u =>
      rw [hend] at h
      cases h
      exact ⟨fun t ht => hexpiry.endOf hclock (by rw [hend]; exact ht), hrest _⟩
    | expired u =>
      rw [hend] at h
      cases h
      exact ⟨fun t ht => hexpiry.endOf hclock (by rw [hend]; exact ht), hrest none⟩

/-- Only who is done with everything gives back a slot. -/
theorem deed_ne_released_of_mem_advance_log (chain : Int) (clock : Seconds) (outside : Outside)
    (sent : Nat) (inSession : Bool) (x : Activity α) :
    ∀ e ∈ (advance chain clock outside sent inSession x).log, e.deed ≠ .released := by
  induction x generalizing inSession with
  | done a => simp [advance]
  | mark m rest ih =>
    refine List.forall_mem_cons.mpr ⟨?_, ih _⟩
    cases m <;> simp [Mark.deed]
  | time next ih => exact ih clock inSession
  | wait w expiry next ih =>
    refine List.forall_mem_singleton.mpr ?_
    cases w <;> simp [Wait.deed]

theorem le_of_isBefore {t limit : Seconds} (ht : t.Kept)
    (h : State.isBefore t (.at limit) = true) : t ≤ limit :=
  (ht.le_after (by norm_num [Seconds.resolution])).trans (of_decide_eq_true h)

namespace State

/-! ### Before the strike -/

/-- What is true of a schedule up to the strike. -/
structure InTime (limit : Seconds) (s : State α) : Prop where
  kept : s.clock.Kept
  clock : s.clock ≤ limit
  queue : ∀ job ∈ s.queue, job.activity.Kept
  running : ∀ r ∈ s.running, (∀ t, r.wake = some t → t.Kept) ∧ r.next.Kept
  /-- Whoever came to an end clearly before the strike is among the finished ones. -/
  counted : ∀ e ∈ s.log, e.deed = .released → isBefore e.time (.at limit) = true →
    e.chain ∈ s.finished.map (·.1)

namespace InTime

variable {limit : Seconds} {s : State α}

theorem record (hs : s.InTime limit) (events : List Event)
    (hevents : ∀ e ∈ events, e.deed ≠ .released) : (s.record events).InTime limit :=
  { hs with
    counted := List.forall_mem_append.mpr
      ⟨hs.counted, fun e he hreleased => absurd hreleased (hevents e he)⟩ }

theorem carryOn (hs : s.InTime limit) {x : Activity α} (hx : x.Kept) (chain : Int) (sent : Nat)
    (inSession : Bool) : (s.carryOn chain sent inSession x).InTime limit := by
  have hadvanced := hs.record _
    (deed_ne_released_of_mem_advance_log chain s.clock s.outside sent inSession x)
  cases h : (advance chain s.clock s.outside sent inSession x).standing with
  | finished a =>
    rw [carryOn_of_finished chain sent inSession h]
    refine { hs with counted := List.forall_mem_append.mpr ⟨fun e he hreleased hbefore => ?_, ?_⟩ }
    · rw [List.map_append, List.mem_append]
      exact .inl (hadvanced.counted e he hreleased hbefore)
    · refine List.forall_mem_singleton.mpr fun _ _ => ?_
      rw [List.map_append, List.mem_append]
      exact .inr (List.mem_singleton_self chain)
  | waiting wake answered next =>
    rw [carryOn_of_waiting chain sent inSession h]
    refine { hs with running := ?_, counted := hadvanced.counted }
    exact List.forall_mem_append.mpr ⟨hs.running, List.forall_mem_singleton.mpr
      (kept_advance hs.kept hx chain s.outside sent inSession h)⟩

theorem grant {queue : List (Job α)} (hs : ({ s with queue } : State α).InTime limit) :
    (s.grant queue).InTime limit := by
  refine grant_induction (I := fun t => t.InTime limit) (fun s job queue _ hs => ?_) hs
  have hacquired := hs.record [⟨s.clock, job.chain, .acquired⟩]
    (List.forall_mem_singleton.mpr nofun)
  have htaken : ({ s.acquire job.chain with queue } : State α).InTime limit :=
    { hacquired with queue := fun j hj => hs.queue j (List.mem_cons_of_mem job hj) }
  exact htaken.carryOn (hs.queue job List.mem_cons_self) job.chain 0 false

theorem proceed (hs : s.InTime limit) (fuel : Nat) : (s.proceed (.at limit) fuel).InTime limit := by
  refine proceed_induction (I := fun t => t.InTime limit) (fun s r t hdue hs => ?_) hs fuel
  obtain ⟨hmem, hwake, hbefore⟩ := due?_eq_some hdue
  obtain ⟨hkept, hnext⟩ := hs.running r hmem
  have htaken : (s.takeUp r t).InTime limit :=
    { hs with
      kept := hkept t hwake
      clock := le_of_isBefore (hkept t hwake) hbefore
      running := fun q hq => hs.running q (List.mem_of_mem_filter hq) }
  exact (htaken.carryOn hnext r.chain r.sent r.inSession).grant

/-- What has happened up to the deadline's own time does not count. -/
theorem before (hs : s.InTime limit) (htimes : ∀ e ∈ s.log, e.time = s.clock) :
    (s.before (.at limit)).InTime limit := by
  rw [State.before]
  split
  · exact hs
  · next hlate =>
    refine { hs with counted := fun e he _ hbefore => ?_ }
    rw [htimes e he] at hbefore
    exact absurd hbefore hlate

end InTime

/-! ### The strike -/

/-- All that a strike left is over, or a question was settled in the moment of the strike. -/
def Quiet (time : Seconds) (s : State α) : Prop :=
  s.running = [] ∨ ∃ e ∈ s.log, e.deed = .settled ∧ e.time = time

theorem Quiet.of_grown {time : Seconds} {s s' : State α} (hs : s.Quiet time)
    (hrunning : s'.running = s.running) (hlog : s.log <+: s'.log) : s'.Quiet time := by
  obtain hs | ⟨e, he, hsettled⟩ := hs
  · exact .inl (hrunning.trans hs)
  · exact .inr ⟨e, hlog.subset he, hsettled⟩

theorem advance_log_subset_carryOn {s : State α} {time : Seconds} (h : s.clock = time) (chain : Int)
    (sent : Nat) (inSession : Bool) (x : Activity α) :
    (advance chain time s.outside sent inSession x).log ⊆ (s.carryOn chain sent inSession x).log := by
  subst h
  cases h : (advance chain s.clock s.outside sent inSession x).standing with
  | finished a =>
    rw [carryOn_of_finished chain sent inSession h]
    exact fun e he => List.mem_append_left _ (List.mem_append_right _ he)
  | waiting wake answered next =>
    rw [carryOn_of_waiting chain sent inSession h]
    exact List.subset_append_right _ _

theorem quiet_strikeOne {time : Seconds} {s : State α} (hs : s.clock = time ∧ s.Quiet time)
    (turns : Nat) (r : Running α) :
    (strikeOne time turns s r).clock = time ∧ (strikeOne time turns s r).Quiet time := by
  have hdismissed (s : State α) (r : Running α) (hs : s.clock = time ∧ s.Quiet time) :
      (s.dismiss time r).clock = time ∧ (s.dismiss time r).Quiet time :=
    ⟨hs.1, hs.2.of_grown rfl (log_prefix_dismiss time r)⟩
  have hoverheard (s : State α) (r : Running α) (hs : s.clock = time ∧ s.Quiet time) :
      (s.overhear time r).clock = time ∧ (s.overhear time r).Quiet time :=
    ⟨hs.1, hs.2.of_grown rfl (List.prefix_append _ _)⟩
  refine strikeOne_induction (P := fun s _ => s.clock = time ∧ s.Quiet time)
    (Q := fun s => s.clock = time ∧ s.Quiet time) hdismissed (fun s r hs _ hsettled => ?_)
    (fun s r a hs _ _ _ => hdismissed _ r (hoverheard s r hs))
    (fun s r wake answered next hs _ _ _ => hoverheard s r hs) hs turns
  obtain ⟨hclock, -⟩ := hs
  obtain ⟨e, he, hdeed⟩ := List.any_eq_true.mp hsettled
  refine ⟨(carryOn_clock r.chain r.sent r.inSession r.next).trans hclock, .inr ⟨e, ?_, ?_, ?_⟩⟩
  · exact advance_log_subset_carryOn hclock r.chain r.sent r.inSession r.next he
  · exact Deed.isSettled_iff.mp hdeed
  · exact time_of_mem_advance_log _ _ _ _ _ _ e he

theorem quiet_strikeAll (s : State α) (time : Seconds) :
    (s.strikeAll time).clock = time ∧ (s.strikeAll time).Quiet time :=
  strikeAll_induction (I := fun _ t => t.clock = time ∧ t.Quiet time)
    (fun r _ _ hs => quiet_strikeOne hs lastTurns r) ⟨rfl, .inl rfl⟩

theorem timed_strikeAll (s : State α) (time : Seconds) :
    (s.strikeAll time).Timed time s.log := by
  have hstart : ({ s with clock := time, running := [], queue := [] } : State α).Timed time s.log :=
    ⟨le_rfl, nofun, [], (List.append_nil _).symm, .nil, nofun⟩
  exact (strikeAll_induction (I := fun _ t => t.Timed time s.log ∧ t.clock = time)
    (fun r _ _ hs => hs.1.strikeOne hs.2 lastTurns r) ⟨hstart, rfl⟩).1

variable {limit : Seconds} {s : State α}

theorem strikeTime_of_le (h : s.clock ≤ limit) : strikeTime s.clock (.at limit) = limit :=
  if_neg h.not_gt

/-- A strike that comes in time ends everything, unless a question is settled in its moment. -/
theorem ends_or_settles_strike (h : s.clock ≤ limit) (fuel : Nat) :
    ((s.strike (.at limit) fuel).running = [] ∧ (s.strike (.at limit) fuel).clock ≤ limit) ∨
      ∃ e ∈ (s.strike (.at limit) fuel).log, e.deed = .settled ∧ e.time = limit := by
  rw [State.strike]
  split
  · next hempty =>
    rw [Bool.and_eq_true, List.isEmpty_iff] at hempty
    exact .inl ⟨hempty.1, h⟩
  · rw [strikeTime_of_le h]
    obtain ⟨hclock, hquiet⟩ := quiet_strikeAll s limit
    obtain hnone | ⟨e, he, hsettled⟩ := hquiet
    · have hdue : (s.strikeAll limit).due? .never = none := by
        rw [due?, hnone]
      dsimp only
      rw [proceed_of_due?_eq_none hdue]
      exact .inl ⟨hnone, hclock.le⟩
    · exact .inr ⟨e, (log_prefix_proceed .never fuel).subset he, hsettled⟩

/-- What is told of a time before the strike had been told before it. -/
theorem mem_log_of_mem_strike (h : s.clock ≤ limit) {fuel : Nat} {e : Event}
    (he : e ∈ (s.strike (.at limit) fuel).log) (hearly : e.time < limit) : e ∈ s.log := by
  rw [State.strike] at he
  split at he
  · exact he
  · rw [strikeTime_of_le h] at he
    obtain ⟨events, hlog, -, htimes⟩ := ((timed_strikeAll s limit).proceed .never fuel).log
    replace he : e ∈ s.log ++ events := hlog ▸ he
    refine (List.mem_append.mp he).resolve_right fun hlater => ?_
    exact absurd (htimes e hlater).1 hearly.not_ge

end State

/-! ### Whole runs -/

section Run

variable {slots waits : Nat} {clock limit : Seconds} {outside : Outside} {jobs : List (Job α)}

/-- Up to the strike. -/
theorem inTime_proceed (hjobs : ∀ job ∈ jobs, job.activity.Kept) (hclock : clock.Kept)
    (hle : clock ≤ limit) (fuel : Nat) :
    (((State.opening slots clock outside jobs).before (.at limit)).proceed (.at limit) fuel).InTime
      limit := by
  have hopening : (State.opening slots clock outside jobs).InTime limit :=
    State.InTime.grant ⟨hclock, hle, hjobs, nofun, nofun⟩
  refine (hopening.before fun e he => ?_).proceed fuel
  have htimed : (State.opening slots clock outside jobs).Timed clock [] :=
    State.Timed.grant ⟨le_rfl, nofun, [], rfl, .nil, nofun⟩
  have hstart : (State.opening slots clock outside jobs).clock = clock := State.grant_clock jobs
  obtain ⟨events, hlog, -, htimes⟩ := htimed.log
  rw [hlog, List.nil_append] at he
  obtain ⟨hfrom, hto⟩ := htimes e he
  exact hto.antisymm (hstart.trans_le hfrom)

/-- When the deadline strikes a schedule is over, unless a question is settled in that very moment. -/
theorem ends_or_settles_run (hjobs : ∀ job ∈ jobs, job.activity.Kept) (hclock : clock.Kept)
    (hle : clock ≤ limit) :
    ((run slots waits clock (.at limit) outside jobs).running = [] ∧
        (run slots waits clock (.at limit) outside jobs).clock ≤ limit) ∨
      ∃ e ∈ (run slots waits clock (.at limit) outside jobs).log,
        e.deed = .settled ∧ e.time = limit :=
  State.ends_or_settles_strike (inTime_proceed hjobs hclock hle _).clock _

/-- What is finished clearly before the strike counts. -/
theorem exists_lookup_of_released (hjobs : ∀ job ∈ jobs, job.activity.Kept) (hclock : clock.Kept)
    (hle : clock ≤ limit) {e : Event} (he : e ∈ (run slots waits clock (.at limit) outside jobs).log)
    (hreleased : e.deed = .released) (hearly : e.time.ClearlyBefore limit) :
    ∃ a, (run slots waits clock (.at limit) outside jobs).finished.lookup e.chain = some a := by
  have hintime : (State.proceed (.at limit) (jobs.length * waits + 1)
      ((State.opening slots clock outside jobs).before (.at limit))).InTime limit :=
    inTime_proceed hjobs hclock hle _
  have hcounted := hintime.counted e (State.mem_log_of_mem_strike hintime.clock he hearly.1)
    hreleased (decide_eq_true hearly.2)
  rw [run, State.finished_strike, ← Option.ne_none_iff_exists']
  intro hnone
  rw [List.lookup_eq_none_iff] at hnone
  obtain ⟨f, hf, hchain⟩ := List.mem_map.mp hcounted
  simpa [hchain] using hnone f hf

end Run

end Schedule

end Attest
