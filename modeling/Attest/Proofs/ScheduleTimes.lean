import Attest.Proofs.ScheduleInduction
import Attest.Proofs.ScheduleLog
import Attest.Proofs.ScheduleRun

/-! The log of a schedule tells things in the order of their times, and what is not over at its end is
never over. -/

namespace Attest.Schedule

/-! ### Times -/

theorem time_of_mem_advance_log (chain : Int) (clock : Seconds) (outside : Outside) (sent : Nat)
    (inSession : Bool) (x : Activity α) :
    ∀ e ∈ (advance chain clock outside sent inSession x).log, e.time = clock := by
  induction x generalizing inSession with
  | done a => simp [advance]
  | mark m rest ih => exact List.forall_mem_cons.mpr ⟨rfl, ih _⟩
  | time next ih => exact ih clock inSession
  | wait w expiry next ih => exact List.forall_mem_singleton.mpr rfl

namespace State

/-- From some time on, and after some log, everything has been told in order. -/
structure Timed (since : Seconds) (before : List Event) (s : State α) : Prop where
  clock : since ≤ s.clock
  awake : s.Awake
  log : ∃ events, s.log = before ++ events ∧ events.Pairwise (·.time ≤ ·.time) ∧
    ∀ e ∈ events, since ≤ e.time ∧ e.time ≤ s.clock

/-- The wait that ends next ends before all others. -/
theorem le_of_due? {s : State α} {deadline : Expiry} {r : Running α} {t : Seconds}
    (h : s.due? deadline = some (r, t)) {q : Running α} (hq : q ∈ s.running) {u : Seconds}
    (hu : q.wake = some u) : t ≤ u := by
  obtain ⟨-, hwake, -⟩ := due?_eq_some h
  unfold due? at h
  split at h
  · cases h
  · next first rest hrunning =>
    rw [hrunning] at hq
    obtain ⟨v, hv, hvu⟩ := soonest_endsBy first rest q hq u hu
    simp only [hv] at h
    split at h
    · cases h
      exact hvu
    · cases h

namespace Timed

variable {since : Seconds} {before : List Event} {s : State α}

theorem record (hs : s.Timed since before) (events : List Event)
    (hevents : ∀ e ∈ events, e.time = s.clock) : (s.record events).Timed since before := by
  obtain ⟨told, hlog, hsorted, htimes⟩ := hs.log
  refine ⟨hs.clock, hs.awake, told ++ events, ?_, ?_, ?_⟩
  · exact (congrArg (· ++ events) hlog).trans (List.append_assoc _ _ _)
  · refine List.pairwise_append.mpr ⟨hsorted, ?_, fun a ha b hb => ?_⟩
    · exact List.pairwise_of_forall_mem_list fun a ha b hb => by rw [hevents a ha, hevents b hb]
    · rw [hevents b hb]
      exact (htimes a ha).2
  · refine List.forall_mem_append.mpr ⟨htimes, fun e he => ?_⟩
    rw [hevents e he]
    exact ⟨hs.clock, le_rfl⟩

theorem carryOn (hs : s.Timed since before) (chain : Int) (sent : Nat) (inSession : Bool)
    (x : Activity α) : (s.carryOn chain sent inSession x).Timed since before := by
  have hawake := hs.awake.carryOn chain sent inSession x
  have hadvanced := hs.record _ (time_of_mem_advance_log chain s.clock s.outside sent inSession x)
  cases h : (advance chain s.clock s.outside sent inSession x).standing with
  | finished a =>
    rw [carryOn_of_finished chain sent inSession h]
    have hreleased := hadvanced.record [⟨s.clock, chain, .released⟩]
      (List.forall_mem_singleton.mpr rfl)
    exact ⟨hs.clock, hs.awake, hreleased.log⟩
  | waiting wake answered next =>
    rw [carryOn_of_waiting chain sent inSession h] at hawake ⊢
    exact ⟨hs.clock, hawake, hadvanced.log⟩

theorem grant {queue : List (Job α)} (hs : s.Timed since before) :
    (s.grant queue).Timed since before := by
  refine grant_induction (I := fun t => t.Timed since before) (fun s job queue _ hs => ?_)
    ⟨hs.clock, hs.awake, hs.log⟩
  have hacquired := hs.record [⟨s.clock, job.chain, .acquired⟩] (List.forall_mem_singleton.mpr rfl)
  have htaken : ({ s.acquire job.chain with queue } : State α).Timed since before :=
    ⟨hacquired.clock, hacquired.awake, hacquired.log⟩
  exact htaken.carryOn job.chain 0 false job.activity

/-- A later state with the same log. -/
theorem later {s' : State α} (hs : s.Timed since before) (hclock : s.clock ≤ s'.clock)
    (hawake : s'.Awake) (hlog : s'.log = s.log) : s'.Timed since before := by
  obtain ⟨told, htold, hsorted, htimes⟩ := hs.log
  exact ⟨hs.clock.trans hclock, hawake, told, hlog.trans htold, hsorted,
    fun e he => ⟨(htimes e he).1, (htimes e he).2.trans hclock⟩⟩

theorem resume {deadline : Expiry} {r : Running α} {t : Seconds} (hs : s.Timed since before)
    (hdue : s.due? deadline = some (r, t)) : (s.resume r t).Timed since before := by
  obtain ⟨hmem, hwake, -⟩ := due?_eq_some hdue
  have htaken : (s.takeUp r t).Timed since before :=
    hs.later (hs.awake r hmem t hwake)
      (fun q hq u hu => le_of_due? hdue (List.mem_of_mem_filter hq) hu) rfl
  exact (htaken.carryOn r.chain r.sent r.inSession r.next).grant

theorem proceed (hs : s.Timed since before) (deadline : Expiry) (fuel : Nat) :
    (s.proceed deadline fuel).Timed since before :=
  proceed_induction (I := fun t => t.Timed since before) (fun _ _ _ hdue hs => hs.resume hdue) hs fuel

theorem strikeOne (hs : s.Timed since before) {time : Seconds} (htime : s.clock = time)
    (turns : Nat) (r : Running α) : (State.strikeOne time turns s r).Timed since before ∧
      (State.strikeOne time turns s r).clock = time := by
  have hdismissed (s : State α) (r : Running α) (hs : s.Timed since before ∧ s.clock = time) :
      (s.dismiss time r).Timed since before ∧ (s.dismiss time r).clock = time := by
    refine ⟨?_, hs.2⟩
    have h := hs.1.record ((if r.inSession then [⟨time, r.chain, .closed⟩] else []) ++
      [⟨time, r.chain, .released⟩]) (by cases r.inSession <;> simp [hs.2])
    exact ⟨h.clock, h.awake, h.log⟩
  have hoverheard (s : State α) (r : Running α) (hs : s.Timed since before ∧ s.clock = time) :
      (s.overhear time r).Timed since before ∧ (s.overhear time r).clock = time := by
    have h := hs.1.record (advance r.chain time s.outside r.sent r.inSession r.next).log fun e he =>
      (time_of_mem_advance_log _ _ _ _ _ _ e he).trans hs.2.symm
    exact ⟨⟨h.clock, h.awake, h.log⟩, hs.2⟩
  refine strikeOne_induction (P := fun s _ => s.Timed since before ∧ s.clock = time)
    (Q := fun s => s.Timed since before ∧ s.clock = time) hdismissed (fun s r hs _ _ => ?_)
    (fun s r a hs _ _ _ => ?_) (fun s r wake answered next hs _ _ _ => hoverheard s r hs)
    ⟨hs, htime⟩ turns
  · exact ⟨hs.1.carryOn r.chain r.sent r.inSession r.next,
      (carryOn_clock r.chain r.sent r.inSession r.next).trans hs.2⟩
  · exact hdismissed _ _ (hoverheard s r hs)

theorem strikeAll {time : Seconds} (hs : s.Timed since before) (htime : s.clock ≤ time) :
    (s.strikeAll time).Timed since before := by
  refine (strikeAll_induction (I := fun _ t => t.Timed since before ∧ t.clock = time)
    (fun r rest s hs => strikeOne hs.1 hs.2 lastTurns r) ⟨hs.later htime nofun rfl, rfl⟩).1

theorem strike (hs : s.Timed since before) (deadline : Expiry) (fuel : Nat) :
    (s.strike deadline fuel).Timed since before := by
  rw [State.strike]
  split
  · exact hs
  · have h := (hs.strikeAll (State.Keeps.le_strikeTime s.clock deadline)).proceed .never fuel
    exact ⟨h.clock, h.awake, h.log⟩

end Timed

/-! ### What is never over -/

namespace Bounded

variable {s : State α}

theorem strikeOne {r : Running α} (hs : s.Bounded) {n : Nat} (hr : r.next.AtMost n) (time : Seconds)
    (turns : Nat) : (State.strikeOne time turns s r).Bounded ∧
      (State.strikeOne time turns s r).waitsLeft ≤ s.waitsLeft + r.next.mostWaits := by
  let N := s.waitsLeft + r.next.mostWaits
  refine strikeOne_induction
    (P := fun s r => s.Bounded ∧ (∃ n, r.next.AtMost n) ∧ s.waitsLeft + r.next.mostWaits ≤ N)
    (Q := fun s => s.Bounded ∧ s.waitsLeft ≤ N) ?_ ?_ ?_ ?_ ⟨hs, ⟨n, hr⟩, le_rfl⟩ turns
  · rintro s r ⟨hs, -, hle⟩
    exact ⟨⟨hs.running, hs.queue⟩, (Nat.le_add_right _ _).trans hle⟩
  · rintro s r ⟨hs, ⟨n, hn⟩, hle⟩ _ _
    obtain ⟨hbounded, hleft⟩ := hs.carryOn hn.mostWaits r.chain r.sent r.inSession
    exact ⟨hbounded, hleft.trans hle⟩
  · rintro s r a ⟨hs, -, hle⟩ _ _ _
    exact ⟨⟨hs.running, hs.queue⟩, (Nat.le_add_right _ _).trans hle⟩
  · rintro s r wake answered next ⟨hs, ⟨n, hn⟩, hle⟩ _ _ hwaiting
    obtain ⟨m, hm, hnext⟩ :=
      atMost_advance r.chain time s.outside r.sent r.inSession hn.mostWaits hwaiting
    have hless := Activity.mostWaits_le hnext
    refine ⟨⟨hs.running, hs.queue⟩, ⟨m, hnext⟩, ?_⟩
    show s.waitsLeft + next.mostWaits ≤ N
    omega

/-- A strike leaves no more to wait for than there was. -/
theorem strikeAll (hs : s.Bounded) (time : Seconds) :
    (s.strikeAll time).Bounded ∧ (s.strikeAll time).waitsLeft ≤ s.waitsLeft := by
  let left (struck : List (Running α)) : Nat := (struck.map fun r => r.next.mostWaits + 1).sum
  let I (struck : List (Running α)) (t : State α) : Prop := t.Bounded ∧
    (∀ r ∈ struck, ∃ n, r.next.AtMost n) ∧ t.waitsLeft + left struck ≤ s.waitsLeft
  have hstart : I s.running { s with clock := time, running := [], queue := [] } := by
    refine ⟨⟨nofun, nofun⟩, hs.running, ?_⟩
    show 0 + 0 + left s.running ≤ left s.running + _
    omega
  have hstep (r : Running α) (rest : List (Running α)) (t : State α) (ht : I (r :: rest) t) :
      I rest (State.strikeOne time lastTurns t r) := by
    obtain ⟨ht, hstruck, hle⟩ := ht
    obtain ⟨n, hn⟩ := hstruck r List.mem_cons_self
    obtain ⟨hbounded, hone⟩ := strikeOne ht hn time lastTurns
    refine ⟨hbounded, fun q hq => hstruck q (List.mem_cons_of_mem r hq), ?_⟩
    have hsum : left (r :: rest) = r.next.mostWaits + 1 + left rest := List.sum_cons
    omega
  obtain ⟨hbounded, -, hle⟩ := strikeAll_induction hstep hstart
  exact ⟨hbounded, hle⟩

theorem proceed (hs : s.Bounded) (deadline : Expiry) (fuel : Nat) :
    (s.proceed deadline fuel).Bounded ∧ (s.proceed deadline fuel).waitsLeft ≤ s.waitsLeft := by
  refine proceed_induction (I := fun t => t.Bounded ∧ t.waitsLeft ≤ s.waitsLeft)
    (fun t r time hdue ht => ?_) ⟨hs, le_rfl⟩ fuel
  obtain ⟨hbounded, hlt⟩ := ht.1.resume (due?_eq_some hdue).1 time
  exact ⟨hbounded, hlt.le.trans ht.2⟩

/-- With fuel for all waits, only what has no end is not over after the strike. -/
theorem wake_of_strike (hs : s.Bounded) (deadline : Expiry) {fuel : Nat} (hfuel : s.waitsLeft ≤ fuel)
    {r : Running α} (hr : r ∈ (s.strike deadline fuel).running) : r.wake = none := by
  rw [State.strike] at hr
  split at hr
  · next hempty =>
    rw [Bool.and_eq_true, List.isEmpty_iff] at hempty
    rw [hempty.1] at hr
    cases hr
  · obtain ⟨hbounded, hle⟩ := hs.strikeAll (strikeTime s.clock deadline)
    have hdue : (State.proceed .never fuel _).due? .never = none :=
      due?_proceed hbounded (hle.trans hfuel)
    cases hwake : r.wake with
    | none => rfl
    | some t => cases due?_eq_none hdue hr hwake

end Bounded

end State

/-! ### Whole runs -/

section Run

variable {slots waits : Nat} {clock : Seconds} {deadline : Expiry} {outside : Outside}
  {jobs : List (Job α)}

theorem before_cases (s : State α) (deadline : Expiry) :
    s.before deadline = s ∨ s.before deadline = { s with finished := [] } := by
  rw [State.before]
  split
  · exact .inl rfl
  · exact .inr rfl

/-- A schedule tells what happens in the order of time. -/
theorem timed_run : (run slots waits clock deadline outside jobs).Timed clock [] := by
  have hopening : (State.opening slots clock outside jobs).Timed clock [] :=
    State.Timed.grant ⟨le_rfl, nofun, [], rfl, .nil, nofun⟩
  have hbefore : ((State.opening slots clock outside jobs).before deadline).Timed clock [] := by
    obtain h | h := before_cases (State.opening slots clock outside jobs) deadline <;> rw [h]
    · exact hopening
    · exact ⟨hopening.clock, hopening.awake, hopening.log⟩
  exact (hbefore.proceed deadline _).strike deadline _

/-- A schedule that does not come to its end waits for what never comes. -/
theorem wake_of_mem_running (hwaits : ∀ job ∈ jobs, job.activity.AtMost waits) {r : Running α}
    (hr : r ∈ (run slots waits clock deadline outside jobs).running) : r.wake = none := by
  obtain ⟨hopening, hle⟩ : (State.opening slots clock outside jobs).Bounded ∧ _ :=
    bounded_opening hwaits
  have hbefore : ((State.opening slots clock outside jobs).before deadline).Bounded ∧
      ((State.opening slots clock outside jobs).before deadline).waitsLeft ≤ jobs.length * waits := by
    obtain h | h := before_cases (State.opening slots clock outside jobs) deadline <;> rw [h]
    · exact ⟨hopening, hle⟩
    · exact ⟨⟨hopening.running, hopening.queue⟩, hle⟩
  obtain ⟨hproceeded, hleft⟩ := hbefore.1.proceed deadline (jobs.length * waits + 1)
  exact hproceeded.wake_of_strike deadline
    (hleft.trans (hbefore.2.trans (Nat.le_succ _))) hr

end Run

end Attest.Schedule
