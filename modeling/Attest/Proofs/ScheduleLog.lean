import Attest.Proofs.ScheduleSteps

/-! # What the log of a schedule can hold

Each chain does nothing but wait for what its activity waits for, and take and give back what it needs
for that: up to the deadline, in the moment of the strike and after it, and never before the start. -/

namespace Attest

/-- A deed is a wait of some kind, or no wait at all. -/
def Deed.Meets (q : Wait → Prop) : Deed → Prop
  | .posted url call _ => q (.post url call)
  | .paused seconds => q (.pause seconds)
  | .ran command => q (.run command)
  | _ => True

theorem Wait.deed_meets {q : Wait → Prop} {w : Wait} (h : q w) (sent : Nat) :
    (w.deed sent).Meets q := by
  cases w <;> exact h

theorem Mark.deed_meets (q : Wait → Prop) (m : Mark) : m.deed.Meets q := by
  cases m <;> trivial

namespace Schedule

/-- An event that does not come too early, and is a deed of the kind that its chain is allowed. -/
structure Fits (since : Seconds) (q : Int → Wait → Prop) (e : Event) : Prop where
  time : since ≤ e.time
  deed : e.deed.Meets (q e.chain)

def LogFits (since : Seconds) (q : Int → Wait → Prop) (log : List Event) : Prop :=
  ∀ e ∈ log, Fits since q e

variable {since : Seconds} {q : Int → Wait → Prop}

theorem LogFits.nil : LogFits since q [] := by
  simp [LogFits]

theorem LogFits.cons {event : Event} {log : List Event} (hevent : Fits since q event)
    (hlog : LogFits since q log) : LogFits since q (event :: log) := by
  intro e he
  rcases List.mem_cons.mp he with rfl | he
  · exact hevent
  · exact hlog e he

theorem LogFits.append {log events : List Event} (hlog : LogFits since q log)
    (hevents : LogFits since q events) : LogFits since q (log ++ events) := by
  intro e he
  rcases List.mem_append.mp he with he | he
  · exact hlog e he
  · exact hevents e he

theorem advance_logFits {p : α → Prop} {x : Activity α} {clock : Seconds} (hclock : since ≤ clock)
    (chain : Int) (outside : Outside) (sent : Nat) (inSession : Bool) (hx : x.All (q chain) p) :
    LogFits since q (advance chain clock outside sent inSession x).log := by
  induction x generalizing inSession with
  | done a => exact .nil
  | mark m rest ih => exact (ih _ hx).cons ⟨hclock, m.deed_meets _⟩
  | time next ih => exact ih clock inSession (hx clock)
  | wait w expiry next ih => exact LogFits.nil.cons ⟨hclock, Wait.deed_meets hx.1 sent⟩

/-- A wait under way: it does not end too early, and what comes after it waits only for what its chain
is allowed to wait for. -/
structure Running.Keeps (since : Seconds) (q : Int → Wait → Prop) (r : Running α) : Prop where
  wake : ∀ t, r.wake = some t → since ≤ t
  next : r.next.All (q r.chain) fun _ => True

/-- All that is under way and all that is in the log keeps to the start and to what is allowed. -/
structure State.Keeps (since : Seconds) (q : Int → Wait → Prop) (s : State α) : Prop where
  clock : since ≤ s.clock
  queue : ∀ job ∈ s.queue, job.activity.All (q job.chain) fun _ => True
  running : ∀ r ∈ s.running, r.Keeps since q
  log : LogFits since q s.log

namespace State.Keeps

variable {s : State α}

theorem carryOn (hs : s.Keeps since q) {chain : Int} {x : Activity α}
    (hx : x.All (q chain) fun _ => True) (sent : Nat) (inSession : Bool) :
    (s.carryOn chain sent inSession x).Keeps since q := by
  have hstanding := all_advance chain s.clock s.outside sent inSession hx
  have hlog := hs.log.append (advance_logFits hs.clock chain s.outside sent inSession hx)
  cases h : (advance chain s.clock s.outside sent inSession x).standing with
  | finished a =>
    rw [carryOn_of_finished chain sent inSession h]
    exact ⟨hs.clock, hs.queue, hs.running, hlog.append (LogFits.nil.cons ⟨hs.clock, trivial⟩)⟩
  | waiting wake answered next =>
    rw [h] at hstanding
    rw [carryOn_of_waiting chain sent inSession h]
    refine ⟨hs.clock, hs.queue, fun r hr => ?_, hlog⟩
    rcases List.mem_append.mp hr with hr | hr
    · exact hs.running r hr
    · rw [List.mem_singleton.mp hr]
      refine ⟨?_, hstanding⟩
      rintro t rfl
      exact hs.clock.trans (le_of_advance_waiting chain s.clock s.outside sent inSession h)

theorem grant {queue : List (Job α)} (hs : ({ s with queue } : State α).Keeps since q) :
    (s.grant queue).Keeps since q := by
  induction queue generalizing s with
  | nil => exact hs
  | cons job queue ih =>
    by_cases hfree : s.free = 0
    · rw [grant_of_full hfree]
      exact hs
    · have hrest : ({ s.acquire job.chain with queue } : State α).Keeps since q :=
        ⟨hs.clock, fun j hj => hs.queue j (List.mem_cons_of_mem job hj), hs.running,
          hs.log.append (LogFits.nil.cons ⟨hs.clock, trivial⟩)⟩
      rw [grant_of_free hfree]
      apply ih
      rw [← carryOn_with_queue]
      exact hrest.carryOn (hs.queue job List.mem_cons_self) 0 false

theorem resume (hs : s.Keeps since q) {r : Running α} (hr : r ∈ s.running) {time : Seconds}
    (htime : r.wake = some time) : (s.resume r time).Keeps since q := by
  have hkeeps := hs.running r hr
  refine grant (carryOn ?_ hkeeps.next r.sent r.inSession)
  exact ⟨hkeeps.wake time htime, hs.queue, fun p hp => hs.running p (List.mem_of_mem_filter hp),
    hs.log⟩

theorem proceed (hs : s.Keeps since q) (deadline : Expiry) (fuel : Nat) :
    (s.proceed deadline fuel).Keeps since q := by
  induction fuel generalizing s with
  | zero => exact hs
  | succ fuel ih =>
    rw [State.proceed]
    cases hdue : s.due? deadline with
    | none => exact hs
    | some next =>
      obtain ⟨hmem, hwake, -⟩ := due?_eq_some hdue
      exact ih (hs.resume hmem hwake)

/-! ### The strike -/

theorem dismiss (hs : s.Keeps since q) {time : Seconds} (htime : since ≤ time) (r : Running α) :
    (s.dismiss time r).Keeps since q := by
  refine ⟨hs.clock, hs.queue, hs.running, hs.log.append (LogFits.append ?_ ?_)⟩
  · split
    · exact LogFits.nil.cons ⟨htime, trivial⟩
    · exact .nil
  · exact LogFits.nil.cons ⟨htime, trivial⟩

theorem strikeOne (hs : s.Keeps since q) {r : Running α} (hr : r.Keeps since q) {time : Seconds}
    (htime : since ≤ time) (turns : Nat) : (State.strikeOne time turns s r).Keeps since q := by
  induction turns generalizing s r with
  | zero => exact hs.dismiss htime r
  | succ turns ih =>
    rw [State.strikeOne]
    split
    · have hstanding := all_advance r.chain time s.outside r.sent r.inSession hr.next
      have hlog := advance_logFits htime r.chain s.outside r.sent r.inSession hr.next
      dsimp only
      split
      · exact hs.carryOn hr.next r.sent r.inSession
      · have hrecorded : (({ s with outside := (advance r.chain time s.outside r.sent
            r.inSession r.next).outside } : State α).record
            (advance r.chain time s.outside r.sent r.inSession r.next).log).Keeps since q :=
          ⟨hs.clock, hs.queue, hs.running, hs.log.append hlog⟩
        split
        · exact hrecorded.dismiss htime r
        · rename_i wake answered next h
          rw [h] at hstanding
          apply ih hrecorded
          refine ⟨?_, hstanding⟩
          rintro t rfl
          exact htime.trans (le_of_advance_waiting r.chain time s.outside r.sent r.inSession h)
    · exact hs.dismiss htime r

theorem strikeAll (hs : s.Keeps since q) {time : Seconds} (htime : since ≤ time) :
    (s.strikeAll time).Keeps since q := by
  have hall (running : List (Running α)) (t : State α) (ht : t.Keeps since q)
      (hrunning : ∀ r ∈ running, r.Keeps since q) :
      (running.foldl (State.strikeOne time lastTurns) t).Keeps since q := by
    induction running generalizing t with
    | nil => exact ht
    | cons r running ih =>
      apply ih
      · exact ht.strikeOne (hrunning r List.mem_cons_self) htime lastTurns
      · exact fun p hp => hrunning p (List.mem_cons_of_mem r hp)
  refine hall s.running _ ⟨htime, ?_, ?_, hs.log⟩ hs.running
  · simp
  · simp

theorem le_strikeTime (clock : Seconds) (deadline : Expiry) : clock ≤ strikeTime clock deadline := by
  cases deadline with
  | «at» d => exact Seconds.le_notBefore clock d
  | atOnce => exact le_rfl
  | never => exact le_rfl

theorem strike (hs : s.Keeps since q) (deadline : Expiry) (fuel : Nat) :
    (s.strike deadline fuel).Keeps since q := by
  rw [State.strike]
  split
  · exact hs
  · have htime := hs.clock.trans (le_strikeTime s.clock deadline)
    have h := (hs.strikeAll htime).proceed .never fuel
    exact ⟨h.clock, h.queue, h.running, h.log⟩

end State.Keeps

/-- Whatever the outside does and whenever the deadline strikes, nothing happens before the start, and
no chain does anything but what its activity waits for. -/
theorem run_logFits {slots waits : Nat} {clock : Seconds} {deadline : Expiry} {outside : Outside}
    {jobs : List (Job α)} (hjobs : ∀ job ∈ jobs, job.activity.All (q job.chain) fun _ => True) :
    LogFits clock q (run slots waits clock deadline outside jobs).log := by
  have hopening :
      (State.grant { clock, outside, free := slots, queue := jobs } jobs).Keeps clock q :=
    State.Keeps.grant ⟨le_rfl, hjobs, by simp, .nil⟩
  have hbefore : ((State.grant { clock, outside, free := slots, queue := jobs } jobs).before
      deadline).Keeps clock q := by
    rw [State.before]
    split
    · exact hopening
    · exact ⟨hopening.clock, hopening.queue, hopening.running, hopening.log⟩
  exact ((hbefore.proceed deadline _).strike deadline _).log

end Schedule

end Attest
