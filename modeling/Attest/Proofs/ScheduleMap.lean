import Attest.Proofs.ScheduleSteps

/-! A schedule does not look at what comes of the work: doing something more with each result changes
the results and nothing else. -/

namespace Attest

/-- Does something with what comes of an activity. -/
def Activity.map (f : α → β) (x : Activity α) : Activity β := x.bind fun a => .done (f a)

namespace Schedule

def Job.map (f : α → β) (job : Job α) : Job β := ⟨job.chain, job.activity.map f⟩

def Running.map (f : α → β) (r : Running α) : Running β :=
  ⟨r.chain, r.order, r.wake, r.answered, r.next.map f, r.sent, r.inSession⟩

def Standing.map (f : α → β) : Standing α → Standing β
  | finished a => finished (f a)
  | waiting wake answered next => waiting wake answered (next.map f)

def Advance.map (f : α → β) (a : Advance α) : Advance β :=
  ⟨a.standing.map f, a.outside, a.sent, a.inSession, a.log⟩

def State.map (f : α → β) (s : State α) : State β :=
  { clock := s.clock, outside := s.outside, free := s.free, queue := s.queue.map (Job.map f)
    running := s.running.map (Running.map f), waits := s.waits
    finished := s.finished.map fun r => (r.1, f r.2), log := s.log }

theorem advance_map (f : α → β) (chain : Int) (clock : Seconds) (outside : Outside) (sent : Nat)
    (inSession : Bool) (x : Activity α) :
    advance chain clock outside sent inSession (x.map f) =
      (advance chain clock outside sent inSession x).map f := by
  induction x generalizing inSession with
  | done a => rfl
  | mark m rest ih =>
    have h := ih (m.inSession inSession)
    rw [Activity.map] at h
    rw [Activity.map, Activity.bind, advance, h]
    rfl
  | time next ih => exact ih clock inSession
  | wait w expiry next ih =>
    rw [Activity.map, Activity.bind, advance, advance]
    obtain ⟨⟨delay, answer⟩, rest⟩ := outside.serve w
    dsimp only
    cases expiry.endOf clock delay <;> rfl

namespace State

variable (f : α → β) (s : State α)

theorem carryOn_map (chain : Int) (sent : Nat) (inSession : Bool) (x : Activity α) :
    (s.map f).carryOn chain sent inSession (x.map f) =
      (s.carryOn chain sent inSession x).map f := by
  have h := advance_map f chain s.clock s.outside sent inSession x
  cases hs : (advance chain s.clock s.outside sent inSession x).standing with
  | finished a =>
    have hmap : (advance chain (s.map f).clock (s.map f).outside sent inSession
        (x.map f)).standing = .finished (f a) := by
      rw [show (s.map f).clock = s.clock from rfl, show (s.map f).outside = s.outside from rfl, h,
        Advance.map, hs]
      rfl
    rw [carryOn_of_finished chain sent inSession hs, carryOn_of_finished chain sent inSession hmap]
    simp only [map, h, Advance.map, List.map_append, List.map_cons, List.map_nil]
  | waiting wake answered next =>
    have hmap : (advance chain (s.map f).clock (s.map f).outside sent inSession
        (x.map f)).standing = .waiting wake answered (next.map f) := by
      rw [show (s.map f).clock = s.clock from rfl, show (s.map f).outside = s.outside from rfl, h,
        Advance.map, hs]
      rfl
    rw [carryOn_of_waiting chain sent inSession hs, carryOn_of_waiting chain sent inSession hmap]
    simp only [map, h, Advance.map, List.map_append, List.map_cons, List.map_nil, Running.map]

theorem grant_map (queue : List (Job α)) :
    (s.map f).grant (queue.map (Job.map f)) = (s.grant queue).map f := by
  induction queue generalizing s with
  | nil => rfl
  | cons job queue ih =>
    by_cases hfree : s.free = 0
    · rw [grant_of_full hfree]
      exact grant_of_full (s := s.map f) hfree
    · rw [grant_of_free hfree, ← ih, ← carryOn_map]
      exact grant_of_free (s := s.map f) hfree

theorem soonest_map (r : Running α) (rs : List (Running α)) :
    soonest (r.map f) (rs.map (Running.map f)) = (soonest r rs).map f := by
  induction rs generalizing r with
  | nil => rfl
  | cons q qs ih =>
    rw [List.map_cons, soonest, soonest, ← ih]
    congr 1
    exact (apply_ite (Running.map f) (isSooner q r = true) q r).symm

theorem due?_map (deadline : Expiry) :
    (s.map f).due? deadline = (s.due? deadline).map fun next => (next.1.map f, next.2) := by
  unfold due?
  rw [show (s.map f).running = s.running.map (Running.map f) from rfl]
  cases s.running with
  | nil => rfl
  | cons r rs =>
    simp only [List.map_cons, soonest_map]
    rw [show ((soonest r rs).map f).wake = (soonest r rs).wake from rfl]
    cases (soonest r rs).wake with
    | none => rfl
    | some t =>
      by_cases h : isBefore t deadline = true
      · simp only [if_pos h, Option.map_some]
      · simp only [if_neg h, Option.map_none]

theorem resume_map (r : Running α) (time : Seconds) :
    (s.map f).resume (r.map f) time = (s.resume r time).map f := by
  have hrunning : (s.map f).running.filter (fun q => q.order != (r.map f).order) =
      (s.running.filter fun q => q.order != r.order).map (Running.map f) :=
    List.filter_map
  have hstate : ({ s.map f with
      clock := time
      running := (s.map f).running.filter fun q => q.order != (r.map f).order } : State β) =
        ({ s with
          clock := time
          running := s.running.filter fun q => q.order != r.order } : State α).map f := by
    rw [hrunning]
    rfl
  rw [resume, hstate]
  simp only [Running.map, carryOn_map]
  exact grant_map f _ _

theorem proceed_map (deadline : Expiry) (fuel : Nat) :
    (s.map f).proceed deadline fuel = (s.proceed deadline fuel).map f := by
  induction fuel generalizing s with
  | zero => rfl
  | succ fuel ih =>
    rw [proceed, proceed, due?_map]
    cases s.due? deadline with
    | none => rfl
    | some next =>
      simp only [Option.map_some]
      rw [resume_map, ih]

/-! ### The strike -/

theorem strikeOne_map (time : Seconds) (turns : Nat) (r : Running α) :
    strikeOne time turns (s.map f) (r.map f) = (strikeOne time turns s r).map f := by
  induction turns generalizing s r with
  | zero => rfl
  | succ turns ih =>
    rw [strikeOne, strikeOne]
    have htimely : isTimely time (r.map f) = isTimely time r := rfl
    have hadvance := advance_map f r.chain time s.outside r.sent r.inSession r.next
    rw [htimely]
    by_cases ht : isTimely time r = true
    · rw [if_pos ht, if_pos ht]
      simp only [Running.map, show (s.map f).outside = s.outside from rfl, hadvance, Advance.map]
      obtain ⟨standing, outside, sent, inSession, log⟩ :=
        advance r.chain time s.outside r.sent r.inSession r.next
      dsimp only
      split
      · exact carryOn_map f s r.chain r.sent r.inSession r.next
      · cases standing with
        | finished a => rfl
        | waiting wake answered next =>
          exact ih (({ s with outside } : State α).record log)
            ⟨r.chain, r.order, wake, answered, next, sent, inSession⟩
    · rw [if_neg ht, if_neg ht]
      rfl

theorem strikeAll_map (time : Seconds) :
    (s.map f).strikeAll time = (s.strikeAll time).map f := by
  have h (running : List (Running α)) (t : State α) :
      (running.map (Running.map f)).foldl (strikeOne time lastTurns) (t.map f) =
        (running.foldl (strikeOne time lastTurns) t).map f := by
    induction running generalizing t with
    | nil => rfl
    | cons r running ih =>
      rw [List.map_cons, List.foldl_cons, List.foldl_cons, strikeOne_map, ih]
  exact h s.running { s with clock := time, running := [], queue := [] }

theorem strike_map (deadline : Expiry) (fuel : Nat) :
    (s.map f).strike deadline fuel = (s.strike deadline fuel).map f := by
  have hempty : ((s.map f).running.isEmpty && (s.map f).queue.isEmpty) =
      (s.running.isEmpty && s.queue.isEmpty) := by
    simp only [map, List.isEmpty_map]
  rw [strike, strike, hempty]
  split
  · rfl
  · dsimp only
    rw [show (s.map f).clock = s.clock from rfl, strikeAll_map, proceed_map]
    rfl

theorem before_map (deadline : Expiry) : (s.map f).before deadline = (s.before deadline).map f := by
  rw [before, before, show (s.map f).clock = s.clock from rfl]
  split <;> rfl

theorem lookup_finished_map (chain : Int) :
    (s.map f).finished.lookup chain = (s.finished.lookup chain).map f := by
  rw [map]
  induction s.finished with
  | nil => rfl
  | cons r rs ih =>
    rw [List.map_cons, List.lookup_cons, List.lookup_cons, ih]
    cases chain == r.1 <;> rfl

end State

/-- A schedule of jobs that do something more with their results is the schedule of the jobs, with
something more done with each result. -/
theorem run_map (f : α → β) (slots waits : Nat) (clock : Seconds) (deadline : Expiry)
    (outside : Outside) (jobs : List (Job α)) :
    run slots waits clock deadline outside (jobs.map (Job.map f)) =
      (run slots waits clock deadline outside jobs).map f := by
  rw [run, run]
  simp only [List.length_map]
  rw [← State.strike_map, ← State.proceed_map, ← State.before_map, ← State.grant_map]
  rfl

end Schedule

end Attest
