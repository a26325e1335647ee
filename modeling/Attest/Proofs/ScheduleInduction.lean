import Attest.Proofs.ScheduleSteps

/-! Induction over schedules: what holds at the start and is kept by each chain that takes a slot, that
carries on, or that is struck, holds of all that a schedule comes to. -/

namespace Attest.Schedule.State

variable {s : State α} {time : Seconds}

/-- A chain whose wait ends is no longer one of those that wait. -/
def takeUp (s : State α) (r : Running α) (time : Seconds) : State α :=
  { s with clock := time, running := s.running.filter fun q => q.order != r.order }

/-- The state in which a chain that is struck did its work without noticing. -/
def overhear (s : State α) (time : Seconds) (r : Running α) : State α :=
  ({ s with outside := (advance r.chain time s.outside r.sent r.inSession r.next).outside }).record
    (advance r.chain time s.outside r.sent r.inSession r.next).log

theorem grant_induction {I : State α → Prop} {queue : List (Job α)}
    (step : ∀ (s : State α) (job : Job α) (queue : List (Job α)), s.free ≠ 0 →
      I { s with queue := job :: queue } →
      I (({ s.acquire job.chain with queue } : State α).carryOn job.chain 0 false job.activity))
    (start : I { s with queue }) : I (s.grant queue) := by
  induction queue generalizing s with
  | nil => exact start
  | cons job queue ih =>
    by_cases hfree : s.free = 0
    · rw [grant_of_full hfree]
      exact start
    · rw [grant_of_free hfree]
      apply ih
      rw [← carryOn_with_queue]
      exact step s job queue hfree start

theorem proceed_induction {I : State α → Prop} {deadline : Expiry}
    (step : ∀ (s : State α) (r : Running α) (t : Seconds), s.due? deadline = some (r, t) → I s →
      I (s.resume r t))
    (start : I s) (fuel : Nat) : I (s.proceed deadline fuel) := by
  induction fuel generalizing s with
  | zero => exact start
  | succ fuel ih =>
    rw [proceed]
    cases hdue : s.due? deadline with
    | none => exact start
    | some next => exact ih (step s next.1 next.2 hdue start)

/-- A strike at a chain is a dismissal in the end, or the chain carries on with a question settled.
Before that it may do some of its work without noticing. -/
theorem strikeOne_induction {P : State α → Running α → Prop} {Q : State α → Prop}
    (dismissed : ∀ s r, P s r → Q (s.dismiss time r))
    (carriedOn : ∀ s r, P s r → r.answered = true →
      (advance r.chain time s.outside r.sent r.inSession r.next).log.any (·.deed.isSettled) = true →
      Q (s.carryOn r.chain r.sent r.inSession r.next))
    (finished : ∀ s r a, P s r → r.answered = true →
      (advance r.chain time s.outside r.sent r.inSession r.next).log.any (·.deed.isSettled) ≠ true →
      (advance r.chain time s.outside r.sent r.inSession r.next).standing = .finished a →
      Q ((s.overhear time r).dismiss time r))
    (turned : ∀ s r wake answered next, P s r → r.answered = true →
      (advance r.chain time s.outside r.sent r.inSession r.next).log.any (·.deed.isSettled) ≠ true →
      (advance r.chain time s.outside r.sent r.inSession r.next).standing =
        .waiting wake answered next →
      P (s.overhear time r) ⟨r.chain, r.order, wake, answered, next,
        (advance r.chain time s.outside r.sent r.inSession r.next).sent,
        (advance r.chain time s.outside r.sent r.inSession r.next).inSession⟩)
    {r : Running α} (start : P s r) (turns : Nat) : Q (strikeOne time turns s r) := by
  induction turns generalizing s r with
  | zero => exact dismissed s r start
  | succ turns ih =>
    rw [strikeOne]
    split
    · next htimely =>
      have hanswered : r.answered = true := (Bool.and_eq_true _ _ ▸ htimely).1
      dsimp only
      split
      · next hsettled => exact carriedOn s r start hanswered hsettled
      · next hsettled =>
        split
        · next a h => exact finished s r a start hanswered hsettled h
        · next wake answered next h =>
          exact ih (turned s r wake answered next start hanswered hsettled h)
    · exact dismissed s r start

/-- A strike at all chains is a strike at one after the other, of which the rest is still to come. -/
theorem strikeAll_induction {I : List (Running α) → State α → Prop}
    (step : ∀ r rest s, I (r :: rest) s → I rest (strikeOne time lastTurns s r))
    (start : I s.running { s with clock := time, running := [], queue := [] }) :
    I [] (s.strikeAll time) := by
  have h (struck : List (Running α)) (t : State α) (ht : I struck t) :
      I [] (struck.foldl (strikeOne time lastTurns) t) := by
    induction struck generalizing t with
    | nil => exact ht
    | cons r rest ih => exact ih _ (step r rest t ht)
  exact h s.running _ start

end Attest.Schedule.State
