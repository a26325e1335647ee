import Attest.Activity

/-! Many activities at a time: each needs one of a number of slots, slots are given out in the order of
asking, and one deadline strikes all that are still at work. A chain whose question is settled in the
very moment of the strike does not notice it: nothing comes of its work, but it goes on to the end. -/

namespace Attest.Schedule

/-- The activity of a chain that has no slot yet. -/
structure Job (α : Type) where
  chain : Int
  activity : Activity α

/-- A chain that waits for something: until when, and how it goes on. -/
structure Running (α : Type) where
  chain : Int
  /-- The number of its wait among all waits. -/
  order : Nat
  /-- None if the wait has no end. -/
  wake : Option Seconds
  /-- Whether the wait ends with what it waits for, and not with patience. -/
  answered : Bool
  next : Activity α
  sent : Nat
  inSession : Bool

structure State (α : Type) where
  clock : Seconds := 0
  outside : Outside
  free : Nat
  queue : List (Job α)
  running : List (Running α) := []
  waits : Nat := 0
  finished : List (Int × α) := []
  log : List Event := []

/-- How far an activity gets by itself. -/
inductive Standing (α : Type) where
  | finished (a : α)
  | waiting (wake : Option Seconds) (answered : Bool) (next : Activity α)

/-- What an activity does until it waits or ends. -/
structure Advance (α : Type) where
  standing : Standing α
  outside : Outside
  sent : Nat
  inSession : Bool
  log : List Event

/-- Carries on an activity up to its next wait, whose answer the outside already knows. -/
def advance (chain : Int) (clock : Seconds) (outside : Outside) (sent : Nat) (inSession : Bool) :
    Activity α → Advance α
  | .done a => ⟨.finished a, outside, sent, inSession, []⟩
  | .mark m rest =>
      let a := advance chain clock outside sent (m.inSession inSession) rest
      { a with log := ⟨clock, chain, m.deed⟩ :: a.log }
  | .time next => advance chain clock outside sent inSession (next clock)
  | .wait w expiry next =>
      let event : Event := ⟨clock, chain, w.deed sent⟩
      let sent := if w.isPost then sent + 1 else sent
      let ((delay, answer), outside) := outside.serve w
      let standing := match expiry.endOf clock delay with
        | .never => Standing.waiting none false (next none)
        | .answered t => .waiting (some t) true (next (some answer))
        | .expired t => .waiting (some t) false (next none)
      ⟨standing, outside, sent, inSession, [event]⟩

namespace State

def record (s : State α) (events : List Event) : State α := { s with log := s.log ++ events }

/-- Lets a chain that holds a slot carry on; it keeps the slot until it ends. -/
def carryOn (s : State α) (chain : Int) (sent : Nat) (inSession : Bool) (activity : Activity α) :
    State α :=
  let a := advance chain s.clock s.outside sent inSession activity
  let s := ({ s with outside := a.outside }).record a.log
  match a.standing with
  | .finished result =>
      ({ s with free := s.free + 1, finished := s.finished ++ [(chain, result)] }).record
        [⟨s.clock, chain, .released⟩]
  | .waiting wake answered next =>
      { s with
        waits := s.waits + 1
        running := s.running ++ [⟨chain, s.waits, wake, answered, next, a.sent, a.inSession⟩] }

/-- Gives free slots to the queue. -/
def grant (s : State α) : (queue : List (Job α)) → State α
  | [] => { s with queue := [] }
  | job :: queue =>
      if s.free = 0 then { s with queue := job :: queue }
      else
        let s := ({ s with free := s.free - 1 }).record [⟨s.clock, job.chain, .acquired⟩]
        grant (s.carryOn job.chain 0 false job.activity) queue

/-- Whether one wait ends before another; the older of two that end together goes first. -/
def isSooner (a b : Running α) : Bool :=
  match a.wake, b.wake with
  | some s, some t => decide (s < t) || (s == t && decide (a.order < b.order))
  | some _, none => true
  | none, _ => false

/-- The one of some waits that ends first. -/
def soonest : Running α → List (Running α) → Running α
  | r, [] => r
  | r, q :: qs => soonest (if isSooner q r then q else r) qs

/-- Whether a time is clearly before a deadline. -/
def isBefore (t : Seconds) : Expiry → Bool
  | .at d => decide (t.after Seconds.resolution ≤ d)
  | .atOnce => false
  | .never => true

/-- The wait that ends next, if that is before the deadline. -/
def due? (s : State α) (deadline : Expiry) : Option (Running α × Seconds) :=
  match s.running with
  | [] => none
  | r :: rs =>
      let next := soonest r rs
      match next.wake with
      | none => none
      | some t => if isBefore t deadline then some (next, t) else none

/-- Lets the chain whose wait ends carry on, and then lets in others. -/
def resume (s : State α) (r : Running α) (time : Seconds) : State α :=
  let s := { s with clock := time, running := s.running.filter fun q => q.order != r.order }
  let s := s.carryOn r.chain r.sent r.inSession r.next
  s.grant s.queue

/-- Ends the waits that end in time, one after the other. -/
def proceed (deadline : Expiry) : (fuel : Nat) → State α → State α
  | 0, s => s
  | fuel + 1, s =>
      match s.due? deadline with
      | none => s
      | some (r, time) => proceed deadline fuel (s.resume r time)

/-! ### The strike -/

/-- When a deadline strikes: not before the present. -/
def strikeTime (clock : Seconds) : Expiry → Seconds
  | .at d => clock.notBefore d
  | _ => clock

/-- Whether what a chain waits for comes in the moment of the strike. -/
def isTimely (time : Seconds) (r : Running α) : Bool :=
  r.answered && r.wake.any fun t => decide (t < time.after Seconds.resolution)

/-- A chain that is struck gives back its session and its slot. -/
def dismiss (s : State α) (time : Seconds) (r : Running α) : State α :=
  let event (deed : Deed) : Event := ⟨time, r.chain, deed⟩
  ({ s with free := s.free + 1 }).record
    ((if r.inSession then [event .closed] else []) ++ [event .released])

/-- A strike at a chain. If its question is settled before the strike gets through, the chain carries
on; that takes no time, and no more than some `turns`. -/
def strikeOne (time : Seconds) : (turns : Nat) → State α → Running α → State α
  | 0, s, r => s.dismiss time r
  | turns + 1, s, r =>
      if isTimely time r then
        let a := advance r.chain time s.outside r.sent r.inSession r.next
        if a.log.any (·.deed.isSettled) then s.carryOn r.chain r.sent r.inSession r.next
        else
          let s := ({ s with outside := a.outside }).record a.log
          match a.standing with
          | .finished _ => s.dismiss time r
          | .waiting wake answered next =>
              strikeOne time turns s ⟨r.chain, r.order, wake, answered, next, a.sent, a.inSession⟩
      else s.dismiss time r

/-- How many turns a chain has in the moment of the strike: an attempt, a pause, another attempt. -/
def lastTurns : Nat := 3

/-- Strikes all chains that are at work, and sends away those that wait for a slot. -/
def strikeAll (s : State α) (time : Seconds) : State α :=
  s.running.foldl (strikeOne time lastTurns) { s with clock := time, running := [], queue := [] }

/-- Lets a deadline strike. Chains that do not notice it work on to their end, but only what was
finished before counts. -/
def strike (s : State α) (deadline : Expiry) (fuel : Nat) : State α :=
  if s.running.isEmpty && s.queue.isEmpty then s
  else
    let time := strikeTime s.clock deadline
    { proceed .never fuel (s.strikeAll time) with finished := s.finished }

end State

/-- Nothing counts that is finished no earlier than the deadline. -/
def State.before (s : State α) (deadline : Expiry) : State α :=
  if State.isBefore s.clock deadline then s else { s with finished := [] }

/-- Carries out jobs from some time on, none of which waits more than `waits` times. Chains that do
not appear among the finished ones were struck by the deadline. -/
def run (slots : Nat) (waits : Nat) (clock : Seconds) (deadline : Expiry) (outside : Outside)
    (jobs : List (Job α)) : State α :=
  let start : State α := { clock, outside, free := slots, queue := jobs }
  let fuel := jobs.length * waits + 1
  (((start.grant jobs).before deadline).proceed deadline fuel).strike deadline fuel

end Attest.Schedule
