import Attest.Node.Reply
import Attest.Tool

/-! Activities: work on a chain that now and then waits for something outside. They say what they wait
for and until when at most; who carries them out decides how long it takes. -/

namespace Attest

/-- Things to wait for. -/
inductive Wait where
  | post (url : String) (call : Node.Call)
  | pause (seconds : Binary64)
  | run (command : Tool.Command)

/-- What a wait brings when it comes to its end. -/
def Wait.Answer : Wait → Type
  | post .. => Node.Reply
  | pause _ => Unit
  | run _ => Tool.Outcome × Tree

/-- A session with a node begins or ends, or a question in it is settled: its last attempt has been
answered. -/
inductive Mark where
  | opened
  | settled
  | closed
  deriving DecidableEq, Repr

inductive Activity (α : Type) where
  | done (a : α)
  | mark (m : Mark) (rest : Activity α)
  /-- Looks at the clock. -/
  | time (next : Seconds → Activity α)
  /-- Goes on with the answer, or with none once patience is at its end. -/
  | wait (w : Wait) (expiry : Expiry) (next : Option w.Answer → Activity α)

namespace Activity

def bind (x : Activity α) (f : α → Activity β) : Activity β :=
  match x with
  | done a => f a
  | mark m rest => mark m (rest.bind f)
  | time next => time fun now => (next now).bind f
  | wait w expiry next => wait w expiry fun answer => (next answer).bind f

instance : Monad Activity where
  pure := done
  bind := bind

/-- Does `x` with a session open. -/
def inSession (x : Activity α) : Activity α :=
  mark .opened (x.bind fun a => mark .closed (done a))

end Activity

/-! ### The outside -/

/-- What nodes and programs will do when they are asked. -/
structure Outside where
  nodes : List (String × List Node.Response) := []
  heimdall : List Tool.Step := []
  /-- Whether the clocks stand still while an engine works. -/
  clocksStop : Bool := false

namespace Outside

/-- The first of a node's responses that are left, and the rest of them. -/
def take (url : String) : List (String × List Node.Response) →
    Node.Response × List (String × List Node.Response)
  | [] => (.silence, [])
  | n :: ns =>
      if n.1 = url then
        match n.2 with
        | [] => (.silence, n :: ns)
        | r :: rs => (r, (url, rs) :: ns)
      else
        let (r, ns) := take url ns
        (r, n :: ns)

/-- How long a pause takes. An infinite one has no end, and one whose length is no number is taken to
be over at once. -/
def pauseTime : Binary64 → Option Seconds
  | .infinite false => none
  | x => some (Seconds.clamp (x.toRat?.getD 0))

/-- How long a wait takes by itself, none if for ever, and what it brings. A question is sent at once:
there is always a worker free to send it, however many others still wait for answers nobody wants
any more. -/
def serve (o : Outside) : (w : Wait) → (Option Seconds × w.Answer) × Outside
  | .post url _ =>
      let (r, nodes) := take url o.nodes
      ((some r.delay, r.reply), { o with nodes })
  | .pause seconds => ((pauseTime seconds, ()), o)
  | .run command =>
      let step := o.heimdall.head?.getD {}
      let (time, outcome) := step.perform command
      ((some (if o.clocksStop then 0 else time), outcome, step.leftovers command),
        { o with heimdall := o.heimdall.tail })

end Outside

/-- The end of a wait: when it comes, and whether the answer came first. -/
inductive End where
  | never
  | answered (time : Seconds)
  | expired (time : Seconds)
  deriving DecidableEq, Repr

/-- The end of a wait that begins now, and never before. An answer that takes no time is always
there; others have to come before patience is at its end. -/
def Expiry.endOf (e : Expiry) (now : Seconds) (delay : Option Seconds) : End :=
  match delay with
  | some d =>
      let wake := Seconds.notBefore now (now.after d)
      match e with
      | .at t =>
          if wake ≤ now ∨ wake < t then .answered wake else .expired (Seconds.notBefore now t)
      | .atOnce => if wake ≤ now then .answered wake else .expired now
      | .never => .answered wake
  | none =>
      match e with
      | .at t => .expired (Seconds.notBefore now t)
      | .atOnce => .expired now
      | .never => .never

/-! ### Traces -/

/-- What a chain's work does, one thing after the other. -/
inductive Deed where
  | acquired
  | opened
  | posted (url : String) (call : Node.Call) (id : Nat)
  | paused (seconds : Binary64)
  | settled
  | ran (command : Tool.Command)
  | closed
  | released

structure Event where
  time : Seconds
  chain : Int
  deed : Deed

def Mark.deed : Mark → Deed
  | opened => .opened
  | settled => .settled
  | closed => .closed

def Deed.isSettled : Deed → Bool
  | settled => true
  | _ => false

/-- Whether a session is open after a mark. -/
def Mark.inSession (before : Bool) : Mark → Bool
  | opened => true
  | settled => before
  | closed => false

/-- How a wait is recorded; `sent` posts went before it. -/
def Wait.deed (sent : Nat) : Wait → Deed
  | post url call => .posted url call (sent + 1)
  | pause seconds => .paused seconds
  | run command => .ran command

def Wait.isPost : Wait → Bool
  | post .. => true
  | _ => false

/-! ### Alone -/

namespace Activity

/-- What came of an activity, none if it waits for ever, and what it left. -/
structure Solo (α : Type) where
  answer : Option α
  clock : Seconds
  outside : Outside
  sent : Nat
  log : List Event

/-- Carries out an activity with nothing else going on. -/
def solo (chain : Int) (clock : Seconds) (outside : Outside) (sent : Nat) : Activity α → Solo α
  | done a => ⟨some a, clock, outside, sent, []⟩
  | mark m rest =>
      let s := solo chain clock outside sent rest
      { s with log := ⟨clock, chain, m.deed⟩ :: s.log }
  | time next => solo chain clock outside sent (next clock)
  | wait w expiry next =>
      let event : Event := ⟨clock, chain, w.deed sent⟩
      let sent := if w.isPost then sent + 1 else sent
      let ((delay, answer), outside) := outside.serve w
      match expiry.endOf clock delay with
      | .never => ⟨none, clock, outside, sent, [event]⟩
      | .answered clock =>
          let s := solo chain clock outside sent (next (some answer))
          { s with log := event :: s.log }
      | .expired clock =>
          let s := solo chain clock outside sent (next none)
          { s with log := event :: s.log }

end Activity

end Attest
