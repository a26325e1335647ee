import Attest.Proofs.CodeAnswer
import Attest.Proofs.InvestigationWaits

/-! Where the work on a chain is with its session: it opens one before it waits for anything, closes it
when its node has been asked, and opens no other. -/

namespace Attest

/-- Before, during and after a session. -/
inductive Phase where
  | before
  | during
  | after
  deriving DecidableEq

namespace Phase

def isDuring : Phase → Bool
  | during => true
  | _ => false

/-- The phase that a mark begins, if it may stand in a phase. -/
def next? : Phase → Mark → Option Phase
  | before, .opened => some during
  | during, .settled => some during
  | during, .closed => some after
  | after, .settled => some after
  | _, _ => none

theorem inSession_next {p p' : Phase} {m : Mark} (h : p.next? m = some p') :
    m.inSession p.isDuring = p'.isDuring := by
  cases p <;> cases m <;> cases h <;> rfl

end Phase

namespace Activity

/-- A question is settled, or there is more to wait for, before anything else is done. -/
def Settles : Activity α → Prop
  | done _ => False
  | mark m _ => m = .settled
  | time next => ∀ now, (next now).Settles
  | wait .. => True

/-- An activity brings its session from one phase to another. What is answered in a session is settled
or leads to another wait, before the session is closed. -/
def Brings : Activity α → Phase → Phase → Prop
  | done _, p, q => p = q
  | mark m rest, p, q => ∃ p', p.next? m = some p' ∧ rest.Brings p' q
  | time next, p, q => ∀ now, (next now).Brings p q
  | wait _ _ next, p, q => p ≠ .before ∧ (∀ answer, (next answer).Brings p q) ∧
      (p = .during → ∀ answer, (next (some answer)).Settles)

theorem Settles.bind {x : Activity α} (hx : x.Settles) (f : α → Activity β) :
    (x.bind f).Settles := by
  induction x with
  | done a => exact hx.elim
  | mark m rest ih => exact hx
  | time next ih => exact fun now => ih now (hx now)
  | wait w expiry next ih => trivial

theorem Brings.bind {p q r : Phase} {x : Activity α} {f : α → Activity β} (hx : x.Brings p q)
    (hf : ∀ a, (f a).Brings q r) : (x.bind f).Brings p r := by
  induction x generalizing p with
  | done a =>
    cases hx
    exact hf a
  | mark m rest ih =>
    obtain ⟨p', hp', hrest⟩ := hx
    exact ⟨p', hp', ih hrest⟩
  | time next ih => exact fun now => ih now (hx now)
  | wait w expiry next ih =>
    obtain ⟨hp, hnext, hsettles⟩ := hx
    exact ⟨hp, fun answer => ih answer (hnext answer),
      fun h answer => (hsettles h answer).bind f⟩

theorem Brings.inSession {x : Activity α} (hx : x.Brings .during .during) :
    x.inSession.Brings .before .after :=
  ⟨.during, rfl, hx.bind fun _ => ⟨.after, rfl, rfl⟩⟩

end Activity

namespace Node.Fetcher

open Activity

variable (f : Fetcher)

theorem attempt_settles (url : String) (call : Call) (timedOut : Problem) (expiry : Expiry)
    (attempts : Nat) (pause : Binary64) :
    (attempt url call timedOut expiry attempts pause).Settles := by
  cases attempts with
  | zero => exact rfl
  | succ attempts => trivial

theorem settled_brings (r : Except Problem Document) :
    (settled r).Brings .during .during := ⟨.during, rfl, rfl⟩

theorem attempt_brings (url : String) (call : Call) (timedOut : Problem) (expiry : Expiry)
    (attempts : Nat) (pause : Binary64) :
    (attempt url call timedOut expiry attempts pause).Brings .during .during := by
  induction attempts generalizing pause with
  | zero => exact settled_brings _
  | succ attempts ih =>
    refine ⟨nofun, fun reply => ?_, fun _ reply => ?_⟩
    · cases reply with
      | none => rfl
      | some reply =>
        dsimp only
        split
        · exact settled_brings _
        · split
          · exact settled_brings _
          · refine ⟨nofun, fun rested => ?_, fun _ _ => attempt_settles _ _ _ _ _ _⟩
            cases rested with
            | none => rfl
            | some _ => exact ih pause.double
    · dsimp only
      split
      · exact rfl
      · split
        · exact rfl
        · trivial

theorem ask_brings (call : Call) : (f.ask call).run.Brings .during .during := by
  rw [ask, ExceptT.run_mk]
  split
  · rfl
  · exact fun now => attempt_brings _ _ _ _ _ _

theorem brings_then {p q : Phase} {x : Asking α} (hx : x.run.Brings p q)
    (g : α → Except Problem β) : (x >>= fun a => Asking.ofExcept (g a)).run.Brings p q := by
  rw [ExceptT.run_bind]
  refine hx.bind fun r => ?_
  cases r <;> rfl

theorem code_brings (address : String) : (f.code address).run.Brings .during .during :=
  brings_then (f.ask_brings _) _

theorem creationInput_brings (hash : String) :
    (f.creationInput hash).run.Brings .during .during :=
  brings_then (brings_then (f.ask_brings _) _) _

end Node.Fetcher

/-- An engine that leaves sessions alone. -/
def Engine.HasNoSession (engine : Engine) : Prop :=
  ∀ code, (engine.decompile code).Brings .after .after

theorem Engine.hasNoSession_of_ofName {name : Document} {engine : Engine}
    (h : Engine.ofName name = .ok engine) : engine.HasNoSession := by
  intro code
  obtain rfl | rfl := eq_of_ofName h
  · rfl
  · refine ⟨nofun, fun answer => ?_, nofun⟩
    cases answer <;> rfl

namespace Chain.Investigation

variable (engine : Engine) (f : Node.Fetcher) (s : Subject)

theorem find_brings : (find f s).Brings .during .during := by
  have hcode : (findCode f s).Brings .during .during := (f.code_brings s.address).bind fun _ => rfl
  refine hcode.bind fun r => ?_
  cases r with
  | error d => rfl
  | ok code =>
    have hcreation : (findCreation f s.creationTransaction).Brings .during .during := by
      cases s.creationTransaction with
      | none => rfl
      | some hash => exact (f.creationInput_brings hash).bind fun _ => rfl
    refine hcreation.bind fun r => ?_
    cases r <;> rfl

theorem judge_brings (hengine : engine.HasNoSession) (chain : Int) (artifact : Option Artifact)
    (findings : Findings) : (judge engine chain artifact findings).Brings .after .after := by
  rw [judge]
  cases assess chain artifact findings with
  | error d => rfl
  | ok assessed =>
    dsimp only
    split
    · exact (hengine findings.code.bytes).bind fun _ => rfl
    · rfl

/-- The work on a chain opens one session and closes it. -/
theorem investigate_brings (hengine : engine.HasNoSession) :
    (investigate engine f s).Brings .before .after := by
  refine (find_brings f s).inSession.bind fun r => ?_
  cases r with
  | error d => rfl
  | ok findings => exact judge_brings engine hengine _ _ _

end Chain.Investigation

end Attest
