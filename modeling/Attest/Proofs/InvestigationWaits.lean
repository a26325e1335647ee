import Attest.Chain.Investigation
import Attest.Proofs.ActivityOutcome
import Attest.Proofs.Outcome

/-! What the work on a chain waits for: its own node and pauses, a bounded number of times, and after
that at most for an engine. -/

namespace Attest

namespace Node.Fetcher

variable (url : String) (call : Call) (timedOut : Problem) (expiry : Expiry)

theorem attempt_isLocal (attempts : Nat) (pause : Binary64) :
    (attempt url call timedOut expiry attempts pause).All (Wait.IsLocal url) fun _ => True := by
  induction attempts generalizing pause with
  | zero => trivial
  | succ attempts ih =>
    refine ⟨rfl, fun reply => ?_⟩
    cases reply with
    | none => trivial
    | some reply =>
      dsimp only
      cases classify url call.method reply with
      | ok d => trivial
      | error problem =>
        dsimp only
        split
        · trivial
        · refine ⟨trivial, fun rested => ?_⟩
          cases rested with
          | none => trivial
          | some _ => exact ih pause.double

theorem attempt_atMost (attempts : Nat) (pause : Binary64) :
    (attempt url call timedOut expiry attempts pause).AtMost (2 * attempts) := by
  induction attempts generalizing pause with
  | zero => trivial
  | succ attempts ih =>
    rw [Nat.mul_succ]
    intro reply
    cases reply with
    | none => trivial
    | some reply =>
      dsimp only
      cases classify url call.method reply with
      | ok d => trivial
      | error problem =>
        dsimp only
        split
        · trivial
        · intro rested
          cases rested with
          | none => trivial
          | some _ => exact ih pause.double

variable (f : Fetcher)

/-- The waits that one question can take. -/
def waitsPerQuestion : Nat := 2 * (f.retries + 1).toNat

theorem ask_isLocal (call : Call) :
    (f.ask call).run.All (Wait.IsLocal f.endpoint.url) fun _ => True := by
  rw [ask, ExceptT.run_mk]
  split
  · trivial
  · exact fun now => attempt_isLocal _ _ _ _ _ _

theorem ask_atMost (call : Call) : (f.ask call).run.AtMost f.waitsPerQuestion := by
  rw [ask, ExceptT.run_mk]
  split
  · trivial
  · exact fun now => attempt_atMost _ _ _ _ _ _

/-- What goes on with an answer without waiting. -/
theorem all_then {q : Wait → Prop} {x : Asking α} (hx : x.run.All q fun _ => True)
    (g : α → Except Problem β) :
    (x >>= fun a => Asking.ofExcept (g a)).run.All q fun _ => True := by
  rw [ExceptT.run_bind]
  refine Activity.All.bind hx fun r _ => ?_
  cases r <;> trivial

theorem atMost_then {n : Nat} {x : Asking α} (hx : x.run.AtMost n) (g : α → Except Problem β) :
    (x >>= fun a => Asking.ofExcept (g a)).run.AtMost n := by
  rw [ExceptT.run_bind]
  refine Activity.AtMost.bind (n := 0) hx fun r => ?_
  cases r <;> trivial

theorem code_isLocal (address : String) :
    (f.code address).run.All (Wait.IsLocal f.endpoint.url) fun _ => True :=
  all_then (f.ask_isLocal _) _

theorem code_atMost (address : String) : (f.code address).run.AtMost f.waitsPerQuestion :=
  atMost_then (f.ask_atMost _) _

theorem creationInput_isLocal (hash : String) :
    (f.creationInput hash).run.All (Wait.IsLocal f.endpoint.url) fun _ => True :=
  all_then (all_then (f.ask_isLocal _) _) _

theorem creationInput_atMost (hash : String) :
    (f.creationInput hash).run.AtMost f.waitsPerQuestion :=
  atMost_then (atMost_then (f.ask_atMost _) _) _

end Node.Fetcher

namespace Chain.Investigation

variable (engine : Engine) (f : Node.Fetcher) (s : Subject)

theorem findCode_isLocal :
    (findCode f s).All (Wait.IsLocal f.endpoint.url) fun _ => True :=
  (f.code_isLocal s.address).bind fun _ _ => trivial

theorem findCode_atMost : (findCode f s).AtMost f.waitsPerQuestion :=
  Activity.AtMost.bind (n := 0) (f.code_atMost s.address) fun _ => trivial

theorem findCreation_isLocal (hash : Option String) :
    (findCreation f hash).All (Wait.IsLocal f.endpoint.url) fun _ => True := by
  cases hash with
  | none => trivial
  | some hash => exact (f.creationInput_isLocal hash).bind fun _ _ => trivial

theorem findCreation_atMost (hash : Option String) :
    (findCreation f hash).AtMost f.waitsPerQuestion := by
  cases hash with
  | none => trivial
  | some hash =>
    exact Activity.AtMost.bind (n := 0) (f.creationInput_atMost hash) fun _ => trivial

theorem find_isLocal : (find f s).All (Wait.IsLocal f.endpoint.url) fun _ => True := by
  refine (findCode_isLocal f s).bind fun r _ => ?_
  cases r with
  | error d => trivial
  | ok code =>
    refine (findCreation_isLocal f s.creationTransaction).bind fun r _ => ?_
    cases r <;> trivial

theorem find_atMost : (find f s).AtMost (f.waitsPerQuestion + f.waitsPerQuestion) := by
  refine Activity.AtMost.bind (findCode_atMost f s) fun r => ?_
  cases r with
  | error d => trivial
  | ok code =>
    refine Activity.AtMost.bind (n := 0) (findCreation_atMost f s.creationTransaction) fun r => ?_
    cases r <;> trivial

/-- Accounts, errors and notes are added to an entry of the same chain. -/
theorem judge_all {q : Wait → Prop}
    (hengine : ∀ code, (engine.decompile code).All q fun _ => True) (chain : Int)
    (artifact : Option Artifact) (findings : Findings) :
    (judge engine chain artifact findings).All q fun r => ∀ e, r = .ok e → e.chain = chain := by
  rw [judge]
  cases hassess : assess chain artifact findings with
  | error d => exact fun e he => nomatch he
  | ok assessed =>
    obtain ⟨c, e⟩ := assessed
    have hchain : e.chain = chain := by
      obtain ⟨c', _, hassess⟩ := Except.bind_eq_ok_iff.mp hassess
      obtain ⟨m, _, hassess⟩ := Except.bind_eq_ok_iff.mp hassess
      cases hassess
      rfl
    dsimp only
    split
    · refine (hengine findings.code.bytes).bind fun r _ => ?_
      intro e' he'
      cases r with
      | ok d =>
        cases he'
        exact hchain
      | error problem =>
        cases problem with
        | fault fault =>
          cases he'
          exact hchain
        | defect d => cases he'
    · intro e' he'
      cases he'
      exact hchain

theorem judge_atMost {n : Nat} (hengine : ∀ code, (engine.decompile code).AtMost n) (chain : Int)
    (artifact : Option Artifact) (findings : Findings) :
    (judge engine chain artifact findings).AtMost n := by
  rw [judge]
  cases assess chain artifact findings with
  | error d => trivial
  | ok assessed =>
    dsimp only
    split
    · exact Activity.AtMost.bind (n := 0) (hengine findings.code.bytes) fun _ => trivial
    · trivial

theorem investigate_all
    (hengine : ∀ code, (engine.decompile code).All (Wait.IsLocal f.endpoint.url) fun _ => True) :
    (investigate engine f s).All (Wait.IsLocal f.endpoint.url) fun r =>
      ∀ e, r = .ok e → e.chain = f.endpoint.chain := by
  have hfind : (find f s).inSession.All (Wait.IsLocal f.endpoint.url) fun _ => True :=
    (find_isLocal f s).bind fun _ _ => trivial
  refine hfind.bind fun r _ => ?_
  cases r with
  | error d => exact fun e he => nomatch he
  | ok findings => exact judge_all engine hengine _ _ _

theorem investigate_atMost {n : Nat} (hengine : ∀ code, (engine.decompile code).AtMost n) :
    (investigate engine f s).AtMost (f.waitsPerQuestion + f.waitsPerQuestion + n) := by
  have hfind : (find f s).inSession.AtMost (f.waitsPerQuestion + f.waitsPerQuestion) :=
    Activity.AtMost.bind (n := 0) (find_atMost f s) fun _ => trivial
  refine Activity.AtMost.bind hfind fun r => ?_
  cases r with
  | error d => trivial
  | ok findings => exact judge_atMost engine hengine _ _ _

end Chain.Investigation

end Attest
