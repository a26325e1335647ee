import Attest.Proofs.CodeAnswer
import Attest.Proofs.Histories
import Attest.Proofs.SurveyTargets

/-! # Answers decide, times do not

The work on a chain makes nothing of the time but patience. Led by the same answers, it comes to the
same end whatever the clock shows. -/

namespace Attest

namespace Activity

/-- Activities that are the same but for how long they are patient. -/
inductive Alike : Activity α → Activity α → Prop
  | done (a : α) : Alike (done a) (done a)
  | mark {m : Mark} {x y : Activity α} (h : Alike x y) : Alike (mark m x) (mark m y)
  | time {f g : Seconds → Activity α} (h : ∀ s t, Alike (f s) (g t)) : Alike (time f) (time g)
  | wait {w : Wait} {e e' : Expiry} {f g : Option w.Answer → Activity α}
      (h : ∀ answer, Alike (f answer) (g answer)) : Alike (wait w e f) (wait w e' g)

theorem Alike.bind {x y : Activity α} {f g : α → Activity β} (h : x.Alike y)
    (hf : ∀ a, (f a).Alike (g a)) : (x.bind f).Alike (y.bind g) := by
  induction h with
  | done a => exact hf a
  | mark h ih => exact .mark ih
  | time h ih => exact .time ih
  | wait h ih => exact .wait ih

theorem Alike.inSession {x : Activity α} (h : x.Alike x) : x.inSession.Alike x.inSession :=
  .mark (h.bind fun a => .mark (.done a))

/-- Where one turn follows another list of turns in two histories, it brought the same in both. -/
def SameAnswers (turns turns' : List Turn) : Prop :=
  ∀ before t t', before ++ [t] <+: turns → before ++ [t'] <+: turns' → t.wait = t'.wait → t = t'

theorem SameAnswers.tail {t : Turn} {turns turns' : List Turn}
    (h : SameAnswers (t :: turns) (t :: turns')) : SameAnswers turns turns' := by
  intro before u u' hu hu'
  exact h (t :: before) u u' (List.prefix_cons_inj t |>.mpr hu) (List.prefix_cons_inj t |>.mpr hu')

theorem SameAnswers.rfl {turns : List Turn} : SameAnswers turns turns := by
  intro before t t' ht ht' _
  have h := List.prefix_of_prefix_length_le ht ht' (by simp)
  have heq := h.eq_of_length (by simp)
  exact List.singleton_inj.mp (List.append_cancel_left heq)

/-- The same answers lead activities that are alike through the same turns to the same end. -/
theorem Alike.eq_of_leads {x y : Activity α} {turns turns' : List Turn} {a b : α} (h : x.Alike y)
    (hx : x.Leads turns a) (hy : y.Leads turns' b) (hsame : SameAnswers turns turns') :
    turns = turns' ∧ a = b := by
  induction h generalizing turns turns' with
  | done a =>
    obtain ⟨rfl, rfl⟩ := leads_done_iff.mp hx
    obtain ⟨rfl, rfl⟩ := leads_done_iff.mp hy
    exact ⟨rfl, rfl⟩
  | mark h ih =>
    cases hx with
    | mark hx =>
      cases hy with
      | mark hy => exact ih hx hy hsame
  | time h ih =>
    cases hx with
    | time s hx =>
      cases hy with
      | time t hy => exact ih s t hx hy hsame
  | @wait w e e' f g h ih =>
    cases hx with
    | wait answer hx =>
      cases hy with
      | wait answer' hy =>
        have hturn := hsame [] ⟨w, answer⟩ ⟨w, answer'⟩ (List.prefix_append [_] _)
          (List.prefix_append [_] _) rfl
        obtain rfl : answer = answer' := by
          cases hturn
          rfl
        obtain ⟨hturns, hresult⟩ := ih answer hx hy hsame.tail
        exact ⟨congrArg _ hturns, hresult⟩

end Activity

/-! ### The work on a chain -/

namespace Node.Fetcher

variable (f : Fetcher)

theorem attempt_alike (url : String) (call : Call) (timedOut : Problem) (expiry expiry' : Expiry)
    (attempts : Nat) (pause : Binary64) :
    (attempt url call timedOut expiry attempts pause).Alike
      (attempt url call timedOut expiry' attempts pause) := by
  induction attempts generalizing pause with
  | zero => exact .mark (.done _)
  | succ attempts ih =>
    refine .wait fun reply => ?_
    cases reply with
    | none => exact .done _
    | some reply =>
      dsimp only
      cases classify url call.method reply with
      | ok d => exact .mark (.done _)
      | error p =>
        dsimp only
        split
        · exact .mark (.done _)
        · refine .wait fun rested => ?_
          cases rested with
          | none => exact .done _
          | some _ => exact ih pause.double

theorem ask_alike (call : Call) : (f.ask call).run.Alike (f.ask call).run := by
  rw [ask, ExceptT.run_mk]
  split
  · exact .done _
  · exact .time fun s t => attempt_alike _ _ _ _ _ _ _

theorem alike_then {x : Asking α} (hx : x.run.Alike x.run) (g : α → Except Problem β) :
    (x >>= fun a => Asking.ofExcept (g a)).run.Alike
      (x >>= fun a => Asking.ofExcept (g a)).run := by
  rw [ExceptT.run_bind]
  refine hx.bind fun r => ?_
  cases r <;> exact .done _

end Node.Fetcher

theorem Engine.decompile_alike {name : Document} {engine : Engine}
    (h : Engine.ofName name = .ok engine) (code : Bytes) :
    (engine.decompile code).Alike (engine.decompile code) := by
  rcases Engine.eq_of_ofName h with rfl | rfl
  · exact .done _
  · refine .wait fun answer => ?_
    cases answer <;> exact .done _

namespace Chain.Investigation

variable {name : Document} {engine : Engine} (f : Node.Fetcher) (s : Subject)

theorem findCode_alike : (findCode f s).Alike (findCode f s) :=
  (Node.Fetcher.alike_then (f.ask_alike _) _).bind fun _ => .done _

theorem findCreation_alike (hash : Option String) :
    (findCreation f hash).Alike (findCreation f hash) := by
  cases hash with
  | none => exact .done _
  | some hash =>
    exact (Node.Fetcher.alike_then (Node.Fetcher.alike_then (f.ask_alike _) _) _).bind
      fun _ => .done _

theorem find_alike : (find f s).Alike (find f s) := by
  refine (findCode_alike f s).bind fun r => ?_
  cases r with
  | error d => exact .done _
  | ok code =>
    refine (findCreation_alike f s.creationTransaction).bind fun r => ?_
    cases r <;> exact .done _

theorem judge_alike (hengine : Engine.ofName name = .ok engine) (chain : Int)
    (artifact : Option Artifact) (found : Findings) :
    (judge engine chain artifact found).Alike (judge engine chain artifact found) := by
  rw [judge]
  split
  · exact .done _
  · split
    · exact (Engine.decompile_alike hengine _).bind fun _ => .done _
    · exact .done _

/-- The work on a chain is alike at all times. -/
theorem investigate_alike (hengine : Engine.ofName name = .ok engine) :
    (investigate engine f s).Alike (investigate engine f s) := by
  refine (find_alike f s).inSession.bind fun r => ?_
  cases r with
  | error d => exact .done _
  | ok found => exact judge_alike hengine _ _ _

end Chain.Investigation

/-! ### Surveys that remember -/

namespace Chain.Survey

open Investigation

variable {s : Settings} {engine : Engine} {subject : Subject} {ids : List Int} {clock : Seconds}
  {deadline : Binary64} {outside : Outside}

/-- A survey that remembers the turns of each chain. -/
def histories (s : Settings) (engine : Engine) (subject : Subject) (ids : List Int)
    (clock : Seconds) (deadline : Binary64) (outside : Outside) :
    Schedule.State (Except Defect Entry × List Turn) :=
  schedule s clock deadline outside ((jobs s engine subject ids).map Schedule.Job.remembered)

theorem lookup_histories (id : Int) :
    (schedule s clock deadline outside (jobs s engine subject ids)).finished.lookup id =
      ((histories s engine subject ids clock deadline outside).finished.lookup id).map Prod.fst := by
  have hrun : (histories s engine subject ids clock deadline outside).map Prod.fst =
      schedule s clock deadline outside (jobs s engine subject ids) :=
    Schedule.run_remembered _ _ _ _ _ _
  rw [← hrun, Schedule.State.lookup_finished_map]

/-- What is remembered of a chain are turns of its work. -/
theorem leads_of_histories {id : Int} {r : Except Defect Entry} {turns : List Turn}
    (h : (histories s engine subject ids clock deadline outside).finished.lookup id =
      some (r, turns)) :
    ∃ e, s.endpoint? id = some e ∧
      (investigate engine (.ofSettings e s) subject).Leads turns r ∧ ∀ t ∈ turns, t.From outside := by
  obtain ⟨job, hjob, rfl, hleads, hfrom⟩ :=
    Schedule.leads_of_finished (Schedule.mem_of_lookup_eq_some h)
  obtain ⟨id, _, e, he, rfl⟩ := mem_jobs.mp hjob
  exact ⟨e, he, hleads, hfrom⟩

end Chain.Survey

end Attest
