import Attest.Proofs.InvestigationWaits
import Attest.Proofs.SurveyTargets
import Attest.Proofs.Transcript

/-! # One entry for each chain

Whatever engine gives accounts of code and whatever comes of the work on the chains, a survey has one
entry for each chain that it is about, in ascending order. -/

namespace Attest

namespace Activity

theorem All.of_wait {q q' : Wait → Prop} {p : α → Prop} {x : Activity α} (hx : x.All q p)
    (h : ∀ w, q w → q' w) : x.All q' p := by
  induction x with
  | done a => exact hx
  | mark m rest ih => exact ih hx
  | time next ih => exact fun now => ih now (hx now)
  | wait w expiry next ih => exact ⟨h w hx.1, fun answer => ih answer (hx.2 answer)⟩

theorem all_true (x : Activity α) : x.All (fun _ => True) fun _ => True := by
  induction x with
  | done a => trivial
  | mark m rest ih => exact ih
  | time next ih => exact ih
  | wait w expiry next ih => exact ⟨trivial, ih⟩

end Activity

namespace Chain

/-- Work on a chain waits for its node, or as its engine does, and an entry that it comes to is of the
chain. -/
theorem Investigation.investigate_waits {engine : Engine} (f : Node.Fetcher) (s : Subject)
    {q : Wait → Prop} (hnode : ∀ w, Wait.IsLocal f.endpoint.url w → q w)
    (hengine : ∀ code, (engine.decompile code).All q fun _ => True) :
    (investigate engine f s).All q fun r => ∀ e, r = .ok e → e.chain = f.endpoint.chain := by
  have hfind : (find f s).inSession.All (Wait.IsLocal f.endpoint.url) fun _ => True :=
    (find_isLocal f s).bind fun _ _ => trivial
  refine (hfind.of_wait hnode).bind fun r _ => ?_
  cases r with
  | error d =>
    intro e he
    cases he
  | ok findings => exact judge_all engine hengine _ _ _

namespace Survey

variable {s : Settings} {engine : Engine} {subject : Subject} {ids : List Int} {clock : Seconds}
  {deadline : Binary64} {outside : Outside}

theorem chain_of_finished {id : Int} {entry : Entry}
    (h : (schedule s clock deadline outside (jobs s engine subject ids)).finished.lookup id =
      some (.ok entry)) : entry.chain = id := by
  refine Schedule.finished_all (p := fun id r => ∀ entry, r = .ok entry → entry.chain = id) ?_
    (Schedule.mem_of_lookup_eq_some h) entry rfl
  intro job hjob
  obtain ⟨id, _, e, he, rfl⟩ := mem_jobs.mp hjob
  obtain ⟨_, rfl⟩ := Settings.endpoint?_mem he
  exact Investigation.investigate_waits (.ofSettings e s) subject (fun _ _ => trivial)
    fun code => (engine.decompile code).all_true

/-- Whether a chain came to its end, broke down or was struck, its entry is its own. -/
theorem chain_entryFor (text : String) (id : Int) :
    (entryFor text
      (schedule s clock deadline outside (jobs s engine subject ids)).finished id).chain = id := by
  rw [entryFor]
  cases h : (schedule s clock deadline outside (jobs s engine subject ids)).finished.lookup id with
  | none => rfl
  | some r =>
    cases r with
    | error d => rfl
    | ok entry => exact chain_of_finished h

theorem chains_entriesOf (text : String) (spelling : Option Document) :
    (entriesOf text spelling ids
      (schedule s clock deadline outside (jobs s engine subject ids))).map (·.chain) = ids := by
  rw [entriesOf, List.map_map]
  conv_rhs => rw [← List.map_id ids]
  exact List.map_congr_left fun id _ => chain_entryFor text id

end Survey

end Chain

end Attest
