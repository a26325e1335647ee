import Attest.Proofs.Histories

/-! Transcripts: what an activity asked nodes and was told. An activity that keeps a transcript does
nothing else, and neither does a schedule of such activities. -/

namespace Attest

/-- A question to a node and its reply, none if patience came to its end first. -/
structure Exchange where
  call : Node.Call
  reply : Option Node.Reply

/-- What a wait adds to a transcript. -/
def Wait.exchanges : (w : Wait) → Option w.Answer → List Exchange
  | post _ call, reply => [⟨call, reply⟩]
  | pause _, _ => []
  | run _, _ => []

namespace Activity

/-- Does what an activity does, and adds to a transcript. -/
def transcribed (before : List Exchange) : Activity α → Activity (α × List Exchange)
  | done a => done (a, before)
  | mark m rest => mark m (rest.transcribed before)
  | time next => time fun now => (next now).transcribed before
  | wait w expiry next =>
      wait w expiry fun answer => (next answer).transcribed (before ++ w.exchanges answer)

theorem map_fst_transcribed (before : List Exchange) (x : Activity α) :
    (x.transcribed before).map Prod.fst = x := by
  induction x generalizing before with
  | done a => rfl
  | mark m rest ih => exact congrArg (mark m) (ih before)
  | time next ih => exact congrArg time (funext fun now => ih now before)
  | wait w expiry next ih =>
    exact congrArg (wait w expiry) (funext fun answer => ih answer (before ++ w.exchanges answer))

/-- Something holds of all that may come of an activity and of the transcript that goes with it. -/
def Tells : Activity α → (α → List Exchange → Prop) → Prop
  | done a, p => p a []
  | mark _ rest, p => rest.Tells p
  | time next, p => ∀ now, (next now).Tells p
  | wait w _ next, p => ∀ answer, (next answer).Tells fun a es => p a (w.exchanges answer ++ es)

theorem Tells.imp {p q : α → List Exchange → Prop} {x : Activity α} (hx : x.Tells p)
    (h : ∀ a es, p a es → q a es) : x.Tells q := by
  induction x generalizing p q with
  | done a => exact h a [] hx
  | mark m rest ih => exact ih hx h
  | time next ih => exact fun now => ih now (hx now) h
  | wait w expiry next ih => exact fun answer => ih answer (hx answer) fun a es => h a _

theorem Tells.bind {p : α → List Exchange → Prop} {q : β → List Exchange → Prop} {x : Activity α}
    {f : α → Activity β} (hx : x.Tells p)
    (hf : ∀ a es, p a es → (f a).Tells fun b es' => q b (es ++ es')) : (x.bind f).Tells q := by
  induction x generalizing p q with
  | done a => exact hf a [] hx
  | mark m rest ih => exact ih hx hf
  | time next ih => exact fun now => ih now (hx now) hf
  | wait w expiry next ih =>
    intro answer
    refine ih answer (hx answer) fun a es h => ?_
    simp only [← List.append_assoc]
    exact hf a _ h

theorem Tells.map {p : α → List Exchange → Prop} {q : β → List Exchange → Prop} {x : Activity α}
    {f : α → β} (hx : x.Tells p) (hf : ∀ a es, p a es → q (f a) es) :
    (x.bind fun a => done (f a)).Tells q := by
  refine hx.bind fun a es h => ?_
  change q (f a) (es ++ [])
  rw [List.append_nil]
  exact hf a es h

theorem Tells.all {p : α → List Exchange → Prop} {x : Activity α} (hx : x.Tells p)
    (before : List Exchange) :
    (x.transcribed before).All (fun _ => True) fun r => ∃ es, r.2 = before ++ es ∧ p r.1 es := by
  induction x generalizing p before with
  | done a => exact ⟨[], (List.append_nil before).symm, hx⟩
  | mark m rest ih => exact ih hx before
  | time next ih => exact fun now => ih now (hx now) before
  | wait w expiry next ih =>
    refine ⟨trivial, fun answer => (ih answer (hx answer) _).imp ?_⟩
    rintro r ⟨es, hes, hp⟩
    exact ⟨w.exchanges answer ++ es, by rw [hes, List.append_assoc], hp⟩

end Activity

namespace Schedule

/-- A job that keeps a transcript. -/
def Job.transcribed (job : Job α) : Job (α × List Exchange) :=
  ⟨job.chain, job.activity.transcribed []⟩

/-- Without its transcripts, a schedule that keeps them is the schedule. -/
theorem run_transcribed (slots waits : Nat) (clock : Seconds) (deadline : Expiry)
    (outside : Outside) (jobs : List (Job α)) :
    (run slots waits clock deadline outside (jobs.map Job.transcribed)).map Prod.fst =
      run slots waits clock deadline outside jobs := by
  rw [← run_map, List.map_map]
  have hjobs : jobs.map (Job.map Prod.fst ∘ Job.transcribed) = jobs := by
    conv_rhs => rw [← List.map_id jobs]
    refine List.map_congr_left fun job _ => ?_
    simp only [Function.comp_apply, Job.map, Job.transcribed, Activity.map_fst_transcribed, id]
  rw [hjobs]

end Schedule

end Attest
