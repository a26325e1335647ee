import Attest.Proofs.ScheduleMap

/-! # What the work on a chain came to know

Every wait and what it brought, in order: that is all that an activity has to go by besides the time.
A schedule that keeps these histories does nothing else, and what they hold is what the outside gave. -/

namespace Attest

/-- A wait and what it brought, nothing if patience came to its end first. -/
structure Turn where
  wait : Wait
  answer : Option wait.Answer

namespace Activity

/-- Does what an activity does, and remembers its turns. -/
def remembered (before : List Turn) : Activity α → Activity (α × List Turn)
  | done a => done (a, before)
  | mark m rest => mark m (rest.remembered before)
  | time next => time fun now => (next now).remembered before
  | wait w expiry next =>
      wait w expiry fun answer => (next answer).remembered (before ++ [⟨w, answer⟩])

/-- Some turns lead an activity to a result. -/
inductive Leads : Activity α → List Turn → α → Prop
  | done (a : α) : Leads (done a) [] a
  | mark {m : Mark} {rest : Activity α} {turns : List Turn} {a : α} (h : rest.Leads turns a) :
      Leads (mark m rest) turns a
  | time {next : Seconds → Activity α} (now : Seconds) {turns : List Turn} {a : α}
      (h : (next now).Leads turns a) : Leads (time next) turns a
  | wait {w : Wait} {expiry : Expiry} {next : Option w.Answer → Activity α}
      (answer : Option w.Answer) {turns : List Turn} {a : α} (h : (next answer).Leads turns a) :
      Leads (wait w expiry next) (⟨w, answer⟩ :: turns) a

theorem bind_assoc (x : Activity α) (f : α → Activity β) (g : β → Activity γ) :
    (x.bind f).bind g = x.bind fun a => (f a).bind g := by
  induction x with
  | done a => rfl
  | mark m rest ih => exact congrArg (mark m) ih
  | time next ih => exact congrArg time (funext ih)
  | wait w expiry next ih => exact congrArg (wait w expiry) (funext ih)

theorem bind_done (x : Activity α) : (x.bind done) = x := by
  induction x with
  | done a => rfl
  | mark m rest ih => exact congrArg (mark m) ih
  | time next ih => exact congrArg time (funext ih)
  | wait w expiry next ih => exact congrArg (wait w expiry) (funext ih)

theorem map_fst_remembered (before : List Turn) (x : Activity α) :
    (x.remembered before).map Prod.fst = x := by
  induction x generalizing before with
  | done a => rfl
  | mark m rest ih => exact congrArg (mark m) (ih before)
  | time next ih => exact congrArg time (funext fun now => ih now before)
  | wait w expiry next ih =>
    exact congrArg (wait w expiry) (funext fun answer => ih answer _)

theorem leads_done_iff {a b : α} {turns : List Turn} :
    (done a).Leads turns b ↔ turns = [] ∧ b = a := by
  constructor
  · rintro ⟨⟩
    exact ⟨rfl, rfl⟩
  · rintro ⟨rfl, rfl⟩
    exact .done b

/-- What is remembered are the turns that led to the result. -/
theorem Leads.of_remembered {before turns : List Turn} {x : Activity α} {r : α × List Turn}
    (h : (x.remembered before).Leads turns r) : x.Leads turns r.1 ∧ r.2 = before ++ turns := by
  induction x generalizing before turns with
  | done a =>
    cases h
    exact ⟨.done a, (List.append_nil before).symm⟩
  | mark m rest ih =>
    cases h with
    | mark h => exact ⟨.mark (ih h).1, (ih h).2⟩
  | time next ih =>
    cases h with
    | time now h => exact ⟨.time now (ih now h).1, (ih now h).2⟩
  | wait w expiry next ih =>
    cases h with
    | wait answer h =>
      obtain ⟨hleads, hturns⟩ := ih answer h
      exact ⟨.wait answer hleads, by rw [hturns, List.append_assoc, List.singleton_append]⟩

/-- Turns lead through one activity and then through what goes on from its result. -/
theorem leads_bind_iff {x : Activity α} {f : α → Activity β} {turns : List Turn} {b : β} :
    (x.bind f).Leads turns b ↔
      ∃ first rest a, turns = first ++ rest ∧ x.Leads first a ∧ (f a).Leads rest b := by
  constructor
  · intro h
    induction x generalizing turns with
    | done a => exact ⟨[], turns, a, rfl, .done a, h⟩
    | mark m rest ih =>
      cases h with
      | mark h =>
        obtain ⟨first, rest, a, hturns, hx, hf⟩ := ih h
        exact ⟨first, rest, a, hturns, .mark hx, hf⟩
    | time next ih =>
      cases h with
      | time now h =>
        obtain ⟨first, rest, a, hturns, hx, hf⟩ := ih now h
        exact ⟨first, rest, a, hturns, .time now hx, hf⟩
    | wait w expiry next ih =>
      cases h with
      | wait answer h =>
        obtain ⟨first, rest, a, hturns, hx, hf⟩ := ih answer h
        exact ⟨⟨w, answer⟩ :: first, rest, a, congrArg _ hturns, .wait answer hx, hf⟩
  · rintro ⟨first, rest, a, rfl, hx, hf⟩
    induction hx with
    | done a => exact hf
    | mark h ih => exact .mark (ih hf)
    | time now h ih => exact .time now (ih hf)
    | wait answer h ih => exact .wait answer (ih hf)

theorem All.of_leads {q : Wait → Prop} {p : α → Prop} {x : Activity α} (hx : x.All q p)
    {turns : List Turn} {a : α} (h : x.Leads turns a) : p a := by
  induction h with
  | done a => exact hx
  | mark h ih => exact ih hx
  | time now h ih => exact ih (hx now)
  | wait answer h ih => exact ih (hx.2 answer)

end Activity

/-! ### What the outside gives -/

/-- What a turn brought, if anything, is one of the answers that the outside had at some start. -/
def Turn.From (start : Outside) : Turn → Prop
  | ⟨.post url _, some reply⟩ =>
      ∃ response : Node.Response,
        (response ∈ start.script url ∨ response = .silence) ∧ reply = response.reply
  | ⟨.run command, some answer⟩ =>
      ∃ step : Tool.Step, (step ∈ start.heimdall ∨ step = {}) ∧
        answer = ((step.perform command).2, step.leftovers command)
  | _ => True

namespace Outside

/-- What is left of an outside. -/
structure LeftOf (o start : Outside) : Prop where
  nodes : ∀ url, o.script url <:+ start.script url
  heimdall : o.heimdall <:+ start.heimdall

theorem LeftOf.refl (o : Outside) : o.LeftOf o := ⟨fun _ => List.suffix_rfl, List.suffix_rfl⟩

variable {o start : Outside}

theorem mem_or_eq_of_head {l xs : List α} {standIn : α} (h : l <:+ xs) :
    l.head?.getD standIn ∈ xs ∨ l.head?.getD standIn = standIn := by
  cases l with
  | nil => exact .inr rfl
  | cons a l => exact .inl (h.subset List.mem_cons_self)

theorem LeftOf.serve (h : o.LeftOf start) (w : Wait) : (o.serve w).2.LeftOf start := by
  cases w with
  | post url call =>
    refine ⟨fun other => ?_, h.heimdall⟩
    by_cases hurl : other = url
    · subst hurl
      have htail : (o.serve (.post other call)).2.script other = (o.script other).tail :=
        lookup_take_self other o.nodes
      rw [htail]
      exact (List.tail_suffix _).trans (h.nodes other)
    · have hsame : (o.serve (.post url call)).2.script other = o.script other :=
        congrArg (Option.getD · []) (lookup_take_of_ne hurl o.nodes)
      rw [hsame]
      exact h.nodes other
  | pause seconds => exact h
  | run command => exact ⟨h.nodes, (List.tail_suffix _).trans h.heimdall⟩

theorem LeftOf.turn (h : o.LeftOf start) (w : Wait) :
    Turn.From start ⟨w, some (o.serve w).1.2⟩ := by
  cases w with
  | post url call =>
    refine ⟨(take url o.nodes).1, ?_, rfl⟩
    rw [take_fst]
    exact mem_or_eq_of_head (h.nodes url)
  | pause seconds => trivial
  | run command => exact ⟨o.heimdall.head?.getD {}, mem_or_eq_of_head h.heimdall, rfl⟩

end Outside

theorem Turn.from_none (start : Outside) (w : Wait) : Turn.From start ⟨w, none⟩ := by
  cases w <;> trivial

/-! ### Schedules -/

namespace Schedule

variable {start : Outside} {p : Int → α → Prop}

/-- Something holds of all that an activity comes to when it is given what an outside has. -/
def Yields (start : Outside) (x : Activity α) (p : α → Prop) : Prop :=
  ∀ turns a, x.Leads turns a → (∀ t ∈ turns, t.From start) → p a

theorem Yields.turn {x next : Activity α} {p : α → Prop} {t : Turn} (hx : Yields start x p)
    (ht : t.From start) (hnext : ∀ turns a, next.Leads turns a → x.Leads (t :: turns) a) :
    Yields start next p := by
  intro turns a hleads hfrom
  refine hx (t :: turns) a (hnext turns a hleads) fun t' ht' => ?_
  rcases List.mem_cons.mp ht' with rfl | ht'
  · exact ht
  · exact hfrom t' ht'

/-- What holds of how far an activity got, and of what is left of the outside. -/
def Advance.Yields (start : Outside) (p : α → Prop) (a : Advance α) : Prop :=
  a.outside.LeftOf start ∧
    match a.standing with
    | .finished result => p result
    | .waiting _ _ next => Schedule.Yields start next p

theorem advance_yields {x : Activity α} {p : α → Prop} {o : Outside} (ho : o.LeftOf start)
    (hx : Yields start x p) (chain : Int) (clock : Seconds) (sent : Nat) (inSession : Bool) :
    (advance chain clock o sent inSession x).Yields start p := by
  induction x generalizing inSession with
  | done a => exact ⟨ho, hx [] a (.done a) (by simp)⟩
  | mark m rest ih => exact ih (fun turns a h => hx turns a (.mark h)) _
  | time next ih => exact ih clock (fun turns a h => hx turns a (.time clock h)) _
  | wait w expiry next ih =>
    refine ⟨ho.serve w, ?_⟩
    have hnone : Yields start (next none) p :=
      hx.turn (Turn.from_none start w) fun turns a h => .wait none h
    have hsome : Yields start (next (some (o.serve w).1.2)) p :=
      hx.turn (ho.turn w) fun turns a h => .wait _ h
    rw [advance]
    dsimp only
    cases expiry.endOf clock (o.serve w).1.1 with
    | never => exact hnone
    | answered t => exact hsome
    | expired t => exact hnone

/-- All that has come, or may come, of what is under way has a property, given what an outside had. -/
structure State.Yields (start : Outside) (p : Int → α → Prop) (s : State α) : Prop where
  outside : s.outside.LeftOf start
  queue : ∀ job ∈ s.queue, Schedule.Yields start job.activity (p job.chain)
  running : ∀ r ∈ s.running, Schedule.Yields start r.next (p r.chain)
  finished : ∀ f ∈ s.finished, p f.1 f.2

namespace State.Yields

variable {s : State α}

theorem carryOn (hs : s.Yields start p) {chain : Int} {x : Activity α}
    (hx : Schedule.Yields start x (p chain)) (sent : Nat) (inSession : Bool) :
    (s.carryOn chain sent inSession x).Yields start p := by
  obtain ⟨hleft, hstanding⟩ := advance_yields hs.outside hx chain s.clock sent inSession
  cases h : (advance chain s.clock s.outside sent inSession x).standing with
  | finished a =>
    rw [h] at hstanding
    rw [carryOn_of_finished chain sent inSession h]
    refine ⟨hleft, hs.queue, hs.running, fun f hf => ?_⟩
    obtain hf | hf := List.mem_append.mp hf
    · exact hs.finished f hf
    · rw [List.mem_singleton.mp hf]
      exact hstanding
  | waiting wake answered next =>
    rw [h] at hstanding
    rw [carryOn_of_waiting chain sent inSession h]
    refine ⟨hleft, hs.queue, fun r hr => ?_, hs.finished⟩
    obtain hr | hr := List.mem_append.mp hr
    · exact hs.running r hr
    · rw [List.mem_singleton.mp hr]
      exact hstanding

theorem grant {queue : List (Job α)} (hs : ({ s with queue } : State α).Yields start p) :
    (s.grant queue).Yields start p := by
  induction queue generalizing s with
  | nil => exact hs
  | cons job queue ih =>
    by_cases hfree : s.free = 0
    · rw [grant_of_full hfree]
      exact hs
    · have hrest : ({ s.acquire job.chain with queue } : State α).Yields start p :=
        ⟨hs.outside, fun j hj => hs.queue j (List.mem_cons_of_mem job hj), hs.running, hs.finished⟩
      rw [grant_of_free hfree]
      apply ih
      rw [← carryOn_with_queue]
      exact hrest.carryOn (hs.queue job List.mem_cons_self) 0 false

theorem resume (hs : s.Yields start p) {r : Running α} (hr : r ∈ s.running) (time : Seconds) :
    (s.resume r time).Yields start p := by
  refine grant (carryOn ?_ (hs.running r hr) r.sent r.inSession)
  exact ⟨hs.outside, hs.queue, fun q hq => hs.running q (List.mem_of_mem_filter hq), hs.finished⟩

theorem proceed (hs : s.Yields start p) (deadline : Expiry) (fuel : Nat) :
    (s.proceed deadline fuel).Yields start p := by
  induction fuel generalizing s with
  | zero => exact hs
  | succ fuel ih =>
    rw [State.proceed]
    cases hdue : s.due? deadline with
    | none => exact hs
    | some next => exact ih (hs.resume (due?_eq_some hdue).1 next.2)

end State.Yields

/-- What holds of all that the jobs come to with what an outside has holds of all results of a schedule
there. -/
theorem finished_yields {slots waits : Nat} {clock : Seconds} {deadline : Expiry}
    {jobs : List (Job α)} (hjobs : ∀ job ∈ jobs, Yields start job.activity (p job.chain))
    {f : Int × α} (hf : f ∈ (run slots waits clock deadline start jobs).finished) : p f.1 f.2 := by
  rw [run, State.finished_strike] at hf
  have hopening :
      (State.grant { clock, outside := start, free := slots, queue := jobs } jobs).Yields start p :=
    State.Yields.grant ⟨.refl start, hjobs, fun _ h => absurd h List.not_mem_nil,
      fun _ h => absurd h List.not_mem_nil⟩
  have hbefore : ((State.grant { clock, outside := start, free := slots, queue := jobs } jobs).before
      deadline).Yields start p := by
    rw [State.before]
    split
    · exact hopening
    · exact ⟨hopening.outside, hopening.queue, hopening.running,
        fun _ h => absurd h List.not_mem_nil⟩
  exact (hbefore.proceed deadline _).finished f hf

/-- What holds of all that may come of the jobs holds of all results. -/
theorem finished_all {slots waits : Nat} {clock : Seconds} {deadline : Expiry}
    {jobs : List (Job α)} (hjobs : ∀ job ∈ jobs, job.activity.All (fun _ => True) (p job.chain))
    {f : Int × α} (hf : f ∈ (run slots waits clock deadline start jobs).finished) : p f.1 f.2 :=
  finished_yields (fun job hjob _ _ hleads _ => (hjobs job hjob).of_leads hleads) hf

/-! ### Schedules that remember -/

/-- A job that remembers its turns. -/
def Job.remembered (job : Job α) : Job (α × List Turn) := ⟨job.chain, job.activity.remembered []⟩

/-- Without what it remembers, a schedule is the schedule. -/
theorem run_remembered (slots waits : Nat) (clock : Seconds) (deadline : Expiry)
    (outside : Outside) (jobs : List (Job α)) :
    (run slots waits clock deadline outside (jobs.map Job.remembered)).map Prod.fst =
      run slots waits clock deadline outside jobs := by
  rw [← run_map, List.map_map]
  have hjobs : jobs.map (Job.map Prod.fst ∘ Job.remembered) = jobs := by
    conv_rhs => rw [← List.map_id jobs]
    refine List.map_congr_left fun job _ => ?_
    simp only [Function.comp_apply, Job.map, Job.remembered, Activity.map_fst_remembered, id]
  rw [hjobs]

/-- What a schedule remembers of a chain that came to its end are turns that led to its result, and
brought what the outside had. -/
theorem leads_of_finished {slots waits : Nat} {clock : Seconds} {deadline : Expiry}
    {jobs : List (Job α)} {chain : Int} {a : α} {turns : List Turn}
    (h : (chain, a, turns) ∈
      (run slots waits clock deadline start (jobs.map Job.remembered)).finished) :
    ∃ job ∈ jobs, job.chain = chain ∧ job.activity.Leads turns a ∧ ∀ t ∈ turns, t.From start := by
  refine finished_yields (p := fun chain r => ∃ job ∈ jobs, job.chain = chain ∧
    job.activity.Leads r.2 r.1 ∧ ∀ t ∈ r.2, t.From start) ?_ h
  intro job hjob turns r hleads hfrom
  obtain ⟨plain, hplain, rfl⟩ := List.mem_map.mp hjob
  obtain ⟨hled, hturns⟩ := hleads.of_remembered
  rw [List.nil_append] at hturns
  subst hturns
  exact ⟨plain, hplain, rfl, hled, hfrom⟩

end Schedule

end Attest
