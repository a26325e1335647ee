import Attest.Proofs.SlotTurns

/-! # More time and more slots

With a later deadline a schedule goes on where it would have been struck, and with more slots nobody
begins later: what is finished stays so. -/

namespace Attest

/-- What is before another deadline is before this one. -/
def Expiry.Allows (deadline' deadline : Expiry) : Prop :=
  ∀ t, Schedule.State.isBefore t deadline = true → Schedule.State.isBefore t deadline' = true

namespace Schedule

/-- When a job begins at another time, it comes to what it comes to otherwise, and no later. -/
def Job.Keeps (url : Int → String) (start : Outside) (job : Job α) (t t' : Seconds) : Prop :=
  ∀ e, job.activity.outcome t (start.only (url job.chain)) = some e →
    ∃ e', job.activity.outcome t' (start.only (url job.chain)) = some e' ∧ e'.answer = e.answer ∧
      e'.clock ≤ e.clock

namespace State

variable {s : State α} {deadline deadline' : Expiry}

/-! ### More time -/

theorem finished_prefix_carryOn (chain : Int) (sent : Nat) (inSession : Bool) (x : Activity α) :
    s.finished <+: (s.carryOn chain sent inSession x).finished := by
  cases h : (advance chain s.clock s.outside sent inSession x).standing with
  | finished a =>
    rw [carryOn_of_finished chain sent inSession h]
    exact List.prefix_append _ _
  | waiting wake answered next => rw [carryOn_of_waiting chain sent inSession h]

theorem finished_prefix_grant (queue : List (Job α)) : s.finished <+: (s.grant queue).finished := by
  refine grant_induction (I := fun t => s.finished <+: t.finished) (fun t job rest _ h => ?_)
    List.prefix_rfl
  exact h.trans (finished_prefix_carryOn (s := { t.acquire job.chain with queue := rest })
    job.chain 0 false job.activity)

theorem finished_prefix_proceed (deadline : Expiry) (fuel : Nat) :
    s.finished <+: (s.proceed deadline fuel).finished := by
  refine proceed_induction (I := fun t => s.finished <+: t.finished) (fun t r time _ h => ?_)
    List.prefix_rfl fuel
  have hcarried := finished_prefix_carryOn (s := t.takeUp r time) r.chain r.sent r.inSession r.next
  exact h.trans (hcarried.trans (finished_prefix_grant _))

theorem due?_of_allows (h : deadline'.Allows deadline) {next : Running α × Seconds}
    (hdue : s.due? deadline = some next) : s.due? deadline' = some next := by
  unfold due? at hdue ⊢
  split at hdue
  · cases hdue
  · dsimp only at hdue ⊢
    split at hdue
    · cases hdue
    · next t _ =>
      split at hdue
      · next hbefore =>
        rw [if_pos (h t hbefore)]
        exact hdue
      · cases hdue

/-- Up to a deadline a schedule does what it does up to a later one. -/
theorem exists_proceed (h : deadline'.Allows deadline) (fuel : Nat) :
    ∃ fuel', s.proceed deadline' fuel = (s.proceed deadline fuel).proceed deadline' fuel' := by
  induction fuel generalizing s with
  | zero => exact ⟨0, rfl⟩
  | succ fuel ih =>
    cases hdue : s.due? deadline with
    | none =>
      refine ⟨fuel + 1, ?_⟩
      rw [proceed_of_due?_eq_none hdue]
    | some next =>
      obtain ⟨fuel', hrest⟩ := ih (s := s.resume next.1 next.2)
      refine ⟨fuel', ?_⟩
      rw [proceed, due?_of_allows h hdue, proceed, hdue]
      exact hrest

/-! ### More slots -/

section MoreSlots

variable {url : Int → String} {start : Outside} {jobs : List (Job α)} {p : Seconds → Prop}

/-- A state in which the deadline strikes: it has been carried on as far as it goes. -/
structure Served (url : Int → String) (deadline : Expiry) (start : Outside) (jobs : List (Job α))
    (p : Seconds → Prop) (slots : Nat) (clock : Seconds) (begun : List (Job α × Seconds))
    (s : State α) : Prop where
  sound : Sound url deadline start jobs p [] s
  deals : s.Deals url start jobs p slots clock begun
  full : s.queue = [] ∨ s.free = 0
  due : s.due? deadline = none

namespace Served

variable {s' : State α} {slots slots' : Nat} {clock : Seconds} {begun begun' : List (Job α × Seconds)}

/-- What counts of a job that has begun, beside the same job with more slots. -/
theorem sooner (hs : s.Served url deadline start jobs p slots clock begun) (hjobs : Separate url jobs)
    {b b' : Job α × Seconds} (hb : b ∈ begun) (hsame : b'.1 = b.1) (hbegins : b'.2 ≤ b.2)
    (hkeep : b.1.chain ∈ s.finished.map (·.1) → b.1.Keeps url start b.2 b'.2) :
    Sooner (endAlone url start) (fun u => isBefore u deadline = true) b b' := by
  refine ⟨hsame, hbegins, fun u hu hover => ?_⟩
  obtain ⟨t, ht, hle⟩ := isOver_iff.mp hover
  obtain ⟨e, he, rfl⟩ := Option.map_eq_some_iff.mp ht
  have hmem := hs.deals.mem_finished hjobs hs.sound hs.due hb he (isBefore_anti hle hu)
  obtain ⟨e', he', -, hclock⟩ := hkeep (List.mem_map_of_mem hmem) e he
  refine isOver_iff.mpr ⟨e'.clock, ?_, hclock.trans hle⟩
  rw [endAlone, hsame, he', Option.map_some]

/-- With more slots every chain that is finished stays so and comes to the same, if the work on a chain
that begins no later comes to the same no later. -/
theorem finished_subset (hs : s.Served url deadline start jobs p slots clock begun)
    (hs' : s'.Served url deadline start jobs p slots' clock begun') (hjobs : Separate url jobs)
    (hle : slots ≤ slots')
    (hkeep : ∀ job ∈ jobs, ∀ t t', p t → p t' → t' ≤ t → ⟨t, job.chain, .acquired⟩ ∈ s.log →
      ⟨t', job.chain, .acquired⟩ ∈ s'.log → job.chain ∈ s.finished.map (·.1) →
        job.Keeps url start t t') : s.finished ⊆ s'.finished := by
  have hkeeps {b b' : Job α × Seconds} (hb : b ∈ begun) (hb' : b' ∈ begun') (hsame : b'.1 = b.1)
      (hbegins : b'.2 ≤ b.2) (hfinished : b.1.chain ∈ s.finished.map (·.1)) :
      b.1.Keeps url start b.2 b'.2 :=
    hkeep b.1 (hs.deals.mem_jobs hb) b.2 b'.2 (hs.deals.times b hb).1 (hs'.deals.times b' hb').1 hbegins
      (hs.deals.mem_log hb) (hsame ▸ hs'.deals.mem_log hb') hfinished
  have hrow : begun.map (·.1) <+: jobs := ⟨s.queue, hs.deals.order⟩
  have hrow' : begun'.map (·.1) <+: jobs := ⟨s'.queue, hs'.deals.order⟩
  have hbefore : ∀ b ∈ begun, isBefore b.2 deadline = true :=
    fun b hb => isBefore_anti (hs.deals.times b hb).2 hs.sound.timely
  have hfull : begun'.length < jobs.length → ∀ u, clock ≤ u → isBefore u deadline = true →
      slots' ≤ busy (endAlone url start) u begun' := by
    intro hlength u hu hq
    refine hs'.deals.crowded_before hs'.full hs'.due (fun hnil => ?_) hu hq
    have horder := congrArg List.length hs'.deals.order
    rw [hnil, List.append_nil, List.length_map] at horder
    omega
  obtain ⟨matched, rest, hbegun', hmatched⟩ := hs.deals.dealt.sooner hs'.deals.dealt hle hrow hrow'
    hbefore hfull fun b hb b' hb' hsame hbegins =>
      hs.sooner hjobs hb hsame hbegins (hkeeps hb hb' hsame hbegins)
  intro f hf
  obtain ⟨e, ⟨job, hjob, hchain, t, ht, hlog, he⟩, hanswer, hearly⟩ := hs.sound.finished f hf
  rw [← hchain] at hlog he
  have hb := hs.deals.mem_begun hjobs hjob hlog
  obtain ⟨⟨job', t'⟩, hb', hsooner⟩ := exists_sooner_of_mem hmatched hb
  obtain rfl : job' = job := hsooner.same
  have hb' : (job', t') ∈ begun' := hbegun' ▸ List.mem_append_left rest hb'
  obtain ⟨e', he', hsame, hclock⟩ := hkeeps hb hb' rfl hsooner.begins
    (hchain ▸ List.mem_map_of_mem hf) e he
  have hmem := hs'.deals.mem_finished hjobs hs'.sound hs'.due hb' he' (isBefore_anti hclock hearly)
  rw [hsame, hanswer, hchain] at hmem
  exact hmem

end Served

end MoreSlots

end State

/-! ### Whole runs -/

section Run

variable {url : Int → String} {deadline deadline' : Expiry} {start : Outside} {jobs : List (Job α)}
  {p : Seconds → Prop} {slots slots' waits : Nat} {clock : Seconds}

/-- How the slots have been given out when the deadline strikes. -/
theorem exists_served (slots : Nat) (hjobs : Separate url jobs)
    (hclock : State.isBefore clock deadline = true) (hp : p clock)
    (hlasting : Lasting url deadline start jobs p)
    (hwaits : ∀ job ∈ jobs, job.activity.AtMost waits) :
    ∃ begun, ((State.opening slots clock start jobs).proceed deadline
      (jobs.length * waits + 1)).Served url deadline start jobs p slots clock begun := by
  have hwaiting : ({ clock, outside := start, free := slots, queue := jobs } : State α).Deals url start
      jobs p slots clock [] :=
    ⟨rfl, rfl, .nil, nofun, le_rfl, rfl, fun _ _ => rfl, fun _ _ hu hlt => absurd hu hlt.not_ge⟩
  obtain ⟨begun, hopening⟩ : ∃ begun, (State.opening slots clock start jobs).Deals url start jobs p
      slots clock begun := State.Deals.grant hjobs (sound_waiting hclock) hwaiting (.inr (.inr hp))
  have htimed : (State.opening slots clock start jobs).Timed clock [] :=
    State.Timed.grant ⟨le_rfl, nofun, [], rfl, .nil, nofun⟩
  obtain ⟨begun, hd, hfull⟩ := hopening.proceed hjobs hlasting (sound_start hjobs hclock hp) htimed
    (State.grant_full jobs) (jobs.length * waits + 1)
  exact ⟨begun, sound_proceed hjobs hclock hp (.inr hlasting) _, hd, hfull, due?_proceed_start hwaits⟩

/-- With a later deadline every chain that is finished stays so and comes to the same. -/
theorem finished_prefix_of_allows (h : deadline'.Allows deadline) :
    (run slots waits clock deadline start jobs).finished <+:
      (run slots waits clock deadline' start jobs).finished := by
  cases hclock : State.isBefore clock deadline with
  | false =>
    rw [finished_run_of_not_isBefore hclock]
    exact List.nil_prefix
  | true =>
    obtain ⟨fuel', hlater⟩ := State.exists_proceed (s := State.opening slots clock start jobs) h
      (jobs.length * waits + 1)
    rw [run_of_isBefore hclock, run_of_isBefore (h clock hclock), State.finished_strike,
      State.finished_strike, hlater]
    exact State.finished_prefix_proceed deadline' fuel'

/-- With more slots and a later deadline every chain that is finished stays so and comes to the same, if
the work on a chain that begins no later comes to the same no later. -/
theorem finished_subset_of_le (hjobs : Separate url jobs)
    (hwaits : ∀ job ∈ jobs, job.activity.AtMost waits) (hslots : slots ≤ slots')
    (hdeadline : deadline'.Allows deadline) (hp : p clock)
    (hlasting : Lasting url deadline start jobs p)
    (hkeep : ∀ job ∈ jobs, ∀ t t', p t → p t' → t' ≤ t →
      ⟨t, job.chain, .acquired⟩ ∈ (run slots waits clock deadline start jobs).log →
      ⟨t', job.chain, .acquired⟩ ∈ (run slots' waits clock deadline' start jobs).log →
      job.chain ∈ (run slots waits clock deadline start jobs).finished.map (·.1) →
        job.Keeps url start t t') :
    (run slots waits clock deadline start jobs).finished ⊆
      (run slots' waits clock deadline' start jobs).finished := by
  cases hclock : State.isBefore clock deadline with
  | false =>
    rw [finished_run_of_not_isBefore hclock]
    exact List.nil_subset _
  | true =>
    obtain ⟨begun, hs⟩ := exists_served slots hjobs hclock hp hlasting hwaits
    obtain ⟨begun', hs'⟩ := exists_served slots' hjobs hclock hp hlasting hwaits
    obtain ⟨fuel', hlater⟩ := State.exists_proceed (s := State.opening slots' clock start jobs)
      hdeadline (jobs.length * waits + 1)
    rw [run_of_isBefore hclock, run_of_isBefore (hdeadline clock hclock), State.finished_strike,
      hlater] at hkeep
    rw [run_of_isBefore hclock, run_of_isBefore (hdeadline clock hclock), State.finished_strike,
      State.finished_strike, hlater]
    refine List.Subset.trans (hs.finished_subset hs' hjobs hslots ?_)
      (State.finished_prefix_proceed deadline' fuel').subset
    intro job hjob t t' ht ht' hbegins hlog hlog'
    exact hkeep job hjob t t' ht ht' hbegins ((State.log_prefix_strike _ _).subset hlog)
      ((State.log_prefix_strike _ _).subset ((State.log_prefix_proceed _ _).subset hlog'))

end Run

end Schedule

end Attest
