import Attest.Proofs.ScheduleSteps
import Mathlib.Algebra.Group.Action.Defs
import Mathlib.Algebra.Order.BigOperators.Group.List

/-! Chains do not disturb each other: as long as each asks a node of its own, what comes of a chain in a
schedule is what comes of it alone, from the time on at which it got its slot. -/

namespace Attest.Schedule

/-- Jobs that keep apart: each asks the node of its chain only. -/
structure Separate (url : Int → String) (jobs : List (Job α)) : Prop where
  chains : (jobs.map (·.chain)).Nodup
  nodes : ∀ a ∈ jobs, ∀ b ∈ jobs, url a.chain = url b.chain → a.chain = b.chain
  asks : ∀ job ∈ jobs, job.activity.All (Wait.IsLocal (url job.chain)) fun _ => True

variable (url : Int → String) (deadline : Expiry) (start : Outside) (jobs : List (Job α))
  (p : Seconds → Prop)

/-- A chain got its slot at a time with a property, and from there on its work alone comes to some
ending, if any. -/
def Began (log : List Event) (chain : Int) (ending : Option (Activity.Ending α)) : Prop :=
  ∃ job ∈ jobs, job.chain = chain ∧ ∃ t, p t ∧ ⟨t, chain, .acquired⟩ ∈ log ∧
    job.activity.outcome t (start.only (url chain)) = ending

/-- The chains that wait for a slot, are at work, or have finished. -/
def State.chains (s : State α) : List Int :=
  s.queue.map (·.chain) ++ s.running.map (·.chain) ++ s.finished.map (·.1)

/-- What is true of a schedule between two steps, while some chains are being carried on. -/
structure Sound (inHand : List Int) (s : State α) : Prop where
  chains : (inHand ++ s.chains).Perm (jobs.map (·.chain))
  queue : ∀ job ∈ s.queue,
    job ∈ jobs ∧ s.outside.only (url job.chain) = start.only (url job.chain)
  asks : ∀ r ∈ s.running, r.next.All (Wait.IsLocal (url r.chain)) fun _ => True
  running : ∀ r ∈ s.running, Began url start jobs p s.log r.chain
    (r.wake.bind fun t => r.next.outcome t (s.outside.only (url r.chain)))
  finished : ∀ f ∈ s.finished, ∃ e, Began url start jobs p s.log f.1 (some e) ∧ e.answer = f.2 ∧
    State.isBefore e.clock deadline = true
  orders : (s.running.map (·.order)).Nodup
  fresh : ∀ r ∈ s.running, r.order < s.waits
  timely : State.isBefore s.clock deadline = true

/-- The property of the times at which chains get their slots holds of the times at which they end. -/
def Lasting : Prop :=
  ∀ job ∈ jobs, ∀ t e, p t → job.activity.outcome t (start.only (url job.chain)) = some e →
    State.isBefore e.clock deadline = true → p e.clock

variable {url deadline start jobs p}

theorem lasting_true : Lasting url deadline start jobs fun _ => True :=
  fun _ _ _ _ _ _ _ => trivial

/-- A job is known by its chain. -/
theorem Separate.job_eq (hjobs : Separate url jobs) {a b : Job α} (ha : a ∈ jobs) (hb : b ∈ jobs)
    (h : a.chain = b.chain) : a = b :=
  List.inj_on_of_nodup_map hjobs.chains ha hb h

theorem Began.mono {log log' : List Event} {chain : Int} {ending : Option (Activity.Ending α)}
    (h : Began url start jobs p log chain ending) (hlog : log <+: log') :
    Began url start jobs p log' chain ending := by
  obtain ⟨job, hjob, hchain, t, ht, hmem, hending⟩ := h
  exact ⟨job, hjob, hchain, t, ht, hlog.subset hmem, hending⟩

theorem perm_cons_filter_order {l : List (Running α)} (h : (l.map (·.order)).Nodup) {r : Running α}
    (hr : r ∈ l) : l.Perm (r :: l.filter fun q => q.order != r.order) := by
  induction l with
  | nil => cases hr
  | cons q l ih =>
    obtain ⟨hq, hl⟩ := List.nodup_cons.mp h
    obtain rfl | hr := List.mem_cons.mp hr
    · have hkeep : l.filter (fun p => p.order != r.order) = l := by
        rw [List.filter_eq_self]
        intro p hp
        rw [bne_iff_ne]
        rintro heq
        exact hq (List.mem_map.mpr ⟨p, hp, heq⟩)
      rw [List.filter_cons_of_neg (by simp), hkeep]
    · have hne : q.order ≠ r.order := by
        intro heq
        exact hq (List.mem_map.mpr ⟨r, hr, heq.symm⟩)
      rw [List.filter_cons_of_pos (by simpa using hne)]
      exact ((ih hl hr).cons q).trans (List.Perm.swap r q _)

namespace Sound

variable {s : State α} {inHand : List Int}

/-- Two chains have two nodes. -/
theorem url_ne (hs : Sound url deadline start jobs p inHand s) (hjobs : Separate url jobs)
    {a b : Int} (ha : a ∈ inHand ++ s.chains) (hb : b ∈ inHand ++ s.chains) (hne : a ≠ b) :
    url a ≠ url b := by
  obtain ⟨i, hi, rfl⟩ := List.mem_map.mp (hs.chains.mem_iff.mp ha)
  obtain ⟨j, hj, rfl⟩ := List.mem_map.mp (hs.chains.mem_iff.mp hb)
  exact fun h => hne (hjobs.nodes i hi j hj h)

theorem nodup_finished (hs : Sound url deadline start jobs p inHand s)
    (hjobs : Separate url jobs) : (s.finished.map (·.1)).Nodup :=
  (hs.chains.nodup_iff.mpr hjobs.chains).sublist
    ((List.sublist_append_right _ _).trans (List.sublist_append_right _ _))

/-- When no wait ends before the deadline any more, who would have come to an end by then has. -/
theorem mem_finished {clock : Seconds} (hs : Sound url deadline start jobs (· = clock) [] s)
    (hjobs : Separate url jobs) (hnil : s.queue = []) (hdue : s.due? deadline = none) {job : Job α}
    (hjob : job ∈ jobs) {e : Activity.Ending α}
    (he : job.activity.outcome clock (start.only (url job.chain)) = some e)
    (hbefore : State.isBefore e.clock deadline = true) : (job.chain, e.answer) ∈ s.finished := by
  have hmem : job.chain ∈ s.chains := hs.chains.mem_iff.mpr (List.mem_map_of_mem hjob)
  rw [State.chains, hnil, List.map_nil, List.nil_append] at hmem
  obtain hmem | hmem := List.mem_append.mp hmem
  · obtain ⟨r, hr, hchain⟩ := List.mem_map.mp hmem
    obtain ⟨job', hjob', hchain', t, rfl, _, hending⟩ := hs.running r hr
    obtain rfl := hjobs.job_eq hjob hjob' (hchain.symm.trans hchain'.symm)
    rw [← hchain', he] at hending
    obtain ⟨u, hwake, hnext⟩ := Option.bind_eq_some_iff.mp hending.symm
    have hle := Activity.le_clock_of_outcome hnext
    have := State.due?_eq_none hdue hr hwake
    rw [State.isBefore_anti hle hbefore] at this
    cases this
  · obtain ⟨f, hf, hchain⟩ := List.mem_map.mp hmem
    obtain ⟨e', ⟨job', hjob', hchain', t, rfl, _, hending⟩, hanswer, _⟩ := hs.finished f hf
    obtain rfl := hjobs.job_eq hjob hjob' (hchain.symm.trans hchain'.symm)
    rw [← hchain', he] at hending
    cases hending
    rw [hchain', hanswer]
    exact hf

theorem finished_mono (hs : Sound url deadline start jobs p inHand s) {log : List Event}
    (hlog : s.log <+: log) : ∀ f ∈ s.finished, ∃ e, Began url start jobs p log f.1 (some e) ∧
      e.answer = f.2 ∧ State.isBefore e.clock deadline = true := by
  intro f hf
  obtain ⟨e, hbegan, hanswer, hbefore⟩ := hs.finished f hf
  exact ⟨e, hbegan.mono hlog, hanswer, hbefore⟩

/-- What a chain in hand does concerns no other chain's node. -/
theorem only_advance {chain c : Int} {x : Activity α} (hjobs : Separate url jobs)
    (hs : Sound url deadline start jobs p [chain] s)
    (hx : x.All (Wait.IsLocal (url chain)) fun _ => True) (hc : c ∈ s.chains)
    (sent : Nat) (inSession : Bool) :
    (advance chain s.clock s.outside sent inSession x).outside.only (url c) =
      s.outside.only (url c) := by
  have hnodup : (chain :: s.chains).Nodup := hs.chains.nodup_iff.mpr hjobs.chains
  have hne : c ≠ chain := by
    rintro rfl
    exact (List.nodup_cons.mp hnodup).1 hc
  exact only_advance_of_ne chain s.clock s.outside sent inSession hx
    (hs.url_ne hjobs (List.mem_cons_of_mem chain hc) List.mem_cons_self hne)

section Others

variable {chain : Int} {x : Activity α} (hjobs : Separate url jobs)
  (hs : Sound url deadline start jobs p [chain] s)
  (hx : x.All (Wait.IsLocal (url chain)) fun _ => True) (sent : Nat) (inSession : Bool)
include hjobs hs hx

/-- Who waits for a slot still finds the own node as it was at the start. -/
theorem queue_advance : ∀ job ∈ s.queue, job ∈ jobs ∧
    (advance chain s.clock s.outside sent inSession x).outside.only (url job.chain) =
      start.only (url job.chain) := by
  intro job hjob
  have hmem : job.chain ∈ s.chains :=
    List.mem_append_left _ (List.mem_append_left _ (List.mem_map_of_mem hjob))
  rw [hs.only_advance hjobs hx hmem]
  exact hs.queue job hjob

theorem running_advance : ∀ r ∈ s.running,
    Began url start jobs p (s.carryOn chain sent inSession x).log r.chain
      (r.wake.bind fun t => r.next.outcome t
        ((advance chain s.clock s.outside sent inSession x).outside.only (url r.chain))) := by
  intro r hr
  have hmem : r.chain ∈ s.chains :=
    List.mem_append_left _ (List.mem_append_right _ (List.mem_map_of_mem hr))
  rw [hs.only_advance hjobs hx hmem]
  exact (hs.running r hr).mono (State.log_prefix_carryOn chain sent inSession x)

variable (hbegan : Began url start jobs p s.log chain
  (x.outcome s.clock (s.outside.only (url chain))))
include hbegan

theorem carryOn_of_finished {a : α}
    (h : (advance chain s.clock s.outside sent inSession x).standing = .finished a) :
    Sound url deadline start jobs p [] (s.carryOn chain sent inSession x) := by
  have hlog := State.log_prefix_carryOn (s := s) chain sent inSession x
  have hqueue := hs.queue_advance hjobs hx sent inSession
  have hrunning := hs.running_advance hjobs hx sent inSession
  have hfinished := hs.finished_mono hlog
  have hdone := hbegan.mono hlog
  rw [outcome_advance chain s.clock s.outside sent inSession hx, h] at hdone
  rw [State.carryOn_of_finished chain sent inSession h] at hrunning hfinished hdone ⊢
  refine ⟨?_, hqueue, hs.asks, hrunning, ?_, hs.orders, hs.fresh, hs.timely⟩
  · refine List.Perm.trans ?_ hs.chains
    simp only [State.chains, List.map_append, List.map_cons, List.map_nil, List.nil_append]
    rw [← List.append_assoc]
    exact List.perm_append_singleton chain _
  · rw [List.forall_mem_append, List.forall_mem_singleton]
    exact ⟨hfinished, _, hdone, rfl, hs.timely⟩

theorem carryOn_of_waiting {wake : Option Seconds} {answered : Bool} {next : Activity α}
    (h : (advance chain s.clock s.outside sent inSession x).standing =
      .waiting wake answered next) :
    Sound url deadline start jobs p [] (s.carryOn chain sent inSession x) := by
  have hlog := State.log_prefix_carryOn (s := s) chain sent inSession x
  have hqueue := hs.queue_advance hjobs hx sent inSession
  have hrunning := hs.running_advance hjobs hx sent inSession
  have hfinished := hs.finished_mono hlog
  have hwaiting := hbegan.mono hlog
  have hnext := all_advance chain s.clock s.outside sent inSession hx
  rw [outcome_advance chain s.clock s.outside sent inSession hx, h] at hwaiting
  rw [h] at hnext
  rw [State.carryOn_of_waiting chain sent inSession h] at hrunning hfinished hwaiting ⊢
  refine ⟨?_, hqueue, ?_, ?_, hfinished, ?_, ?_, hs.timely⟩
  · refine List.Perm.trans ?_ hs.chains
    simp only [State.chains, List.map_append, List.map_cons, List.map_nil, List.nil_append,
      List.append_assoc, List.cons_append]
    rw [← List.append_assoc, ← List.append_assoc]
    exact List.perm_middle
  · rw [List.forall_mem_append, List.forall_mem_singleton]
    exact ⟨hs.asks, hnext⟩
  · rw [List.forall_mem_append, List.forall_mem_singleton]
    exact ⟨hrunning, hwaiting⟩
  · rw [List.map_append, List.nodup_append]
    refine ⟨hs.orders, List.nodup_singleton _, ?_⟩
    intro order horder new hnew
    obtain ⟨r, hr, rfl⟩ := List.mem_map.mp horder
    have hlt := hs.fresh r hr
    rw [List.mem_singleton.mp hnew]
    exact hlt.ne
  · rw [List.forall_mem_append, List.forall_mem_singleton]
    exact ⟨fun r hr => (hs.fresh r hr).trans (Nat.lt_succ_self _), Nat.lt_succ_self _⟩

end Others

/-- Carrying on a chain takes it out of hand and leaves all others as they are. -/
theorem carryOn {chain : Int} {x : Activity α} (hjobs : Separate url jobs)
    (hs : Sound url deadline start jobs p [chain] s)
    (hx : x.All (Wait.IsLocal (url chain)) fun _ => True)
    (hbegan : Began url start jobs p s.log chain
      (x.outcome s.clock (s.outside.only (url chain))))
    (sent : Nat) (inSession : Bool) :
    Sound url deadline start jobs p [] (s.carryOn chain sent inSession x) := by
  cases h : (advance chain s.clock s.outside sent inSession x).standing with
  | finished a => exact hs.carryOn_of_finished hjobs hx sent inSession hbegan h
  | waiting wake answered next => exact hs.carryOn_of_waiting hjobs hx sent inSession hbegan h

/-- A chain from the queue takes a slot. -/
theorem acquire {job : Job α} {queue : List (Job α)}
    (hs : Sound url deadline start jobs p [] { s with queue := job :: queue }) :
    Sound url deadline start jobs p [job.chain] { s.acquire job.chain with queue } := by
  have hlog : s.log <+: (s.acquire job.chain).log := State.log_prefix_record _
  exact ⟨hs.chains, fun j hj => hs.queue j (List.mem_cons_of_mem job hj), hs.asks,
    fun r hr => (hs.running r hr).mono hlog, hs.finished_mono hlog, hs.orders, hs.fresh, hs.timely⟩

/-- From when it takes its slot, a chain comes to what it comes to alone. -/
theorem began_acquire {job : Job α} {queue : List (Job α)}
    (hs : Sound url deadline start jobs p [] { s with queue := job :: queue }) (hp : p s.clock) :
    Began url start jobs p (s.acquire job.chain).log job.chain
      (job.activity.outcome s.clock (s.outside.only (url job.chain))) := by
  obtain ⟨hjob, honly⟩ := hs.queue job List.mem_cons_self
  exact ⟨job, hjob, rfl, s.clock, hp, List.mem_append_right _ (List.mem_singleton_self _), honly ▸ rfl⟩

theorem grant {queue : List (Job α)} (hjobs : Separate url jobs)
    (hs : Sound url deadline start jobs p [] { s with queue })
    (hp : queue = [] ∨ s.free = 0 ∨ p s.clock) :
    Sound url deadline start jobs p [] (s.grant queue) := by
  induction queue generalizing s with
  | nil => exact hs
  | cons job queue ih =>
    by_cases hfree : s.free = 0
    · rw [State.grant_of_full hfree]
      exact hs
    · have hclock : p s.clock := by
        obtain hnil | hfull | hclock := hp
        · exact absurd hnil (List.cons_ne_nil job queue)
        · exact absurd hfull hfree
        · exact hclock
      obtain ⟨hjob, -⟩ := hs.queue job List.mem_cons_self
      have hcarried :=
        hs.acquire.carryOn hjobs (hjobs.asks job hjob) (hs.began_acquire hclock) 0 false
      rw [State.carryOn_with_queue] at hcarried
      rw [State.grant_of_free hfree]
      refine ih hcarried (.inr (.inr ?_))
      rw [State.carryOn_clock]
      exact hclock

/-- A chain whose wait ends is taken in hand. -/
theorem takeUp {r : Running α} {t : Seconds} (hs : Sound url deadline start jobs p [] s)
    (hr : r ∈ s.running) (ht : State.isBefore t deadline = true) :
    Sound url deadline start jobs p [r.chain]
      { s with clock := t, running := s.running.filter fun q => q.order != r.order } := by
  have hsub : (s.running.filter fun q => q.order != r.order).Sublist s.running :=
    List.filter_sublist
  refine ⟨?_, hs.queue, fun q hq => hs.asks q (hsub.subset hq),
    fun q hq => hs.running q (hsub.subset hq), hs.finished, hs.orders.sublist (hsub.map _),
    fun q hq => hs.fresh q (hsub.subset hq), ht⟩
  refine List.Perm.trans ?_ hs.chains
  have hperm := (perm_cons_filter_order hs.orders hr).map (·.chain)
  exact (List.perm_middle.symm.trans (hperm.symm.append_left _)).append_right _

/-- When a wait is over and a slot is free again, it is a time with the property in question. -/
theorem ready {r : Running α} {t : Seconds} (hs : Sound url deadline start jobs p [] s)
    (hfull : s.queue = [] ∨ s.free = 0) (hp : s.queue = [] ∨ Lasting url deadline start jobs p)
    (hr : r ∈ s.running) (hwake : r.wake = some t) (ht : State.isBefore t deadline = true)
    {carried : State α} (hcarried : carried = ({ s with
      clock := t, running := s.running.filter fun q => q.order != r.order } : State α).carryOn
        r.chain r.sent r.inSession r.next) :
    carried.queue = [] ∨ carried.free = 0 ∨ p carried.clock := by
  subst hcarried
  have hbegan := hs.running r hr
  rw [hwake] at hbegan
  rw [State.carryOn_clock, State.carryOn_queue]
  obtain hnil | hlasting := hp
  · exact .inl hnil
  obtain hnil | hfree := hfull
  · exact .inl hnil
  cases h : (advance r.chain t s.outside r.sent r.inSession r.next).standing with
  | finished a =>
    obtain ⟨job, hjob, hchain, u, hu, _, hending⟩ := hbegan
    have houtcome := outcome_advance r.chain t s.outside r.sent r.inSession (hs.asks r hr)
    rw [h] at houtcome
    rw [Option.bind_some, houtcome] at hending
    have hlast := hlasting job hjob u
    rw [hchain] at hlast
    exact .inr (.inr (hlast _ hu hending ht))
  | waiting wake answered next =>
    rw [State.carryOn_of_waiting r.chain r.sent r.inSession h]
    exact .inr (.inl hfree)

/-- What the end of a wait leads to. A slot that is free again goes to the queue at a time with the
property in question. -/
theorem resume {r : Running α} {t : Seconds} (hjobs : Separate url jobs)
    (hs : Sound url deadline start jobs p [] s) (hfull : s.queue = [] ∨ s.free = 0)
    (hp : s.queue = [] ∨ Lasting url deadline start jobs p)
    (hr : r ∈ s.running) (hwake : r.wake = some t) (ht : State.isBefore t deadline = true) :
    Sound url deadline start jobs p [] (s.resume r t) := by
  have hbegan := hs.running r hr
  rw [hwake] at hbegan
  have hcarried := (hs.takeUp hr ht).carryOn hjobs (hs.asks r hr) hbegan r.sent r.inSession
  exact hcarried.grant hjobs (hs.ready hfull hp hr hwake ht rfl)

theorem proceed (hjobs : Separate url jobs) (hs : Sound url deadline start jobs p [] s)
    (hfull : s.queue = [] ∨ s.free = 0) (hp : s.queue = [] ∨ Lasting url deadline start jobs p)
    (fuel : Nat) : Sound url deadline start jobs p [] (s.proceed deadline fuel) := by
  induction fuel generalizing s with
  | zero => exact hs
  | succ fuel ih =>
    rw [State.proceed]
    cases hdue : s.due? deadline with
    | none => exact hs
    | some next =>
      obtain ⟨r, t⟩ := next
      obtain ⟨hr, hwake, ht⟩ := State.due?_eq_some hdue
      refine ih (hs.resume hjobs hfull hp hr hwake ht) (State.resume_full r t) ?_
      exact hp.imp_left fun hnil => State.resume_queue_of_nil r t hnil

end Sound

/-! ### Whole runs -/

/-- The state in which the first slots have been given out. -/
def State.opening (slots : Nat) (clock : Seconds) (start : Outside) (jobs : List (Job α)) : State α :=
  State.grant { clock, outside := start, free := slots, queue := jobs } jobs

section Run

variable {slots waits : Nat} {clock : Seconds}

/-- The state in which no slot has been given out. -/
theorem sound_waiting (hclock : State.isBefore clock deadline = true) :
    Sound url deadline start jobs p []
      ({ clock, outside := start, free := slots, queue := jobs } : State α) := by
  refine ⟨?_, fun job hjob => ⟨hjob, rfl⟩, ?_, ?_, ?_, List.nodup_nil, ?_, hclock⟩
  · simp [State.chains]
  all_goals exact fun _ h => absurd h List.not_mem_nil

theorem sound_start (hjobs : Separate url jobs) (hclock : State.isBefore clock deadline = true)
    (hp : p clock) :
    Sound url deadline start jobs p []
      (State.opening slots clock start jobs) :=
  Sound.grant hjobs (sound_waiting hclock) (.inr (.inr hp))

/-- The state in which the deadline strikes. -/
theorem sound_proceed (hjobs : Separate url jobs) (hclock : State.isBefore clock deadline = true)
    (hp : p clock) (hlasting : jobs.length ≤ slots ∨ Lasting url deadline start jobs p)
    (fuel : Nat) :
    Sound url deadline start jobs p []
      ((State.opening slots clock start jobs).proceed
        deadline fuel) := by
  refine (sound_start hjobs hclock hp).proceed hjobs (State.grant_full jobs) ?_ fuel
  exact hlasting.imp_left State.grant_queue_of_length_le

theorem run_of_isBefore (h : State.isBefore clock deadline = true) :
    run slots waits clock deadline start jobs =
      ((State.opening slots clock start jobs).proceed
        deadline (jobs.length * waits + 1)).strike deadline (jobs.length * waits + 1) := by
  rw [run, State.before, State.grant_clock, if_pos h]
  rfl

/-- When there is no time at all, nothing is finished. -/
theorem finished_run_of_not_isBefore (h : State.isBefore clock deadline = false) :
    (run slots waits clock deadline start jobs).finished = [] := by
  have hawake : (State.opening slots clock start jobs).Awake :=
    State.Awake.grant (fun _ h => absurd h List.not_mem_nil) jobs
  rw [run, State.before, State.grant_clock, if_neg (by simp [h]), State.finished_strike,
    State.proceed_of_due?_eq_none]
  cases hdue : State.due? _ deadline with
  | none => rfl
  | some next =>
    obtain ⟨hmem, hwake, hbefore⟩ := State.due?_eq_some hdue
    have hle := hawake _ hmem _ hwake
    rw [State.opening, State.grant_clock] at hle
    rw [State.isBefore_anti hle hbefore] at h
    cases h

/-- Every chain that is finished came to what it comes to alone, in time, from when it got its slot. -/
theorem began_of_mem_finished (hjobs : Separate url jobs) (hp : p clock)
    (hlasting : jobs.length ≤ slots ∨ Lasting url deadline start jobs p) {f : Int × α}
    (hf : f ∈ (run slots waits clock deadline start jobs).finished) :
    ∃ e, Began url start jobs p (run slots waits clock deadline start jobs).log f.1 (some e) ∧
      e.answer = f.2 ∧ State.isBefore e.clock deadline = true := by
  cases hclock : State.isBefore clock deadline with
  | false =>
    rw [finished_run_of_not_isBefore hclock] at hf
    cases hf
  | true =>
    rw [run_of_isBefore hclock] at hf ⊢
    rw [State.finished_strike] at hf
    obtain ⟨e, hbegan, hrest⟩ := (sound_proceed hjobs hclock hp hlasting _).finished f hf
    exact ⟨e, hbegan.mono (State.log_prefix_strike _ _), hrest⟩

theorem nodup_finished (hjobs : Separate url jobs) :
    ((run slots waits clock deadline start jobs).finished.map (·.1)).Nodup := by
  cases hclock : State.isBefore clock deadline with
  | false =>
    rw [finished_run_of_not_isBefore hclock]
    exact List.nodup_nil
  | true =>
    rw [run_of_isBefore hclock, State.finished_strike]
    exact (sound_proceed (p := fun _ => True) hjobs hclock trivial (.inr lasting_true) _).nodup_finished
      hjobs

/-- No more waits are left at the opening than the jobs can have. -/
theorem bounded_opening (hwaits : ∀ job ∈ jobs, job.activity.AtMost waits) :
    (State.opening slots clock start jobs).Bounded ∧
      (State.opening slots clock start jobs).waitsLeft ≤ jobs.length * waits := by
  have hstart : ({ clock, outside := start, free := slots, queue := jobs } : State α).Bounded :=
    ⟨fun _ h => absurd h List.not_mem_nil, fun job hjob => ⟨waits, hwaits job hjob⟩⟩
  obtain ⟨hbounded, hle⟩ := State.Bounded.grant
    (s := { clock, outside := start, free := slots, queue := jobs }) hstart
  refine ⟨hbounded, hle.trans ?_⟩
  have hsum : (jobs.map fun job => job.activity.mostWaits).sum ≤ jobs.length * waits := by
    have hlength : (jobs.map fun job => job.activity.mostWaits).length = jobs.length :=
      List.length_map _
    rw [← hlength, ← smul_eq_mul]
    apply List.sum_le_card_nsmul
    intro n hn
    obtain ⟨job, hjob, rfl⟩ := List.mem_map.mp hn
    exact Activity.mostWaits_le (hwaits job hjob)
  simpa only [State.waitsLeft, List.map_nil, List.sum_nil, Nat.zero_add] using hsum

/-- The fuel of a run is enough for all waits of its jobs. -/
theorem due?_proceed_start (hwaits : ∀ job ∈ jobs, job.activity.AtMost waits) :
    ((State.opening slots clock start jobs).proceed
      deadline (jobs.length * waits + 1)).due? deadline = none := by
  have h : (State.opening slots clock start jobs).Bounded ∧ _ := bounded_opening hwaits
  exact State.due?_proceed h.1 (h.2.trans (Nat.le_succ _))

/-- With a slot for everyone, a chain that comes to its end in time by itself is finished. -/
theorem mem_finished (hjobs : Separate url jobs) (hslots : jobs.length ≤ slots)
    (hwaits : ∀ job ∈ jobs, job.activity.AtMost waits) {job : Job α} (hjob : job ∈ jobs)
    {e : Activity.Ending α}
    (he : job.activity.outcome clock (start.only (url job.chain)) = some e)
    (hbefore : State.isBefore e.clock deadline = true) :
    (job.chain, e.answer) ∈ (run slots waits clock deadline start jobs).finished := by
  have hclock := State.isBefore_anti (Activity.le_clock_of_outcome he) hbefore
  rw [run_of_isBefore hclock, State.finished_strike]
  have hnil : (State.opening slots clock start jobs).queue = [] :=
    State.grant_queue_of_length_le hslots
  exact (sound_proceed (p := (· = clock)) hjobs hclock rfl (.inl hslots) _).mem_finished hjobs
    (State.proceed_queue_of_nil deadline _ hnil) (due?_proceed_start hwaits) hjob he hbefore

/-- With a slot for everyone, what is known of a chain at last is what came of it in time by itself. -/
theorem lookup_finished (hjobs : Separate url jobs) (hslots : jobs.length ≤ slots)
    (hwaits : ∀ job ∈ jobs, job.activity.AtMost waits) {job : Job α} (hjob : job ∈ jobs) :
    (run slots waits clock deadline start jobs).finished.lookup job.chain =
      ((job.activity.outcome clock (start.only (url job.chain))).filter fun e =>
        State.isBefore e.clock deadline).map (·.answer) := by
  cases hlookup : (run slots waits clock deadline start jobs).finished.lookup job.chain with
  | none =>
    rw [List.lookup_eq_none_iff] at hlookup
    symm
    rw [Option.map_eq_none_iff, Option.filter_eq_none_iff]
    intro e he hbefore
    have hmem := mem_finished hjobs hslots hwaits hjob he hbefore
    simpa using hlookup _ hmem
  | some a =>
    obtain ⟨e, ⟨job', hjob', hchain, t, rfl, _, he⟩, hanswer, hbefore⟩ :=
      began_of_mem_finished (p := (· = clock)) hjobs rfl (.inl hslots)
        (mem_of_lookup_eq_some hlookup)
    obtain rfl := hjobs.job_eq hjob' hjob hchain
    rw [he, Option.filter_some, if_pos hbefore, Option.map_some, hanswer]

end Run

end Attest.Schedule
