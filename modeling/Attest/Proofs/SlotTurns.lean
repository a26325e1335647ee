import Attest.Proofs.SlotsAndSessions
import Mathlib.Data.List.Forall2
import Mathlib.Data.List.Induction
import Mathlib.Order.Bounds.Basic

/-! # Turns at the slots

Slots go to those who wait for them in the order of asking, each as soon as one is free. With more slots,
and with work that ends no later when it begins earlier, nobody begins later. -/

namespace Attest.Schedule

/-! ### Taking turns -/

section Turns

variable {ι : Type*} (ends : ι → Seconds → Option Seconds)

/-- Whether an end, if there is one, has come by a time. -/
def isOver (u : Seconds) (e : Option Seconds) : Bool := e.any fun t => decide (t ≤ u)

/-- How many of those that began at some times are still at work at another. -/
def busy (u : Seconds) (begun : List (ι × Seconds)) : Nat :=
  begun.countP fun b => !isOver u (ends b.1 b.2)

/-- Each of those in a row began as soon as fewer of those before were at work than there are slots. -/
def Dealt (slots : Nat) (clock : Seconds) (begun : List (ι × Seconds)) : Prop :=
  ∀ earlier b later, begun = earlier ++ b :: later →
    IsLeast {u | clock ≤ u ∧ busy ends u earlier < slots} b.2

/-- The same work beginning no later, and over whenever the other is, as far as times with a property
are concerned. -/
structure Sooner (q : Seconds → Prop) (b b' : ι × Seconds) : Prop where
  same : b'.1 = b.1
  begins : b'.2 ≤ b.2
  past : ∀ u, q u → isOver u (ends b.1 b.2) = true → isOver u (ends b'.1 b'.2) = true

variable {ends} {slots slots' : Nat} {clock u : Seconds} {q : Seconds → Prop}
  {begun begun' : List (ι × Seconds)} {b : ι × Seconds}

theorem isOver_iff {e : Option Seconds} : isOver u e = true ↔ ∃ t, e = some t ∧ t ≤ u := by
  simp [isOver, Option.any_eq_true]

theorem busy_append : busy ends u (begun ++ begun') = busy ends u begun + busy ends u begun' :=
  List.countP_append

theorem one_unless (past : Bool) : (if !past then 1 else 0) = if past then 0 else 1 := by
  cases past <;> rfl

theorem busy_singleton (b : ι × Seconds) :
    busy ends u [b] = if isOver u (ends b.1 b.2) then 0 else 1 := by
  rw [busy, List.countP_singleton, one_unless]

/-- When all begin no later, no more are at work. -/
theorem busy_le_of_sooner (h : List.Forall₂ (Sooner ends q) begun begun') (hu : q u) :
    busy ends u begun' ≤ busy ends u begun := by
  induction h with
  | nil => exact Nat.le_refl _
  | @cons b b' begun begun' hb h ih =>
    have hone : busy ends u [b'] ≤ busy ends u [b] := by
      rw [busy_singleton, busy_singleton]
      by_cases hover : isOver u (ends b.1 b.2) = true
      · simp [hover, hb.past u hu hover]
      · rw [if_neg hover]
        split <;> omega
    have hfront : busy ends u ([b'] ++ begun') ≤ busy ends u ([b] ++ begun) := by
      rw [busy_append, busy_append]
      omega
    exact hfront

theorem exists_sooner_of_mem (h : List.Forall₂ (Sooner ends q) begun begun') (hb : b ∈ begun) :
    ∃ b' ∈ begun', Sooner ends q b b' := by
  induction h with
  | nil => cases hb
  | cons hsooner h ih =>
    obtain rfl | hb := List.mem_cons.mp hb
    · exact ⟨_, List.mem_cons_self, hsooner⟩
    · obtain ⟨b', hb', hsooner⟩ := ih hb
      exact ⟨b', List.mem_cons_of_mem _ hb', hsooner⟩

theorem map_fst_of_sooner (h : List.Forall₂ (Sooner ends q) begun begun') :
    begun'.map (·.1) = begun.map (·.1) := by
  induction h with
  | nil => rfl
  | cons hsooner h ih => rw [List.map_cons, List.map_cons, hsooner.same, ih]

namespace Dealt

theorem nil : Dealt ends slots clock [] := by
  intro earlier b later h
  cases earlier <;> cases h

/-- The next one begins as soon as there is a slot. -/
theorem snoc (h : Dealt ends slots clock begun)
    (hb : IsLeast {u | clock ≤ u ∧ busy ends u begun < slots} b.2) :
    Dealt ends slots clock (begun ++ [b]) := by
  intro earlier c later heq
  obtain rfl | ⟨later, last, rfl⟩ := List.eq_nil_or_concat later
  · obtain ⟨rfl, hlast⟩ := List.append_inj' heq rfl
    cases hlast
    exact hb
  · rw [List.concat_eq_append, ← List.cons_append, ← List.append_assoc] at heq
    exact h earlier c later (List.append_inj' heq rfl).1

theorem of_append (h : Dealt ends slots clock (begun ++ begun')) : Dealt ends slots clock begun := by
  intro earlier b later heq
  apply h earlier b (later ++ begun')
  rw [heq, List.append_assoc, List.cons_append]

/-- With more slots nobody begins later, if what begins no later is over no later, and if nobody is left
to wait while a slot is free. -/
theorem sooner {row : List ι} (h : Dealt ends slots clock begun)
    (h' : Dealt ends slots' clock begun') (hle : slots ≤ slots') (hrow : begun.map (·.1) <+: row)
    (hrow' : begun'.map (·.1) <+: row) (hq : ∀ b ∈ begun, q b.2)
    (hfull : begun'.length < row.length → ∀ u, clock ≤ u → q u → slots' ≤ busy ends u begun')
    (hkeep : ∀ b ∈ begun, ∀ b' ∈ begun', b'.1 = b.1 → b'.2 ≤ b.2 → Sooner ends q b b') :
    ∃ matched rest, begun' = matched ++ rest ∧ List.Forall₂ (Sooner ends q) begun matched := by
  induction begun using List.reverseRecOn with
  | nil => exact ⟨[], begun', rfl, .nil⟩
  | append_singleton begun b ih =>
    have hmem : b ∈ begun ++ [b] := List.mem_append_right _ (List.mem_singleton_self b)
    have hsub : begun ⊆ begun ++ [b] := List.subset_append_left _ _
    obtain ⟨⟨hclock, hfree⟩, -⟩ := h begun b [] rfl
    rw [List.map_append, List.map_singleton] at hrow
    obtain ⟨matched, rest, hbegun', hmatched⟩ := ih h.of_append
      ((List.prefix_append _ _).trans hrow) (fun c hc => hq c (hsub hc))
      (fun c hc => hkeep c (hsub hc))
    have hbusy : busy ends b.2 matched < slots' := by
      have := busy_le_of_sooner hmatched (hq b hmem)
      omega
    cases rest with
    | nil =>
      -- A slot would have been free for the one that is left to wait.
      rw [List.append_nil] at hbegun'
      subst hbegun'
      have hlength := hrow.length_le
      rw [List.length_append, List.length_map, List.length_singleton, hmatched.length_eq] at hlength
      have := hfull (by omega) b.2 hclock (hq b hmem)
      omega
    | cons b' rest =>
      subst hbegun'
      have hmem' : b' ∈ matched ++ b' :: rest := List.mem_append_right _ List.mem_cons_self
      have hsame : b'.1 = b.1 := by
        rw [List.map_append, List.map_cons, map_fst_of_sooner hmatched] at hrow'
        obtain ⟨more, hmore⟩ := hrow
        rw [← hmore, List.append_assoc, List.prefix_append_right_inj] at hrow'
        exact (List.cons_prefix_cons.mp hrow').1
      have hbegins : b'.2 ≤ b.2 := (h' matched b' rest rfl).2 ⟨hclock, hbusy⟩
      have hsooner := hkeep b hmem b' hmem' hsame hbegins
      refine ⟨matched ++ [b'], rest, ?_, ?_⟩
      · rw [List.append_assoc, List.singleton_append]
      · exact List.rel_append hmatched (.cons hsooner .nil)

end Dealt

end Turns

/-! ### The slots of a schedule -/

/-- The slots given out, as a log tells. -/
def grants (log : List Event) : List Event :=
  log.filter fun e => decide (e.deed.hold? = some .acquired)

theorem mem_grants {log : List Event} {chain : Int} {t : Seconds} :
    ⟨t, chain, .acquired⟩ ∈ grants log ↔ ⟨t, chain, .acquired⟩ ∈ log := by
  simp [grants, Deed.hold?]

theorem grants_append_of_forall {log events : List Event}
    (h : ∀ e ∈ events, e.deed.hold? ≠ some .acquired) : grants (log ++ events) = grants log := by
  have hnil : grants events = [] := by simpa [grants] using h
  rw [grants, List.filter_append]
  exact (congrArg (grants log ++ ·) hnil).trans (List.append_nil _)

/-- When a job comes to its end by itself, if it begins at a time. -/
def endAlone (url : Int → String) (start : Outside) (job : Job α) (begin : Seconds) : Option Seconds :=
  (job.activity.outcome begin (start.only (url job.chain))).map (·.clock)

namespace State

variable {s : State α} {url : Int → String} {deadline : Expiry} {start : Outside} {jobs : List (Job α)}
  {p : Seconds → Prop} {u : Seconds}

/-- When a chain that waits will come to its end by itself. -/
def endOf (url : Int → String) (s : State α) (r : Running α) : Option Seconds :=
  (r.wake.bind fun t => r.next.outcome t (s.outside.only (url r.chain))).map (·.clock)

/-- How many of the chains that wait will still be at work at a time. -/
def atWork (url : Int → String) (s : State α) (u : Seconds) : Nat :=
  s.running.countP fun r => !isOver u (s.endOf url r)

theorem grants_carryOn (chain : Int) (sent : Nat) (inSession : Bool) (x : Activity α) :
    grants (s.carryOn chain sent inSession x).log = grants s.log := by
  have hlog := fun e he => (of_mem_advance_log s.clock s.outside sent chain inSession x e he).2
  cases h : (advance chain s.clock s.outside sent inSession x).standing with
  | finished a =>
    have hreleased : ∀ e ∈ [(⟨s.clock, chain, .released⟩ : Event)],
        e.deed.hold? ≠ some .acquired := List.forall_mem_singleton.mpr nofun
    rw [carryOn_of_finished chain sent inSession h]
    rw [grants_append_of_forall hreleased, grants_append_of_forall hlog]
  | waiting wake answered next =>
    rw [carryOn_of_waiting chain sent inSession h]
    exact grants_append_of_forall hlog

/-- Carrying on a chain in hand gives back its slot or keeps it. -/
theorem slots_carryOn (chain : Int) (sent : Nat) (inSession : Bool) (x : Activity α) :
    (s.carryOn chain sent inSession x).free + (s.carryOn chain sent inSession x).running.length =
      s.free + 1 + s.running.length := by
  cases h : (advance chain s.clock s.outside sent inSession x).standing with
  | finished a => rw [carryOn_of_finished chain sent inSession h]
  | waiting wake answered next =>
    rw [carryOn_of_waiting chain sent inSession h]
    show s.free + (s.running ++ [_]).length = s.free + 1 + s.running.length
    rw [List.length_append, List.length_singleton]
    omega

/-- A chain that is carried on will be at work as long as it would by itself, and so will the others. -/
theorem atWork_carryOn {chain : Int} {x : Activity α} (hjobs : Separate url jobs)
    (hs : Sound url deadline start jobs p [chain] s)
    (hx : x.All (Wait.IsLocal (url chain)) fun _ => True) (sent : Nat) (inSession : Bool)
    (hu : s.clock ≤ u) :
    (s.carryOn chain sent inSession x).atWork url u = s.atWork url u +
      if isOver u ((x.outcome s.clock (s.outside.only (url chain))).map (·.clock)) then 0 else 1 := by
  have hothers : ∀ r ∈ s.running,
      (advance chain s.clock s.outside sent inSession x).outside.only (url r.chain) =
        s.outside.only (url r.chain) := fun r hr => hs.only_advance hjobs hx
    (List.mem_append_left _ (List.mem_append_right _ (List.mem_map_of_mem hr))) sent inSession
  have hcount : (s.running.countP fun r => !isOver u ((r.wake.bind fun t => r.next.outcome t
      ((advance chain s.clock s.outside sent inSession x).outside.only (url r.chain))).map
        (·.clock))) = s.atWork url u := by
    refine List.countP_congr fun r hr => ?_
    rw [hothers r hr]
    rfl
  rw [outcome_advance chain s.clock s.outside sent inSession hx]
  cases h : (advance chain s.clock s.outside sent inSession x).standing with
  | finished a =>
    have hover : isOver u ((Standing.finished a).outcome s.clock
        ((advance chain s.clock s.outside sent inSession x).outside.only (url chain)) |>.map
          (·.clock)) = true := isOver_iff.mpr ⟨s.clock, rfl, hu⟩
    rw [carryOn_of_finished chain sent inSession h, if_pos hover]
    exact hcount
  | waiting wake answered next =>
    rw [carryOn_of_waiting chain sent inSession h, atWork, List.countP_append, List.countP_singleton]
    exact congrArg₂ (· + ·) hcount (one_unless _)

/-- As long as no chain that waits is over, all are at work. -/
theorem atWork_eq_length (h : ∀ r ∈ s.running, ∀ w, r.wake = some w → u < w) :
    s.atWork url u = s.running.length := by
  refine List.countP_eq_length.mpr fun r hr => ?_
  rw [Bool.not_eq_true', Bool.eq_false_iff]
  intro hover
  obtain ⟨t, ht, hle⟩ := isOver_iff.mp hover
  obtain ⟨ending, hending, rfl⟩ := Option.map_eq_some_iff.mp ht
  obtain ⟨w, hwake, hnext⟩ := Option.bind_eq_some_iff.mp hending
  have hlt := (h r hr w hwake).trans_le (Activity.le_clock_of_outcome hnext)
  exact absurd hle hlt.not_ge

/-- How the slots have been given out up to some state: to which jobs and at which times. -/
structure Deals (url : Int → String) (start : Outside) (jobs : List (Job α)) (p : Seconds → Prop)
    (slots : Nat) (clock : Seconds) (begun : List (Job α × Seconds)) (s : State α) : Prop where
  order : begun.map (·.1) ++ s.queue = jobs
  log : grants s.log = begun.map fun b => ⟨b.2, b.1.chain, .acquired⟩
  dealt : Dealt (endAlone url start) slots clock begun
  times : ∀ b ∈ begun, p b.2 ∧ b.2 ≤ s.clock
  since : clock ≤ s.clock
  count : s.free + s.running.length = slots
  /-- From now on, those are at work that will be by themselves. -/
  atWork : ∀ u, s.clock ≤ u → busy (endAlone url start) u begun = s.atWork url u
  /-- As long as anyone has waited for a slot, none was free. -/
  crowded : s.queue ≠ [] → ∀ u, clock ≤ u → u < s.clock → slots ≤ busy (endAlone url start) u begun

namespace Deals

variable {slots : Nat} {clock : Seconds} {begun : List (Job α × Seconds)}

/-- A chain from the queue takes a slot that is free. -/
theorem begin {job : Job α} {queue : List (Job α)} (hjobs : Separate url jobs) (hfree : s.free ≠ 0)
    (hs : Sound url deadline start jobs p [] { s with queue := job :: queue })
    (hd : ({ s with queue := job :: queue } : State α).Deals url start jobs p slots clock begun)
    (hp : p s.clock) :
    (({ s.acquire job.chain with queue } : State α).carryOn job.chain 0 false job.activity).Deals
      url start jobs p slots clock (begun ++ [(job, s.clock)]) := by
  obtain ⟨hjob, honly⟩ := hs.queue job List.mem_cons_self
  have hnow : busy (endAlone url start) s.clock begun < slots := by
    have hbusy : busy (endAlone url start) s.clock begun = s.atWork url s.clock := hd.atWork _ le_rfl
    have hle : s.atWork url s.clock ≤ s.running.length := List.countP_le_length
    have hcount : s.free + s.running.length = slots := hd.count
    omega
  have hcrowded : ∀ u, clock ≤ u → u < s.clock → slots ≤ busy (endAlone url start) u begun :=
    hd.crowded (List.cons_ne_nil _ _)
  have hclock := carryOn_clock (s := { s.acquire job.chain with queue }) job.chain 0 false job.activity
  have hqueue := carryOn_queue (s := { s.acquire job.chain with queue }) job.chain 0 false job.activity
  refine { order := ?_, log := ?_, dealt := ?_, times := ?_, since := hclock ▸ hd.since, count := ?_
           atWork := fun u hu => ?_, crowded := fun _ u hu hlt => ?_ }
  · rw [hqueue, List.map_append, List.append_assoc]
    exact hd.order
  · rw [grants_carryOn, List.map_append]
    show grants (s.log ++ [⟨s.clock, job.chain, .acquired⟩]) = _
    rw [grants, List.filter_append]
    exact congrArg (· ++ _) hd.log
  · refine hd.dealt.snoc ⟨⟨hd.since, hnow⟩, fun u ⟨hu, hbusy⟩ => ?_⟩
    by_contra hlt
    have := hcrowded u hu (not_le.mp hlt)
    omega
  · rw [hclock, List.forall_mem_append, List.forall_mem_singleton]
    exact ⟨hd.times, hp, le_rfl⟩
  · have hcount : s.free + s.running.length = slots := hd.count
    rw [slots_carryOn]
    show s.free - 1 + 1 + s.running.length = slots
    omega
  · have hend : (job.activity.outcome s.clock (s.outside.only (url job.chain))).map (·.clock) =
        endAlone url start job s.clock := by
      rw [endAlone, ← honly]
    rw [hclock] at hu
    rw [atWork_carryOn hjobs hs.acquire (hjobs.asks job hjob) 0 false hu, busy_append, busy_singleton]
    exact congrArg₂ (· + ·) (hd.atWork u hu) (by rw [← hend]; rfl)
  · rw [hclock] at hlt
    rw [busy_append]
    exact (hcrowded u hu hlt).trans (Nat.le_add_right _ _)

theorem grant {queue : List (Job α)} (hjobs : Separate url jobs)
    (hs : Sound url deadline start jobs p [] { s with queue })
    (hd : ({ s with queue } : State α).Deals url start jobs p slots clock begun)
    (hp : queue = [] ∨ s.free = 0 ∨ p s.clock) :
    ∃ begun, (s.grant queue).Deals url start jobs p slots clock begun := by
  obtain rfl | hfree | hp := hp
  · exact ⟨begun, hd⟩
  · rw [grant_of_full hfree]
    exact ⟨begun, hd⟩
  let I (t : State α) : Prop := Sound url deadline start jobs p [] t ∧ p t.clock ∧
    ∃ begun, t.Deals url start jobs p slots clock begun
  have hstep (s : State α) (job : Job α) (queue : List (Job α)) (hfree : s.free ≠ 0)
      (hI : I { s with queue := job :: queue }) :
      I (({ s.acquire job.chain with queue } : State α).carryOn job.chain 0 false job.activity) := by
    obtain ⟨hs, hp, begun, hd⟩ := hI
    obtain ⟨hjob, -⟩ := hs.queue job List.mem_cons_self
    have hbegan := hs.began_acquire hp
    refine ⟨hs.acquire.carryOn hjobs (hjobs.asks job hjob) hbegan 0 false, ?_, _,
      hd.begin hjobs hfree hs hp⟩
    rw [carryOn_clock]
    exact hp
  have hstart : I { s with queue } := ⟨hs, hp, begun, hd⟩
  exact (grant_induction hstep hstart).2.2

/-- As long as no chain that waits is over, no slot is free for those in the queue. -/
theorem slots_le_busy (hd : s.Deals url start jobs p slots clock begun)
    (hfull : s.queue = [] ∨ s.free = 0) (hwait : s.queue ≠ []) (hu : s.clock ≤ u)
    (h : ∀ r ∈ s.running, ∀ w, r.wake = some w → u < w) :
    slots ≤ busy (endAlone url start) u begun := by
  have hfree : s.free = 0 := hfull.resolve_left hwait
  have hcount := hd.count
  rw [hd.atWork u hu, atWork_eq_length h]
  omega

/-- A chain whose wait is over carries on with its slot. -/
theorem takeUp {r : Running α} {t : Seconds} (hjobs : Separate url jobs)
    (hs : Sound url deadline start jobs p [] s) (hd : s.Deals url start jobs p slots clock begun)
    (hawake : s.Awake) (hfull : s.queue = [] ∨ s.free = 0) (hdue : s.due? deadline = some (r, t)) :
    ((s.takeUp r t).carryOn r.chain r.sent r.inSession r.next).Deals url start jobs p slots clock
      begun := by
  obtain ⟨hr, hwake, ht⟩ := due?_eq_some hdue
  have hperm := perm_cons_filter_order hs.orders hr
  have hclock := carryOn_clock (s := s.takeUp r t) r.chain r.sent r.inSession r.next
  have hqueue := carryOn_queue (s := s.takeUp r t) r.chain r.sent r.inSession r.next
  refine { hd with
    order := ?_, log := ?_, times := ?_, since := ?_, count := ?_, atWork := ?_, crowded := ?_ }
  · rw [hqueue]
    exact hd.order
  · rw [grants_carryOn]
    exact hd.log
  · rw [hclock]
    exact fun b hb => ⟨(hd.times b hb).1, (hd.times b hb).2.trans (hawake r hr t hwake)⟩
  · rw [hclock]
    exact hd.since.trans (hawake r hr t hwake)
  · have hlength := hperm.length_eq
    rw [List.length_cons] at hlength
    have hcount := hd.count
    rw [slots_carryOn]
    show s.free + 1 + (s.running.filter fun q => q.order != r.order).length = slots
    omega
  · intro u hu
    rw [hclock] at hu
    have hcarried : ((s.takeUp r t).carryOn r.chain r.sent r.inSession r.next).atWork url u = _ :=
      atWork_carryOn hjobs (hs.takeUp hr ht) (hs.asks r hr) r.sent r.inSession hu
    rw [hd.atWork u ((hawake r hr t hwake).trans hu), hcarried, State.atWork, hperm.countP_eq,
      List.countP_cons, one_unless, endOf, hwake]
    rfl
  · intro hwait u hu hlt
    rw [hclock] at hlt
    rw [hqueue] at hwait
    by_cases hpast : u < s.clock
    · exact hd.crowded hwait u hu hpast
    · apply hd.slots_le_busy hfull hwait (not_lt.mp hpast)
      intro q hq w hw
      exact hlt.trans_le (le_of_due? hdue hq hw)

theorem proceed (hjobs : Separate url jobs) (hlasting : Lasting url deadline start jobs p)
    (hs : Sound url deadline start jobs p [] s) (hd : s.Deals url start jobs p slots clock begun)
    (hawake : s.Timed clock []) (hfull : s.queue = [] ∨ s.free = 0) (fuel : Nat) :
    ∃ begun, (s.proceed deadline fuel).Deals url start jobs p slots clock begun ∧
      ((s.proceed deadline fuel).queue = [] ∨ (s.proceed deadline fuel).free = 0) := by
  let I (t : State α) : Prop := Sound url deadline start jobs p [] t ∧ t.Timed clock [] ∧
    (t.queue = [] ∨ t.free = 0) ∧ ∃ begun, t.Deals url start jobs p slots clock begun
  have hstep (s : State α) (r : Running α) (t : Seconds) (hdue : s.due? deadline = some (r, t))
      (hI : I s) : I (s.resume r t) := by
    obtain ⟨hs, htimed, hfull, begun, hd⟩ := hI
    obtain ⟨hr, hwake, ht⟩ := due?_eq_some hdue
    have hbegan := hs.running r hr
    rw [hwake] at hbegan
    have hcarried := (hs.takeUp hr ht).carryOn hjobs (hs.asks r hr) hbegan r.sent r.inSession
    have hready := hs.ready hfull (.inr hlasting) hr hwake ht rfl
    exact ⟨hs.resume hjobs hfull (.inr hlasting) hr hwake ht, htimed.resume hdue, resume_full r t,
      (hd.takeUp hjobs hs htimed.awake hfull hdue).grant hjobs hcarried hready⟩
  obtain ⟨-, -, hfull, begun, hd⟩ := proceed_induction hstep ⟨hs, hawake, hfull, begun, hd⟩ fuel
  exact ⟨begun, hd, hfull⟩

/-! ### When no wait ends before the deadline any more -/

/-- Who is left to wait for a slot has found none free before the deadline. -/
theorem crowded_before (hd : s.Deals url start jobs p slots clock begun)
    (hfull : s.queue = [] ∨ s.free = 0) (hdue : s.due? deadline = none) (hwait : s.queue ≠ [])
    (hu : clock ≤ u) (hbefore : isBefore u deadline = true) :
    slots ≤ busy (endAlone url start) u begun := by
  by_cases hpast : u < s.clock
  · exact hd.crowded hwait u hu hpast
  · apply hd.slots_le_busy hfull hwait (not_lt.mp hpast)
    intro r hr w hw
    by_contra hle
    have hnot := due?_eq_none hdue hr hw
    rw [isBefore_anti (not_lt.mp hle) hbefore] at hnot
    cases hnot

theorem mem_jobs (hd : s.Deals url start jobs p slots clock begun) {b : Job α × Seconds}
    (hb : b ∈ begun) : b.1 ∈ jobs := by
  rw [← hd.order]
  exact List.mem_append_left _ (List.mem_map_of_mem hb)

theorem mem_log (hd : s.Deals url start jobs p slots clock begun) {b : Job α × Seconds}
    (hb : b ∈ begun) : ⟨b.2, b.1.chain, .acquired⟩ ∈ s.log := by
  rw [← mem_grants, hd.log]
  exact List.mem_map_of_mem hb

/-- A job takes one slot. -/
theorem mem_begun (hjobs : Separate url jobs) (hd : s.Deals url start jobs p slots clock begun)
    {job : Job α} (hjob : job ∈ jobs) {t : Seconds} (ht : ⟨t, job.chain, .acquired⟩ ∈ s.log) :
    (job, t) ∈ begun := by
  rw [← mem_grants, hd.log] at ht
  obtain ⟨⟨job', t'⟩, hb, heq⟩ := List.mem_map.mp ht
  obtain ⟨rfl, hchain, -⟩ := Event.mk.inj heq
  obtain rfl := hjobs.job_eq (hd.mem_jobs hb) hjob hchain
  exact hb

theorem nodup_begun (hjobs : Separate url jobs) (hd : s.Deals url start jobs p slots clock begun) :
    (begun.map (·.1)).Nodup := by
  have hnodup : jobs.Nodup := .of_map _ hjobs.chains
  rw [← hd.order] at hnodup
  exact (List.nodup_append.mp hnodup).1

/-- Who has begun and is over before the deadline has finished. -/
theorem mem_finished (hjobs : Separate url jobs) (hs : Sound url deadline start jobs p [] s)
    (hd : s.Deals url start jobs p slots clock begun) (hdue : s.due? deadline = none)
    {job : Job α} {t : Seconds} (hb : (job, t) ∈ begun) {e : Activity.Ending α}
    (he : job.activity.outcome t (start.only (url job.chain)) = some e)
    (hbefore : isBefore e.clock deadline = true) : (job.chain, e.answer) ∈ s.finished := by
  have hjob := hd.mem_jobs hb
  have hbegan {ending : Option (Activity.Ending α)}
      (h : Began url start jobs p s.log job.chain ending) : ending = some e := by
    obtain ⟨job', hjob', hchain, t', -, hlog, houtcome⟩ := h
    obtain rfl := hjobs.job_eq hjob' hjob hchain
    have hsame := List.inj_on_of_nodup_map (hd.nodup_begun hjobs) (hd.mem_begun hjobs hjob hlog) hb rfl
    cases hsame
    rw [← houtcome, he]
  have hmem : job.chain ∈ s.chains := hs.chains.mem_iff.mpr (List.mem_map_of_mem hjob)
  rw [State.chains, List.append_assoc, List.mem_append, List.mem_append] at hmem
  obtain hmem | hmem | hmem := hmem
  · have hnodup : jobs.Nodup := .of_map _ hjobs.chains
    obtain ⟨job', hwait, hchain⟩ := List.mem_map.mp hmem
    obtain rfl := hjobs.job_eq (hs.queue job' hwait).1 hjob hchain
    rw [← hd.order, List.nodup_append] at hnodup
    exact absurd rfl (hnodup.2.2 _ (List.mem_map_of_mem hb) _ hwait)
  · obtain ⟨r, hr, hchain⟩ := List.mem_map.mp hmem
    have hending := hbegan (hchain ▸ hs.running r hr)
    obtain ⟨w, hwake, hnext⟩ := Option.bind_eq_some_iff.mp hending
    have hnot := due?_eq_none hdue hr hwake
    rw [isBefore_anti (Activity.le_clock_of_outcome hnext) hbefore] at hnot
    cases hnot
  · obtain ⟨f, hf, hchain⟩ := List.mem_map.mp hmem
    obtain ⟨e', hend, hanswer, -⟩ := hs.finished f hf
    obtain rfl : e' = e := Option.some.inj (hbegan (hchain ▸ hend))
    rw [← hchain, hanswer]
    exact hf

end Deals

end State

end Attest.Schedule
