import Attest.Proofs.ActivityOutcome
import Attest.Proofs.Rounding

/-! The steps of a schedule one by one: what a chain does up to its next wait, which wait ends next, that
the log only grows, and that the waits come to an end. -/

namespace Attest.Schedule

/-! ### Up to the next wait -/

/-- What comes of an activity that got somewhere by itself. -/
def Standing.outcome (clock : Seconds) (outside : Outside) :
    Standing α → Option (Activity.Ending α)
  | finished a => some ⟨a, clock, outside⟩
  | waiting wake _ next => wake.bind fun t => next.outcome t outside

/-- What holds of all waits and answers still to come. -/
def Standing.All (q : Wait → Prop) (p : α → Prop) : Standing α → Prop
  | finished a => p a
  | waiting _ _ next => next.All q p

section Advance

variable {url : String} {q : Wait → Prop} {p : α → Prop} {x : Activity α}
  (chain : Int) (clock : Seconds) (outside : Outside) (sent : Nat) (inSession : Bool)

theorem outcome_advance (hx : x.All (Wait.IsLocal url) p) :
    x.outcome clock (outside.only url) =
      (advance chain clock outside sent inSession x).standing.outcome clock
        ((advance chain clock outside sent inSession x).outside.only url) := by
  induction x generalizing inSession with
  | done a => rfl
  | mark m rest ih => exact ih _ hx
  | time next ih => exact ih clock inSession (hx clock)
  | wait w expiry next ih =>
    rw [Activity.outcome, Outside.serve_only outside hx.1, advance]
    obtain ⟨⟨delay, answer⟩, rest⟩ := outside.serve w
    dsimp only
    cases expiry.endOf clock delay <;> rfl

theorem only_advance_of_ne {other : String} (hx : x.All (Wait.IsLocal url) p) (hne : other ≠ url) :
    (advance chain clock outside sent inSession x).outside.only other = outside.only other := by
  induction x generalizing inSession with
  | done a => rfl
  | mark m rest ih => exact ih _ hx
  | time next ih => exact ih clock inSession (hx clock)
  | wait w expiry next ih => exact Outside.only_serve_of_ne outside hx.1 hne

theorem all_advance (hx : x.All q p) :
    (advance chain clock outside sent inSession x).standing.All q p := by
  induction x generalizing inSession with
  | done a => exact hx
  | mark m rest ih => exact ih _ hx
  | time next ih => exact ih clock inSession (hx clock)
  | wait w expiry next ih =>
    rw [advance]
    dsimp only
    split
    · exact hx.2 none
    · exact hx.2 _
    · exact hx.2 none

theorem atMost_advance {n : Nat} {wake : Option Seconds} {answered : Bool} {next : Activity α}
    (hx : x.AtMost n)
    (h : (advance chain clock outside sent inSession x).standing = .waiting wake answered next) :
    ∃ m, n = m + 1 ∧ next.AtMost m := by
  induction x generalizing inSession with
  | done a => cases h
  | mark m rest ih => exact ih _ hx h
  | time next ih => exact ih clock inSession (hx clock) h
  | wait w expiry rest ih =>
    cases n with
    | zero => exact hx.elim
    | succ n =>
      refine ⟨n, rfl, ?_⟩
      rw [advance] at h
      dsimp only at h
      split at h
      · cases h
        exact hx none
      · cases h
        exact hx _
      · cases h
        exact hx none

/-- No wait ends before it begins. -/
theorem le_of_advance_waiting {t : Seconds} {answered : Bool} {next : Activity α}
    (h : (advance chain clock outside sent inSession x).standing = .waiting (some t) answered next) :
    clock ≤ t := by
  induction x generalizing inSession with
  | done a => cases h
  | mark m rest ih => exact ih _ h
  | time next ih => exact ih clock inSession h
  | wait w expiry rest ih =>
    rw [advance] at h
    dsimp only at h
    cases hend : expiry.endOf clock (outside.serve w).1.1 with
    | never =>
      rw [hend] at h
      cases h
    | answered u =>
      rw [hend] at h
      cases h
      exact Expiry.le_of_endOf (by rw [hend]; rfl)
    | expired u =>
      rw [hend] at h
      cases h
      exact Expiry.le_of_endOf (by rw [hend]; rfl)

end Advance

/-! ### Lists -/

theorem mem_of_lookup_eq_some {l : List (Int × α)} {chain : Int} {a : α}
    (h : l.lookup chain = some a) : (chain, a) ∈ l := by
  obtain ⟨before, after, rfl, _⟩ := List.lookup_eq_some_iff.mp h
  exact List.mem_append_right before List.mem_cons_self

theorem lookup_eq_some_of_mem {l : List (Int × α)} (h : (l.map (·.1)).Nodup) {f : Int × α}
    (hf : f ∈ l) : l.lookup f.1 = some f.2 := by
  obtain ⟨before, after, rfl⟩ := List.append_of_mem hf
  refine List.lookup_eq_some_iff.mpr ⟨before, after, rfl, fun g hg => ?_⟩
  rw [List.map_append, List.map_cons, List.nodup_append] at h
  have hne := h.2.2 _ (List.mem_map_of_mem hg) _ List.mem_cons_self
  simpa using Ne.symm hne

theorem sum_map_filter_add_le {β : Type} (f : β → Nat) (keep : β → Bool) {l : List β} {b : β}
    (hb : b ∈ l) (hdrop : keep b = false) : ((l.filter keep).map f).sum + f b ≤ (l.map f).sum := by
  induction l with
  | nil => cases hb
  | cons c l ih =>
    have hle : ((l.filter keep).map f).sum ≤ (l.map f).sum :=
      (List.filter_sublist.map f).sum_le_sum fun _ _ => Nat.zero_le _
    obtain rfl | hb := List.mem_cons.mp hb
    · rw [List.filter_cons_of_neg (by simp [hdrop]), List.map_cons, List.sum_cons]
      omega
    · have := ih hb
      cases hc : keep c with
      | true =>
        rw [List.filter_cons_of_pos hc, List.map_cons, List.map_cons, List.sum_cons, List.sum_cons]
        omega
      | false =>
        rw [List.filter_cons_of_neg (by simp [hc]), List.map_cons, List.sum_cons]
        omega

namespace State

variable {s : State α}

/-! ### Carrying on -/

section CarryOn

variable (chain : Int) (sent : Nat) (inSession : Bool) {x : Activity α}

theorem carryOn_of_finished {a : α}
    (h : (advance chain s.clock s.outside sent inSession x).standing = .finished a) :
    s.carryOn chain sent inSession x =
      { s with
        outside := (advance chain s.clock s.outside sent inSession x).outside
        free := s.free + 1
        finished := s.finished ++ [(chain, a)]
        log := s.log ++ (advance chain s.clock s.outside sent inSession x).log ++
          [⟨s.clock, chain, .released⟩] } := by
  rw [carryOn]
  simp only [h, record]

theorem carryOn_of_waiting {wake : Option Seconds} {answered : Bool} {next : Activity α}
    (h : (advance chain s.clock s.outside sent inSession x).standing =
      .waiting wake answered next) :
    s.carryOn chain sent inSession x =
      { s with
        outside := (advance chain s.clock s.outside sent inSession x).outside
        running := s.running ++ [⟨chain, s.waits, wake, answered, next,
          (advance chain s.clock s.outside sent inSession x).sent,
          (advance chain s.clock s.outside sent inSession x).inSession⟩]
        waits := s.waits + 1
        log := s.log ++ (advance chain s.clock s.outside sent inSession x).log } := by
  rw [carryOn]
  simp only [h, record]

/-- Who waits for a slot makes no difference to who has one. -/
theorem carryOn_with_queue (queue : List (Job α)) (x : Activity α) :
    ({ s with queue } : State α).carryOn chain sent inSession x =
      { s.carryOn chain sent inSession x with queue } := by
  cases h : (advance chain s.clock s.outside sent inSession x).standing with
  | finished a =>
    rw [carryOn_of_finished chain sent inSession h]
    exact carryOn_of_finished chain sent inSession h
  | waiting wake answered next =>
    rw [carryOn_of_waiting chain sent inSession h]
    exact carryOn_of_waiting chain sent inSession h

theorem carryOn_clock (x : Activity α) : (s.carryOn chain sent inSession x).clock = s.clock := by
  cases h : (advance chain s.clock s.outside sent inSession x).standing with
  | finished a => rw [carryOn_of_finished chain sent inSession h]
  | waiting wake answered next => rw [carryOn_of_waiting chain sent inSession h]

theorem carryOn_queue (x : Activity α) : (s.carryOn chain sent inSession x).queue = s.queue := by
  cases h : (advance chain s.clock s.outside sent inSession x).standing with
  | finished a => rw [carryOn_of_finished chain sent inSession h]
  | waiting wake answered next => rw [carryOn_of_waiting chain sent inSession h]

theorem log_prefix_carryOn (x : Activity α) :
    s.log <+: (s.carryOn chain sent inSession x).log := by
  cases h : (advance chain s.clock s.outside sent inSession x).standing with
  | finished a =>
    rw [carryOn_of_finished chain sent inSession h]
    exact (List.prefix_append _ _).trans (List.prefix_append _ _)
  | waiting wake answered next =>
    rw [carryOn_of_waiting chain sent inSession h]
    exact List.prefix_append _ _

end CarryOn

/-! ### Giving out slots -/

/-- A chain takes a slot. -/
def acquire (s : State α) (chain : Int) : State α :=
  ({ s with free := s.free - 1 }).record [⟨s.clock, chain, .acquired⟩]

theorem grant_of_full {queue : List (Job α)} (h : s.free = 0) :
    s.grant queue = { s with queue } := by
  cases queue with
  | nil => rfl
  | cons job queue => rw [grant, if_pos h]

theorem grant_of_free {job : Job α} {queue : List (Job α)} (h : s.free ≠ 0) :
    s.grant (job :: queue) =
      ((s.acquire job.chain).carryOn job.chain 0 false job.activity).grant queue := by
  rw [grant, if_neg h]
  rfl

theorem le_carryOn_free (chain : Int) (sent : Nat) (inSession : Bool) (x : Activity α) :
    s.free ≤ (s.carryOn chain sent inSession x).free := by
  cases h : (advance chain s.clock s.outside sent inSession x).standing with
  | finished a =>
    rw [carryOn_of_finished chain sent inSession h]
    exact Nat.le_succ s.free
  | waiting wake answered next => rw [carryOn_of_waiting chain sent inSession h]

/-- With a slot for everyone, nobody is left to wait for one. -/
theorem grant_queue_of_length_le {queue : List (Job α)} (h : queue.length ≤ s.free) :
    (s.grant queue).queue = [] := by
  induction queue generalizing s with
  | nil => rfl
  | cons job queue ih =>
    rw [List.length_cons] at h
    rw [grant_of_free (by omega)]
    apply ih
    have hle := (s.acquire job.chain).le_carryOn_free job.chain 0 false job.activity
    have hfree : (s.acquire job.chain).free = s.free - 1 := rfl
    omega

theorem grant_clock (queue : List (Job α)) : (s.grant queue).clock = s.clock := by
  induction queue generalizing s with
  | nil => rfl
  | cons job queue ih =>
    by_cases hfree : s.free = 0
    · rw [grant_of_full hfree]
    · rw [grant_of_free hfree, ih, carryOn_clock]
      rfl

/-- Slots stay free only when nobody waits for one. -/
theorem grant_full (queue : List (Job α)) :
    (s.grant queue).queue = [] ∨ (s.grant queue).free = 0 := by
  induction queue generalizing s with
  | nil => exact .inl rfl
  | cons job queue ih =>
    by_cases hfree : s.free = 0
    · rw [grant_of_full hfree]
      exact .inr hfree
    · rw [grant_of_free hfree]
      exact ih

theorem resume_full (r : Running α) (time : Seconds) :
    (s.resume r time).queue = [] ∨ (s.resume r time).free = 0 :=
  grant_full _

theorem resume_queue_of_nil (r : Running α) (time : Seconds) (h : s.queue = []) :
    (s.resume r time).queue = [] := by
  rw [resume, carryOn_queue, h]
  rfl

theorem proceed_queue_of_nil (deadline : Expiry) (fuel : Nat) (h : s.queue = []) :
    (s.proceed deadline fuel).queue = [] := by
  induction fuel generalizing s with
  | zero => exact h
  | succ fuel ih =>
    rw [proceed]
    split
    · exact h
    · exact ih (resume_queue_of_nil _ _ h)

/-- No wait under way should have ended already. -/
def Awake (s : State α) : Prop := ∀ r ∈ s.running, ∀ t, r.wake = some t → s.clock ≤ t

theorem Awake.carryOn (hs : s.Awake) (chain : Int) (sent : Nat) (inSession : Bool)
    (x : Activity α) : (s.carryOn chain sent inSession x).Awake := by
  cases h : (advance chain s.clock s.outside sent inSession x).standing with
  | finished a =>
    rw [carryOn_of_finished chain sent inSession h]
    exact hs
  | waiting wake answered next =>
    rw [carryOn_of_waiting chain sent inSession h]
    intro r hr t ht
    obtain hr | hr := List.mem_append.mp hr
    · exact hs r hr t ht
    · rw [List.mem_singleton.mp hr] at ht
      change wake = some t at ht
      rw [ht] at h
      exact le_of_advance_waiting chain s.clock s.outside sent inSession h

theorem Awake.grant (hs : s.Awake) (queue : List (Job α)) : (s.grant queue).Awake := by
  induction queue generalizing s with
  | nil => exact hs
  | cons job queue ih =>
    by_cases hfree : s.free = 0
    · rw [grant_of_full hfree]
      exact hs
    · rw [grant_of_free hfree]
      apply ih
      exact Awake.carryOn (s := s.acquire job.chain) hs job.chain 0 false job.activity

/-! ### The log -/

theorem log_prefix_record (events : List Event) : s.log <+: (s.record events).log :=
  List.prefix_append s.log events

theorem log_prefix_grant (queue : List (Job α)) : s.log <+: (s.grant queue).log := by
  induction queue generalizing s with
  | nil => exact List.prefix_rfl
  | cons job queue ih =>
    by_cases hfree : s.free = 0
    · rw [grant_of_full hfree]
    · rw [grant_of_free hfree]
      exact (log_prefix_record (s := { s with free := s.free - 1 }) _).trans
        ((log_prefix_carryOn job.chain 0 false job.activity).trans ih)

theorem log_prefix_resume (r : Running α) (time : Seconds) : s.log <+: (s.resume r time).log :=
  (log_prefix_carryOn (s := { s with
    clock := time, running := s.running.filter fun q => q.order != r.order })
      r.chain r.sent r.inSession r.next).trans (log_prefix_grant _)

theorem log_prefix_proceed (deadline : Expiry) (fuel : Nat) :
    s.log <+: (s.proceed deadline fuel).log := by
  induction fuel generalizing s with
  | zero => exact List.prefix_rfl
  | succ fuel ih =>
    rw [proceed]
    split
    · exact List.prefix_rfl
    · exact (log_prefix_resume _ _).trans ih

theorem log_prefix_dismiss (time : Seconds) (r : Running α) : s.log <+: (s.dismiss time r).log :=
  log_prefix_record (s := { s with free := s.free + 1 }) _

theorem log_prefix_strikeOne (time : Seconds) (turns : Nat) (r : Running α) :
    s.log <+: (strikeOne time turns s r).log := by
  induction turns generalizing s r with
  | zero => exact log_prefix_dismiss time r
  | succ turns ih =>
    rw [strikeOne]
    split
    · dsimp only
      split
      · exact log_prefix_carryOn _ _ _ _
      · split
        · exact (log_prefix_record (s := { s with outside := _ }) _).trans (log_prefix_dismiss time r)
        · refine List.IsPrefix.trans ?_ (ih _)
          exact log_prefix_record (s := { s with outside := _ }) _
    · exact log_prefix_dismiss time r

theorem log_prefix_strikeAll (time : Seconds) : s.log <+: (s.strikeAll time).log := by
  have h (running : List (Running α)) (t : State α) :
      t.log <+: (running.foldl (strikeOne time lastTurns) t).log := by
    induction running generalizing t with
    | nil => exact List.prefix_rfl
    | cons r running ih => exact (log_prefix_strikeOne time lastTurns r).trans (ih _)
  exact h s.running { s with clock := time, running := [], queue := [] }

theorem log_prefix_strike (deadline : Expiry) (fuel : Nat) :
    s.log <+: (s.strike deadline fuel).log := by
  rw [strike]
  split
  · exact List.prefix_rfl
  · exact (log_prefix_strikeAll _).trans (log_prefix_proceed .never fuel)

/-- Nothing that is finished after the deadline counts. -/
theorem finished_strike (deadline : Expiry) (fuel : Nat) :
    (s.strike deadline fuel).finished = s.finished := by
  rw [strike]
  split <;> rfl

/-! ### The wait that ends next -/

theorem soonest_mem (r : Running α) (rs : List (Running α)) : soonest r rs ∈ r :: rs := by
  induction rs generalizing r with
  | nil => exact List.mem_singleton_self r
  | cons q qs ih =>
    rw [soonest]
    split
    · exact List.mem_cons_of_mem r (ih q)
    · obtain h | h := List.mem_cons.mp (ih r)
      · rw [h]
        exact List.mem_cons_self
      · exact List.mem_cons_of_mem r (List.mem_cons_of_mem q h)

/-- One wait ends no later than another. -/
def EndsBy (a b : Running α) : Prop := ∀ t, b.wake = some t → ∃ u, a.wake = some u ∧ u ≤ t

theorem EndsBy.refl (a : Running α) : EndsBy a a := fun t h => ⟨t, h, le_rfl⟩

theorem EndsBy.trans {a b c : Running α} (hab : EndsBy a b) (hbc : EndsBy b c) : EndsBy a c := by
  intro t ht
  obtain ⟨u, hu, hut⟩ := hbc t ht
  obtain ⟨v, hv, hvu⟩ := hab u hu
  exact ⟨v, hv, hvu.trans hut⟩

theorem endsBy_of_isSooner {a b : Running α} (h : isSooner a b = true) : EndsBy a b := by
  intro t ht
  unfold isSooner at h
  rw [ht] at h
  cases ha : a.wake with
  | none =>
    rw [ha] at h
    cases h
  | some u =>
    rw [ha] at h
    refine ⟨u, rfl, ?_⟩
    simp only [Bool.or_eq_true, decide_eq_true_eq, Bool.and_eq_true, beq_iff_eq] at h
    obtain hlt | ⟨heq, _⟩ := h
    · exact hlt.le
    · exact heq.le

theorem endsBy_of_not_isSooner {a b : Running α} (h : ¬isSooner a b = true) : EndsBy b a := by
  intro t ht
  unfold isSooner at h
  rw [ht] at h
  cases hb : b.wake with
  | none =>
    rw [hb] at h
    exact absurd rfl h
  | some u =>
    rw [hb] at h
    refine ⟨u, rfl, ?_⟩
    simp only [Bool.or_eq_true, decide_eq_true_eq, not_or] at h
    exact le_of_not_gt h.1

theorem soonest_endsBy (r : Running α) (rs : List (Running α)) :
    ∀ q ∈ r :: rs, EndsBy (soonest r rs) q := by
  induction rs generalizing r with
  | nil =>
    intro q hq
    rw [List.mem_singleton.mp hq]
    exact .refl r
  | cons p rs ih =>
    intro q hq
    rw [soonest]
    split
    · rename_i h
      obtain rfl | hq := List.mem_cons.mp hq
      · exact (ih p p List.mem_cons_self).trans (endsBy_of_isSooner h)
      · exact ih p q hq
    · rename_i h
      obtain rfl | hq := List.mem_cons.mp hq
      · exact ih q q List.mem_cons_self
      obtain rfl | hq := List.mem_cons.mp hq
      · exact (ih r r List.mem_cons_self).trans (endsBy_of_not_isSooner h)
      · exact ih r q (List.mem_cons_of_mem r hq)

/-- What is clearly before a deadline stays so at an earlier time. -/
theorem isBefore_anti {t u : Seconds} {deadline : Expiry} (h : t ≤ u)
    (hu : isBefore u deadline = true) : isBefore t deadline = true := by
  cases deadline with
  | «at» d =>
    rw [isBefore, decide_eq_true_eq] at hu ⊢
    refine (Seconds.nearest_mono ?_).trans hu
    exact add_le_add_left h _
  | atOnce => exact hu
  | never => rfl

theorem due?_eq_some {deadline : Expiry} {r : Running α} {t : Seconds}
    (h : s.due? deadline = some (r, t)) :
    r ∈ s.running ∧ r.wake = some t ∧ isBefore t deadline = true := by
  unfold due? at h
  split at h
  · cases h
  · rename_i first rest hrunning
    dsimp only at h
    split at h
    · cases h
    · rename_i u hwake
      split at h
      · rename_i hbefore
        cases h
        exact ⟨hrunning ▸ soonest_mem first rest, hwake, hbefore⟩
      · cases h

/-- When no wait ends before the deadline, none of them does. -/
theorem due?_eq_none {deadline : Expiry} (h : s.due? deadline = none) {r : Running α}
    (hr : r ∈ s.running) {t : Seconds} (ht : r.wake = some t) :
    isBefore t deadline = false := by
  by_contra hbefore
  rw [Bool.not_eq_false] at hbefore
  unfold due? at h
  split at h
  · rename_i hrunning
    rw [hrunning] at hr
    cases hr
  · rename_i first rest hrunning
    rw [hrunning] at hr
    obtain ⟨u, hu, hut⟩ := soonest_endsBy first rest r hr t ht
    simp only [hu, isBefore_anti hut hbefore] at h
    cases h

theorem proceed_of_due?_eq_none {deadline : Expiry} (h : s.due? deadline = none) (fuel : Nat) :
    s.proceed deadline fuel = s := by
  cases fuel with
  | zero => rfl
  | succ fuel => rw [proceed, h]

/-! ### How many waits are left -/

/-- No activity that is left can wait without bound. -/
structure Bounded (s : State α) : Prop where
  running : ∀ r ∈ s.running, ∃ n, r.next.AtMost n
  queue : ∀ job ∈ s.queue, ∃ n, job.activity.AtMost n

/-- The waits that are under way and those that may follow. -/
noncomputable def waitsLeft (s : State α) : Nat :=
  (s.running.map fun r => r.next.mostWaits + 1).sum +
    (s.queue.map fun job => job.activity.mostWaits).sum

theorem Bounded.carryOn {x : Activity α} {n : Nat} (hs : s.Bounded) (hx : x.AtMost n)
    (chain : Int) (sent : Nat) (inSession : Bool) :
    (s.carryOn chain sent inSession x).Bounded ∧
      (s.carryOn chain sent inSession x).waitsLeft ≤ s.waitsLeft + n := by
  cases h : (advance chain s.clock s.outside sent inSession x).standing with
  | finished a =>
    rw [carryOn_of_finished chain sent inSession h]
    exact ⟨⟨hs.running, hs.queue⟩, Nat.le_add_right _ _⟩
  | waiting wake answered next =>
    obtain ⟨m, rfl, hnext⟩ := atMost_advance chain s.clock s.outside sent inSession hx h
    rw [carryOn_of_waiting chain sent inSession h]
    refine ⟨⟨?_, hs.queue⟩, ?_⟩
    · intro r hr
      obtain hr | hr := List.mem_append.mp hr
      · exact hs.running r hr
      · rw [List.mem_singleton.mp hr]
        exact ⟨m, hnext⟩
    · have hle := Activity.mostWaits_le hnext
      simp only [waitsLeft, List.map_append, List.sum_append, List.map_cons, List.map_nil,
        List.sum_singleton]
      omega

theorem Bounded.grant {queue : List (Job α)} (hs : ({ s with queue } : State α).Bounded) :
    (s.grant queue).Bounded ∧
      (s.grant queue).waitsLeft ≤ ({ s with queue } : State α).waitsLeft := by
  induction queue generalizing s with
  | nil => exact ⟨hs, le_rfl⟩
  | cons job queue ih =>
    by_cases hfree : s.free = 0
    · rw [grant_of_full hfree]
      exact ⟨hs, le_rfl⟩
    · obtain ⟨n, hn⟩ := hs.queue job List.mem_cons_self
      have hacquired : ({ s.acquire job.chain with queue } : State α).Bounded :=
        ⟨hs.running, fun j hj => hs.queue j (List.mem_cons_of_mem job hj)⟩
      obtain ⟨hbounded, hle⟩ := hacquired.carryOn hn.mostWaits job.chain 0 false
      rw [carryOn_with_queue] at hbounded hle
      obtain ⟨hgranted, hgle⟩ := ih hbounded
      rw [grant_of_free hfree]
      refine ⟨hgranted, hgle.trans (hle.trans ?_)⟩
      simp only [waitsLeft, acquire, record, List.map_cons, List.sum_cons]
      omega

theorem Bounded.resume {r : Running α} (hs : s.Bounded) (hr : r ∈ s.running) (time : Seconds) :
    (s.resume r time).Bounded ∧ (s.resume r time).waitsLeft < s.waitsLeft := by
  obtain ⟨n, hn⟩ := hs.running r hr
  have hrest : ({ s with
      clock := time, running := s.running.filter fun q => q.order != r.order } : State α).Bounded :=
    ⟨fun q hq => hs.running q (List.mem_of_mem_filter hq), hs.queue⟩
  obtain ⟨hbounded, hle⟩ := hrest.carryOn hn.mostWaits r.chain r.sent r.inSession
  obtain ⟨hgranted, hgle⟩ := hbounded.grant
  refine ⟨hgranted, hgle.trans_lt (hle.trans_lt ?_)⟩
  have hsum := sum_map_filter_add_le (fun q => q.next.mostWaits + 1)
    (fun q : Running α => q.order != r.order) hr (by simp)
  simp only [waitsLeft]
  omega

/-- Enough fuel ends all waits that end before the deadline. -/
theorem due?_proceed {deadline : Expiry} {fuel : Nat} (hs : s.Bounded) (h : s.waitsLeft ≤ fuel) :
    (s.proceed deadline fuel).due? deadline = none := by
  induction fuel generalizing s with
  | zero =>
    rw [proceed]
    cases hdue : s.due? deadline with
    | none => rfl
    | some next =>
      have := (hs.resume (due?_eq_some hdue).1 next.2).2
      omega
  | succ fuel ih =>
    rw [proceed]
    cases hdue : s.due? deadline with
    | none => exact hdue
    | some next =>
      obtain ⟨hbounded, hlt⟩ := hs.resume (due?_eq_some hdue).1 next.2
      exact ih hbounded (by omega)

end State

end Attest.Schedule
