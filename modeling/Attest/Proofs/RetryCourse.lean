import Attest.Proofs.DeadlineStrikes
import Attest.Proofs.RetryTimes

/-! # The course of a question

A question ends with its first attempt that is answered for good, or with the last one there may be,
unless patience is at its end before. What it does on the way is known, attempt by attempt. -/

namespace Attest

open Seconds

/-! ### Waits alone -/

namespace Activity

variable {α : Type} {w : Wait} {e : Expiry} {next : Option w.Answer → Activity α} {chain : Int}
  {now t : Seconds} {o : Outside} {sent : Nat}

/-- How many posts there are once a wait has begun. -/
def sentWith (sent : Nat) (w : Wait) : Nat := if w.isPost then sent + 1 else sent

theorem solo_of_answered (h : e.endOf now (o.serve w).1.1 = .answered t) :
    (wait w e next).solo chain now o sent =
      { (next (some (o.serve w).1.2)).solo chain t (o.serve w).2 (sentWith sent w) with
        log := ⟨now, chain, w.deed sent⟩ ::
          ((next (some (o.serve w).1.2)).solo chain t (o.serve w).2 (sentWith sent w)).log } := by
  rw [solo]
  simp only [h]
  rfl

theorem solo_of_expired (h : e.endOf now (o.serve w).1.1 = .expired t) :
    (wait w e next).solo chain now o sent =
      { (next none).solo chain t (o.serve w).2 (sentWith sent w) with
        log := ⟨now, chain, w.deed sent⟩ ::
          ((next none).solo chain t (o.serve w).2 (sentWith sent w)).log } := by
  rw [solo]
  simp only [h]
  rfl

theorem solo_of_never (h : e.endOf now (o.serve w).1.1 = .never) :
    (wait w e next).solo chain now o sent =
      ⟨none, now, (o.serve w).2, sentWith sent w, [⟨now, chain, w.deed sent⟩]⟩ := by
  rw [solo]
  simp only [h]
  rfl

/-- What is given up when its patience is at its end leaves nothing but the wait in the log. -/
theorem solo_of_cut {x : Activity α} {a : α} {start : Seconds} (hx : x = wait w e next)
    (h : e.endOf now (o.serve w).1.1 = e.cut start) (hnext : next none = done a) (chain : Int)
    (sent : Nat) :
    (x.solo chain now o sent).log = [⟨now, chain, w.deed sent⟩] ∧
      (x.solo chain now o sent).sent = sentWith sent w ∧
      (e ≠ .never → (x.solo chain now o sent).answer = some a ∧
        (x.solo chain now o sent).clock = e.limit start) ∧
      (e = .never → (x.solo chain now o sent).answer = none) := by
  subst hx
  by_cases he : e = .never
  · subst he
    rw [solo_of_never h]
    exact ⟨rfl, rfl, fun h => absurd rfl h, fun _ => rfl⟩
  · rw [Expiry.cut_of_ne_never he] at h
    rw [solo_of_expired h, hnext]
    exact ⟨rfl, rfl, fun _ => ⟨rfl, rfl⟩, fun h => absurd h he⟩

end Activity

theorem Expiry.start_le_limit {e : Expiry} {start : Seconds} : start ≤ e.limit start := by
  cases e with
  | «at» l => exact le_notBefore start l
  | _ => exact le_rfl

theorem Expiry.le_limit_of_permits {e : Expiry} {start t : Seconds} (he : e ≠ .never)
    (h : e.permits start t = true) : t ≤ e.limit start := by
  cases e with
  | never => exact absurd rfl he
  | atOnce => exact of_decide_eq_true h
  | «at» l =>
    rw [limit, notBefore_eq_max]
    rcases of_decide_eq_true h with h | h
    · exact le_max_of_le_left h
    · exact le_max_of_le_right h.le

namespace Node.Inquiry

variable {q : Inquiry}

/-! ### The course -/

/-- The attempt that is the last one if patience lasts: the first one that is answered for good, or
the one after which no more are allowed. -/
structure IsLast (q : Inquiry) (k : Nat) : Prop where
  allowed : k ≤ q.fetcher.retries.toNat
  before : ∀ i < k, q.mayPass i = true
  final : q.mayPass k = true → k = q.fetcher.retries.toNat

theorem exists_isLast (q : Inquiry) : ∃ k, q.IsLast k := by
  by_cases h : ∃ i, i < q.fetcher.retries.toNat ∧ q.mayPass i = false
  · obtain ⟨hlt, hfinal⟩ := Nat.find_spec h
    refine ⟨Nat.find h, hlt.le, fun i hi => ?_, fun hpass => ?_⟩
    · have hmin := Nat.find_min h hi
      simp only [not_and, Bool.not_eq_false] at hmin
      exact hmin (hi.trans hlt)
    · rw [hfinal] at hpass
      cases hpass
  · refine ⟨q.fetcher.retries.toNat, le_rfl, fun i hi => ?_, fun _ => rfl⟩
    by_contra hpass
    exact h ⟨i, hi, Bool.eq_false_of_not_eq_true hpass⟩

/-- What the question comes to when patience is at its end. -/
def timedOut (q : Inquiry) : Problem :=
  Fetcher.failed (.timedOut q.call.method q.fetcher.timeout.text)

/-- What is done about an attempt while patience lasts: a post at its beginning, and when it is
answered a pause, or for the last attempt nothing more. -/
def deeds (q : Inquiry) (chain : Int) (sent last i : Nat) : List Event :=
  ((q.begins i).map fun t => ⟨t, chain, .posted q.fetcher.endpoint.url q.call (sent + i + 1)⟩).toList ++
    ((q.ends i).map fun t =>
      ⟨t, chain, if i < last then .paused (q.pause i) else .settled⟩).toList

/-- What comes of a question from one of its attempts on, and all that is done for it. -/
structure Course (q : Inquiry) (chain : Int) (sent last i : Nat)
    (s : Activity.Solo (Except Problem Document)) : Prop where
  answered : ∀ t, q.ends last = some t → s.answer = some (q.outcome last) ∧ s.clock = t
  expired : q.ends last = none → q.expiry ≠ .never →
    s.answer = some (.error q.timedOut) ∧ s.clock = q.limit
  unending : q.ends last = none → q.expiry = .never → s.answer = none
  log : s.log = (List.range' i (last + 1 - i)).flatMap (q.deeds chain sent last)
  sent : s.sent =
    sent + i + (List.range' i (last + 1 - i)).countP fun j => (q.begins j).isSome

variable {chain : Int} {sent last i : Nat} {t u : Seconds} {o : Outside}

theorem range'_of_le (h : i ≤ last) :
    List.range' i (last + 1 - i) = i :: List.range' (i + 1) (last + 1 - (i + 1)) := by
  rw [show last + 1 - i = last + 1 - (i + 1) + 1 by omega, List.range'_succ]

/-- Once an attempt does not begin, nothing is done any more. -/
theorem nothing_after (h : q.begins i = none) (chain : Int) (sent last n : Nat) :
    (List.range' i n).flatMap (q.deeds chain sent last) = [] ∧
      (List.range' i n).countP (fun j => (q.begins j).isSome) = 0 := by
  have hnone {j : Nat} (hj : j ∈ List.range' i n) : q.begins j = none :=
    begins_eq_none h (List.mem_range'_1.mp hj).1
  constructor
  · rw [List.flatMap_eq_nil_iff]
    intro j hj
    simp [deeds, hnone hj, ends_eq_none (hnone hj)]
  · rw [List.countP_eq_zero]
    intro j hj
    simp [hnone hj]

variable {s : Activity.Solo (Except Problem Document)}

/-- What is cut off during an attempt or after it has no more to come. -/
theorem Course.of_cut (hi : i ≤ last) (hbegins : q.begins i = some t)
    (hnext : q.begins (i + 1) = none) (hnone : q.ends last = none)
    (hlog : s.log = q.deeds chain sent last i) (hsent : s.sent = sent + i + 1)
    (hexpired : q.expiry ≠ .never → s.answer = some (.error q.timedOut) ∧ s.clock = q.limit)
    (hunending : q.expiry = .never → s.answer = none) : q.Course chain sent last i s := by
  obtain ⟨hdeeds, hcount⟩ := nothing_after hnext chain sent last (last + 1 - (i + 1))
  refine ⟨fun u hu => ?_, fun _ => hexpired, fun _ => hunending, ?_, ?_⟩
  · cases hnone.symm.trans hu
  · rw [range'_of_le hi, List.flatMap_cons, hdeeds, List.append_nil]
    exact hlog
  · rw [range'_of_le hi, List.countP_cons, hcount, hsent]
    simp [hbegins]

/-- An attempt that is answered for good, or the last one, ends the question. -/
theorem Course.of_final {o : Outside} (hbegins : q.begins last = some t) (hends : q.ends last = some u) :
    q.Course chain sent last last
      ⟨some (q.outcome last), u, o, sent + last + 1,
        [⟨t, chain, .posted q.fetcher.endpoint.url q.call (sent + last + 1)⟩,
          ⟨u, chain, .settled⟩]⟩ := by
  refine ⟨fun v hv => ?_, fun h => ?_, fun h => ?_, ?_, ?_⟩
  · cases hends.symm.trans hv
    exact ⟨rfl, rfl⟩
  · cases h.symm.trans hends
  · cases h.symm.trans hends
  · simp [deeds, hbegins, hends]
  · simp [hbegins]

/-- An attempt and the pause after it come before the course of the next attempt. -/
theorem Course.of_pause (hi : i < last) (hbegins : q.begins i = some t) (hends : q.ends i = some u)
    (h : q.Course chain sent last (i + 1) s) :
    q.Course chain sent last i { s with
      log := ⟨t, chain, .posted q.fetcher.endpoint.url q.call (sent + i + 1)⟩ ::
        ⟨u, chain, .paused (q.pause i)⟩ :: s.log } := by
  refine ⟨h.answered, h.expired, h.unending, ?_, ?_⟩
  · rw [range'_of_le hi.le, List.flatMap_cons, ← h.log]
    simp [deeds, hbegins, hends, hi]
  · rw [range'_of_le hi.le, List.countP_cons, h.sent]
    simp [hbegins]
    omega

/-! ### Attempt by attempt -/

theorem serve_post (ho : o.script q.fetcher.endpoint.url = q.replies.drop i) :
    (o.serve (.post q.fetcher.endpoint.url q.call)).1 =
      (some (q.response i).delay, (q.response i).reply) := by
  rw [Outside.serve_post, ho, List.head?_drop]
  rfl

theorem endOf_post (hbegins : q.begins i = some t)
    (ho : o.script q.fetcher.endpoint.url = q.replies.drop i) :
    q.expiry.endOf t (o.serve (.post q.fetcher.endpoint.url q.call)).1.1 =
      (q.ends i).elim (q.expiry.cut q.start) .answered := by
  obtain ⟨hbeginning, hpermits⟩ := Option.filter_eq_some_iff.mp hbegins
  rw [serve_post ho, ends_of_begins hbegins]
  exact Expiry.endOf_of_permits (start_le_beginning hbeginning) hpermits _

theorem endOf_pause (hends : q.ends i = some u) (o : Outside) :
    q.expiry.endOf u (o.serve (.pause (q.pause i))).1.1 =
      (q.begins (i + 1)).elim (q.expiry.cut q.start) .answered := by
  obtain ⟨hending, hpermits⟩ := Option.filter_eq_some_iff.mp hends
  rw [begins_succ_of_ends hends]
  exact Expiry.endOf_of_permits (start_le_ending hending) hpermits _

/-- The question from one of its attempts on, with how many more are allowed. -/
def attempt (q : Inquiry) (i more : Nat) : Activity (Except Problem Document) :=
  Fetcher.attempt q.fetcher.endpoint.url q.call q.timedOut q.expiry (more + 1) (q.pause i)

/-- What follows an attempt's reply. -/
def afterReply (q : Inquiry) (i more : Nat) (outcome : Except Problem Document) :
    Activity (Except Problem Document) :=
  match outcome with
  | .ok d => Fetcher.settled (.ok d)
  | .error p =>
      if !p.transient || more == 0 then Fetcher.settled (.error p)
      else
        .wait (.pause (q.pause i)) q.expiry fun rested =>
          match (rested : Option Unit) with
          | none => .done (.error q.timedOut)
          | some () =>
              Fetcher.attempt q.fetcher.endpoint.url q.call q.timedOut q.expiry more
                (q.pause i).double

theorem attempt_eq (q : Inquiry) (i more : Nat) :
    q.attempt i more =
      .wait (.post q.fetcher.endpoint.url q.call) q.expiry fun reply =>
        match (reply : Option Reply) with
        | none => .done (.error q.timedOut)
        | some reply =>
            q.afterReply i more (classify q.fetcher.endpoint.url q.call.method reply) := by
  rw [attempt, Fetcher.attempt]
  congr 1
  funext reply
  cases reply with
  | none => rfl
  | some reply =>
    dsimp only
    cases classify q.fetcher.endpoint.url q.call.method reply with
    | ok d => rfl
    | error p =>
      dsimp only [afterReply]
      congr 2
      funext rested
      cases rested <;> rfl

theorem afterReply_of_final {more : Nat} (h : q.mayPass i = true → more = 0) :
    q.afterReply i more (q.outcome i) = Fetcher.settled (q.outcome i) := by
  rw [mayPass] at h
  cases houtcome : q.outcome i with
  | ok d => rfl
  | error p =>
    rw [houtcome] at h
    rw [afterReply, if_pos]
    cases htransient : p.transient with
    | false => rfl
    | true => simp [h htransient]

theorem afterReply_of_mayPass {more : Nat} (h : q.mayPass i = true) :
    q.afterReply i (more + 1) (q.outcome i) =
      .wait (.pause (q.pause i)) q.expiry fun rested =>
        match (rested : Option Unit) with
        | none => .done (.error q.timedOut)
        | some () => q.attempt (i + 1) more := by
  rw [mayPass] at h
  cases houtcome : q.outcome i with
  | ok d =>
    rw [houtcome] at h
    cases h
  | error p =>
    rw [houtcome] at h
    rw [afterReply, if_neg (by simp [show p.transient = true from h]), attempt, pause_succ]

/-- An attempt that patience does not last for. -/
theorem course_of_ends_none (hi : i ≤ last) (hbegins : q.begins i = some t)
    (hends : q.ends i = none) (ho : o.script q.fetcher.endpoint.url = q.replies.drop i) (more : Nat) :
    q.Course chain sent last i ((q.attempt i more).solo chain t o (sent + i)) := by
  have hend := endOf_post hbegins ho
  rw [hends] at hend
  have hnone : q.ends last = none := by
    obtain rfl | hlt := hi.eq_or_lt
    · exact hends
    · exact ends_eq_none (begins_eq_none (begins_succ_eq_none hends) hlt)
  obtain ⟨hlog, hsent, hexpired, hunending⟩ :=
    Activity.solo_of_cut (q.attempt_eq i more) hend rfl chain (sent + i)
  refine Course.of_cut hi hbegins (begins_succ_eq_none hends) hnone ?_ hsent hexpired hunending
  rw [hlog]
  simp [deeds, hbegins, hends, Wait.deed]

/-- The outside once an attempt has asked it. -/
def asked (q : Inquiry) (o : Outside) : Outside :=
  (o.serve (.post q.fetcher.endpoint.url q.call)).2

theorem script_asked (ho : o.script q.fetcher.endpoint.url = q.replies.drop i) :
    (q.asked o).script q.fetcher.endpoint.url = q.replies.drop (i + 1) := by
  rw [asked, Outside.script_serve_post, ho, List.tail_drop]

/-- An attempt that is answered in time. -/
theorem solo_attempt (hbegins : q.begins i = some t) (hends : q.ends i = some u)
    (ho : o.script q.fetcher.endpoint.url = q.replies.drop i) (more : Nat) :
    (q.attempt i more).solo chain t o sent =
      { (q.afterReply i more (q.outcome i)).solo chain u (q.asked o) (sent + 1) with
        log := ⟨t, chain, .posted q.fetcher.endpoint.url q.call (sent + 1)⟩ ::
          ((q.afterReply i more (q.outcome i)).solo chain u (q.asked o) (sent + 1)).log } := by
  have hend := endOf_post hbegins ho
  rw [hends] at hend
  rw [attempt_eq, Activity.solo_of_answered hend, serve_post ho]
  rfl

/-- The last attempt, while patience lasts. -/
theorem course_of_final {more : Nat} (hfinal : q.mayPass last = true → more = 0)
    (hbegins : q.begins last = some t) (hends : q.ends last = some u)
    (ho : o.script q.fetcher.endpoint.url = q.replies.drop last) :
    q.Course chain sent last last ((q.attempt last more).solo chain t o (sent + last)) := by
  rw [solo_attempt hbegins hends ho, afterReply_of_final hfinal]
  exact Course.of_final hbegins hends

/-- An attempt with a pause after it that patience does not last for. -/
theorem course_of_begins_none {more : Nat} (hi : i < last) (hpass : q.mayPass i = true)
    (hbegins : q.begins i = some t) (hends : q.ends i = some u) (hnext : q.begins (i + 1) = none)
    (ho : o.script q.fetcher.endpoint.url = q.replies.drop i) :
    q.Course chain sent last i ((q.attempt i (more + 1)).solo chain t o (sent + i)) := by
  have hend := endOf_pause hends (q.asked o)
  rw [hnext] at hend
  obtain ⟨hlog, hsent, hexpired, hunending⟩ :=
    Activity.solo_of_cut (afterReply_of_mayPass hpass) hend rfl chain (sent + i + 1)
  rw [solo_attempt hbegins hends ho]
  refine Course.of_cut hi.le hbegins hnext (ends_eq_none (begins_eq_none hnext hi)) ?_ hsent hexpired
    hunending
  dsimp only
  rw [hlog]
  simp [deeds, hbegins, hends, hi, Wait.deed]

/-- An attempt with a pause after it, and another attempt after that. -/
theorem course_of_begins_some {more : Nat} {v : Seconds} (hi : i < last) (hpass : q.mayPass i = true)
    (hbegins : q.begins i = some t) (hends : q.ends i = some u) (hnext : q.begins (i + 1) = some v)
    (ho : o.script q.fetcher.endpoint.url = q.replies.drop i)
    (h : q.Course chain sent last (i + 1)
      ((q.attempt (i + 1) more).solo chain v (q.asked o) (sent + (i + 1)))) :
    q.Course chain sent last i ((q.attempt i (more + 1)).solo chain t o (sent + i)) := by
  have hend := endOf_pause hends (q.asked o)
  rw [hnext] at hend
  rw [solo_attempt hbegins hends ho, afterReply_of_mayPass hpass, Activity.solo_of_answered hend]
  exact h.of_pause hi hbegins hends

/-- From each attempt on, the question takes its course. -/
theorem attempt_course (hlast : q.IsLast last) (hi : i ≤ last) (hbegins : q.begins i = some t)
    (ho : o.script q.fetcher.endpoint.url = q.replies.drop i) :
    q.Course chain sent last i
      ((q.attempt i (q.fetcher.retries.toNat - i)).solo chain t o (sent + i)) := by
  -- The induction is on the attempts that are left before the last one.
  generalize hleft : last - i = left
  induction left generalizing i t o with
  | zero =>
    obtain rfl : i = last := by omega
    cases hends : q.ends i with
    | none => exact course_of_ends_none hi hbegins hends ho _
    | some u =>
      refine course_of_final (fun hpass => ?_) hbegins hends ho
      rw [← hlast.final hpass, Nat.sub_self]
  | succ left ih =>
    have hlt : i < last := by omega
    cases hends : q.ends i with
    | none => exact course_of_ends_none hi hbegins hends ho _
    | some u =>
      have hpass := hlast.before i hlt
      have hallowed := hlast.allowed
      rw [show q.fetcher.retries.toNat - i = q.fetcher.retries.toNat - (i + 1) + 1 by omega]
      cases hnext : q.begins (i + 1) with
      | none => exact course_of_begins_none hlt hpass hbegins hends hnext ho
      | some v =>
        refine course_of_begins_some hlt hpass hbegins hends hnext ho ?_
        exact ih hlt hnext (script_asked ho) (by omega)

/-! ### Bounds -/

theorem Course.sent_le (h : q.Course chain sent last 0 s) (hlast : q.IsLast last) :
    s.sent ≤ sent + q.fetcher.retries.toNat + 1 := by
  have hcount := List.countP_le_length (p := fun j => (q.begins j).isSome)
    (l := List.range' 0 (last + 1 - 0))
  rw [List.length_range'] at hcount
  have hallowed := hlast.allowed
  have hsent := h.sent
  omega

theorem Course.clock_le (h : q.Course chain sent last i s) (hexpiry : q.expiry ≠ .never) :
    q.start ≤ s.clock ∧ s.clock ≤ q.limit := by
  cases hends : q.ends last with
  | none =>
    rw [(h.expired hends hexpiry).2]
    exact ⟨Expiry.start_le_limit, le_rfl⟩
  | some t =>
    obtain ⟨hending, hpermits⟩ := Option.filter_eq_some_iff.mp hends
    rw [(h.answered t hends).2]
    exact ⟨start_le_ending hending, Expiry.le_limit_of_permits hexpiry hpermits⟩

/-- At the beginning of all time, patience is at its end exactly after the timeout. -/
theorem limit_of_start_eq_zero {timeout : Rat} (hstart : q.start = 0)
    (htimeout : q.fetcher.timeout.toRat? = some timeout) (hpos : 0 < timeout)
    (hkept : Seconds.Kept timeout) : q.limit = timeout := by
  rw [limit, expiry, Expiry.after_of_toRat? htimeout, hstart, Expiry.limit, after, zero_add, hkept,
    notBefore_eq_max, max_eq_right hpos.le]

end Node.Inquiry

namespace Node.Fetcher

/-- A question that is asked at a time. -/
def inquiry (f : Fetcher) (call : Call) (now : Seconds) (o : Outside) : Inquiry :=
  ⟨f, call, now, o.script f.endpoint.url⟩

variable {f : Fetcher} {call : Call} {now : Seconds} {o : Outside} {last : Nat}

theorem ask_course (hretries : 0 ≤ f.retries) (htimeout : f.timeout.isOver = false)
    (hlast : (f.inquiry call now o).IsLast last) (chain : Int) (sent : Nat) :
    (f.inquiry call now o).Course chain sent last 0 ((f.ask call).run.solo chain now o sent) := by
  have hattempts : (f.retries + 1).toNat = f.retries.toNat + 1 := by omega
  rw [ask, ExceptT.run_mk, htimeout, if_neg Bool.false_ne_true, Activity.solo, hattempts]
  exact Inquiry.attempt_course hlast (Nat.zero_le last) Inquiry.begins_zero rfl

/-- A question takes its course: attempts begin after all earlier delays and pauses, the first one that
is answered for good or the last one there may be is what the question comes to, if patience lasts,
and otherwise it ends when patience does. There are no more posts than attempts allowed, each pause is
twice the one before, and as long as all times are exact, so are the times of all attempts. -/
theorem ask_retries (f : Fetcher) (call : Call) (chain : Int) (now : Seconds) (o : Outside) (sent : Nat)
    (hretries : 0 ≤ f.retries) (hbackoff : f.backoff.isAbove 0 = true)
    (htimeout : f.timeout.isAbove 0 = true) :
    let q := f.inquiry call now o
    let s := (f.ask call).run.solo chain now o sent
    ∃ last, q.IsLast last ∧ q.Course chain sent last 0 s ∧
      s.sent ≤ sent + f.retries.toNat + 1 ∧
      (q.expiry ≠ .never → now ≤ s.clock ∧ s.clock ≤ q.limit) ∧
      (∀ b, f.backoff.toRat? = some b → ∀ i, (q.pause i).toRat? = some (b * 2 ^ i) ∨
        q.pause i = .infinite false ∧ 2 ^ (1024 : Int) ≤ b * 2 ^ i) ∧
      (∀ timeout, now = 0 → f.timeout.toRat? = some timeout → Seconds.Kept timeout →
        q.limit = timeout) ∧
      ∀ g b timeout, q.Exact g b timeout → q.limit = now + timeout ∧ ∀ i,
        q.begins i =
          (if q.elapsed b i < timeout then some (now + q.elapsed b i) else none) ∧
        q.ends i =
          if q.elapsed b i + (q.response i).delay < timeout then
            some (now + q.elapsed b i + (q.response i).delay)
          else none := by
  intro q s
  obtain ⟨last, hlast⟩ := q.exists_isLast
  have hcourse : q.Course chain sent last 0 s :=
    ask_course hretries (Binary64.isOver_of_isAbove htimeout) hlast chain sent
  refine ⟨last, hlast, hcourse, hcourse.sent_le hlast, hcourse.clock_le, fun b hb i => ?_,
    fun timeout hnow hvalue hkept => ?_, fun g b timeout hexact => ⟨hexact.limit_eq, fun i => ?_⟩⟩
  · exact q.pause_value hb (Binary64.pos_of_isAbove hbackoff hb) i
  · exact Inquiry.limit_of_start_eq_zero hnow hvalue (Binary64.pos_of_isAbove htimeout hvalue) hkept
  · exact ⟨hexact.begins_eq i, hexact.ends_eq i⟩

/-- A node that is overloaded at first. -/
def overloaded : Outside :=
  .ofScript "u" [⟨1, .answered 503 "" (.raw "")⟩,
    ⟨1 / 4, .answered 200 "" (.document (.object [("result", .text "0x")]))⟩]

/-- How nodes are asked if nothing else is said. -/
def usual : Fetcher := .ofSettings ⟨1, "mainnet", "u"⟩ {}

theorem exact_overloaded :
    (usual.inquiry ⟨"eth_getCode", .null⟩ 0 overloaded).Exact 2 (1 / 2) 60 where
  fine := by decide
  start := Steps.zero
  start_nonneg := le_rfl
  delay := by
    have h : ∀ r ∈ (usual.inquiry ⟨"eth_getCode", .null⟩ 0 overloaded).replies,
        r.delay = 1 ∨ r.delay = 1 / 4 := by
      decide +kernel
    intro r hr
    rcases h r hr with h | h
    · exact ⟨4, by rw [h]; norm_num⟩
    · exact ⟨1, by rw [h]; norm_num⟩
  delay_nonneg := by decide +kernel
  backoff_value := by decide +kernel
  backoff_steps := ⟨2, by norm_num⟩
  backoff_pos := by norm_num
  timeout_value := by decide +kernel
  timeout_steps := ⟨240, by norm_num⟩
  timeout_pos := by norm_num
  reach := by
    rw [Seconds.reach]
    norm_num [inquiry]

theorem ask_retries_overloaded :
    0 ≤ usual.retries ∧ usual.backoff.isAbove 0 = true ∧ usual.timeout.isAbove 0 = true ∧
      (∃ last, (usual.inquiry ⟨"eth_getCode", .null⟩ 0 overloaded).IsLast last ∧
        (usual.inquiry ⟨"eth_getCode", .null⟩ 0 overloaded).Course 1 0 last 0
          ((usual.ask ⟨"eth_getCode", .null⟩).run.solo 1 0 overloaded 0) ∧
        (usual.inquiry ⟨"eth_getCode", .null⟩ 0 overloaded).ends 1 = some (7 / 4)) ∧
      ((usual.ask ⟨"eth_getCode", .null⟩).run.solo 1 0 overloaded 0).sent = 2 ∧
      ((usual.ask ⟨"eth_getCode", .null⟩).run.solo 1 0 overloaded 0).clock = 7 / 4 := by
  have hbackoff : usual.backoff.isAbove 0 = true := by decide +kernel
  have htimeout : usual.timeout.isAbove 0 = true := by decide +kernel
  obtain ⟨last, hlast, hcourse, -, -, -, -, htimes⟩ :=
    ask_retries usual ⟨"eth_getCode", .null⟩ 1 0 overloaded 0 (by decide) hbackoff htimeout
  have hends := ((htimes 2 (1 / 2) 60 exact_overloaded).2 1).2
  have helapsed : (usual.inquiry ⟨"eth_getCode", .null⟩ 0 overloaded).elapsed (1 / 2) 1 = 3 / 2 := by
    decide +kernel
  have hdelay : ((usual.inquiry ⟨"eth_getCode", .null⟩ 0 overloaded).response 1).delay = 1 / 4 := by
    decide +kernel
  rw [helapsed, hdelay, if_pos (by norm_num)] at hends
  refine ⟨by decide, hbackoff, htimeout, ⟨last, hlast, hcourse, ?_⟩, by decide +kernel,
    by decide +kernel⟩
  rw [hends]
  norm_num

end Node.Fetcher

end Attest
