import Attest.Proofs.ExactTimes
import Attest.Proofs.EarlierStarts
import Mathlib.Algebra.BigOperators.Group.Finset.Basic
import Mathlib.Algebra.Order.BigOperators.Group.Finset

/-! # The times of attempts

A question is asked again as long as its faults may pass. When each of its attempts begins and ends
follows from the delays of the replies and from the pauses between them; patience cuts this off. -/

namespace Attest

open Seconds

/-! ### Patience -/

/-- When a span is over; nothing is over before it began. -/
def Seconds.past (start span : Seconds) : Seconds := start.notBefore (start.after span)

theorem Seconds.le_past (start span : Seconds) : start ≤ start.past span :=
  Seconds.le_notBefore start _

namespace Expiry

variable {e : Expiry} {start now t t' : Seconds}

/-- Whether patience that began at a start lasts until a time. It lasts as long as no time passes. -/
def permits (start t : Seconds) : Expiry → Bool
  | .at limit => decide (t ≤ start ∨ t < limit)
  | .atOnce => decide (t ≤ start)
  | .never => true

/-- The end of a wait that takes too long for patience that began at a start. -/
def cut (start : Seconds) : Expiry → End
  | .never => .never
  | e => .expired (e.limit start)

theorem permits_of_le (ht : e.permits start t = true) (h : t' ≤ t) : e.permits start t' = true := by
  cases e with
  | «at» limit =>
    simp only [permits, decide_eq_true_eq] at ht ⊢
    exact ht.imp h.trans h.trans_lt
  | atOnce =>
    simp only [permits, decide_eq_true_eq] at ht ⊢
    exact h.trans ht
  | never => rfl

/-- For a wait within patience, it makes no difference when patience began. -/
theorem endOf_of_permits (hstart : start ≤ now) (hnow : e.permits start now = true)
    (delay : Option Seconds) :
    e.endOf now delay =
      ((delay.map now.past).filter (e.permits start)).elim (e.cut start) End.answered := by
  cases e with
  | never => cases delay <;> rfl
  | atOnce =>
    simp only [permits, decide_eq_true_eq] at hnow
    obtain rfl : start = now := le_antisymm hstart hnow
    cases delay with
    | none => rfl
    | some d =>
      change (if start.past d ≤ start then End.answered (start.past d) else .expired start) = _
      by_cases h : start.past d ≤ start <;> simp [Option.filter, permits, cut, limit, h]
  | «at» l =>
    have hlimit : now.notBefore l = start.notBefore l := by
      simp only [permits, decide_eq_true_eq] at hnow
      rcases hnow with h | h
      · rw [le_antisymm h hstart]
      · rw [notBefore_eq_max, notBefore_eq_max, max_eq_right h.le, max_eq_right (hstart.trans h.le)]
    cases delay with
    | none => exact congrArg End.expired hlimit
    | some d =>
      have hiff : now.past d ≤ now ∨ now.past d < l ↔
          (Expiry.at l).permits start (now.past d) = true := by
        constructor
        · rintro (h | h)
          · exact permits_of_le hnow h
          · simp [permits, h]
        · intro h
          simp only [permits, decide_eq_true_eq] at h
          exact h.imp_left fun h => h.trans hstart
      change (if now.past d ≤ now ∨ now.past d < l then End.answered (now.past d)
        else .expired (now.notBefore l)) = _
      simp only [hiff, hlimit]
      by_cases h : (Expiry.at l).permits start (now.past d) = true <;>
        simp [Option.filter, cut, limit, h]

theorem cut_of_ne_never (h : e ≠ .never) : e.cut start = .expired (e.limit start) := by
  cases e with
  | never => exact absurd rfl h
  | _ => rfl

theorem filter_permits_bind {x : Option Seconds} {f : Seconds → Option Seconds}
    (hf : ∀ t u, f t = some u → t ≤ u) (h : x.filter (e.permits start) = none) :
    (x.bind f).filter (e.permits start) = none := by
  rw [Option.filter_eq_none_iff] at h ⊢
  intro u hu hpermits
  obtain ⟨t, rfl, ht⟩ := Option.bind_eq_some_iff.mp hu
  exact h t rfl (permits_of_le hpermits (hf t u ht))

end Expiry

/-! ### Positive numbers -/

namespace Binary64

/-- A number that is above zero is not over before it begins. -/
theorem isOver_of_isAbove {x : Binary64} (h : x.isAbove 0 = true) : x.isOver = false := by
  cases x with
  | infinite negative =>
    cases negative with
    | false => rfl
    | true => cases h
  | undefined => rfl
  | finite negative m e =>
    have hvalue := toRat?_finite negative m e
    have hpos := h
    rw [isAbove, hvalue] at hpos
    · rw [isOver_of_toRat? hvalue]
      simpa using hpos
    · exact fun _ h => nomatch h

theorem pos_of_isAbove {x : Binary64} {q : Rat} (h : x.isAbove 0 = true) (hq : x.toRat? = some q) :
    0 < q := by
  have hover := isOver_of_isAbove h
  rw [isOver_of_toRat? hq] at hover
  simpa using hover

/-- Twice a number is exact, or too great for a number. -/
theorem double_of_toRat? {x : Binary64} {q : Rat} (h : x.toRat? = some q) (hq : 0 < q) :
    x.double.toRat? = some (q + q) ∨ x.double = .infinite false ∧ 2 ^ (1024 : Int) ≤ q + q := by
  cases hdouble : x.double.toRat? with
  | some r =>
    obtain ⟨q', hq', rfl⟩ := toRat?_double hdouble
    cases h.symm.trans hq'
    exact .inl rfl
  | none =>
    right
    cases x with
    | infinite negative => cases h
    | undefined => cases h
    | finite negative m e =>
      rw [toRat?_finite, Option.some.injEq] at h
      dsimp only [double] at hdouble ⊢
      by_cases hgreat : e = greatestExponent ∧ Nat.pow 2 (precision - 1) ≤ m
      · have hpos := two_zpow_pos e
        cases negative with
        | true =>
          have hm : (0 : Rat) ≤ m := Nat.cast_nonneg m
          rw [if_pos rfl] at h
          nlinarith
        | false =>
          rw [if_pos hgreat]
          refine ⟨rfl, ?_⟩
          rw [if_neg Bool.false_ne_true] at h
          have hm : (2 : Rat) ^ 52 ≤ m := by exact_mod_cast hgreat.2
          calc
            (2 : Rat) ^ (1024 : Int) = 2 * ((2 : Rat) ^ 52 * (2 : Rat) ^ greatestExponent) := by
              rw [← zpow_natCast, ← zpow_add₀ two_ne_zero, ← zpow_one_add₀ two_ne_zero]
              rfl
            _ ≤ 2 * (m * 2 ^ greatestExponent) := by
              rw [← hgreat.1]
              gcongr
            _ = q + q := by
              rw [← h, hgreat.1]
              ring
      · rw [if_neg hgreat] at hdouble
        split_ifs at hdouble <;> rw [toRat?_finite] at hdouble <;> cases hdouble

end Binary64

/-- A pause of a number of seconds takes as long. -/
theorem Outside.pauseTime_of_toRat? {x : Binary64} {q : Rat} (h : x.toRat? = some q) (hq : 0 ≤ q) :
    pauseTime x = some q := by
  have hclamp : Seconds.clamp q = q := if_neg hq.not_gt
  cases x with
  | finite negative m e =>
    rw [pauseTime, h, Option.getD_some, hclamp]
    exact fun h => nomatch h
  | infinite negative => cases h
  | undefined => cases h

namespace Node

/-- A question at a time, with all that its node has to say. -/
structure Inquiry where
  fetcher : Fetcher
  call : Call
  start : Seconds
  replies : List Response

namespace Inquiry

variable (q : Inquiry)

/-! ### Attempts -/

/-- What an attempt is told. -/
def response (i : Nat) : Response := q.replies[i]?.getD .silence

/-- What an attempt comes to. -/
def outcome (i : Nat) : Except Problem Document :=
  classify q.fetcher.endpoint.url q.call.method (q.response i).reply

/-- Whether an attempt ends in a fault that may pass. -/
def mayPass (i : Nat) : Bool :=
  match q.outcome i with
  | .ok _ => false
  | .error p => p.transient

/-- The pause after an attempt. -/
def pause (i : Nat) : Binary64 := Binary64.double^[i] q.fetcher.backoff

theorem pause_succ (i : Nat) : q.pause (i + 1) = (q.pause i).double :=
  Function.iterate_succ_apply' _ _ _

/-- Each pause is twice as long as the one before, until it is too long for a number. -/
theorem pause_value {b : Rat} (hb : q.fetcher.backoff.toRat? = some b) (hpos : 0 < b) (i : Nat) :
    (q.pause i).toRat? = some (b * 2 ^ i) ∨
      q.pause i = .infinite false ∧ 2 ^ (1024 : Int) ≤ b * 2 ^ i := by
  induction i with
  | zero =>
    left
    simpa [pause] using hb
  | succ i ih =>
    have htwice : b * 2 ^ (i + 1) = b * 2 ^ i + b * 2 ^ i := by ring
    rw [pause_succ, htwice]
    rcases ih with h | ⟨h, hgreat⟩
    · exact Binary64.double_of_toRat? h (by positivity)
    · right
      rw [h]
      exact ⟨rfl, hgreat.trans (le_add_of_nonneg_left (by positivity))⟩

/-! ### Times -/

/-- When an attempt begins that nothing cuts off: after all earlier delays and pauses. -/
def beginning : Nat → Option Seconds
  | 0 => some q.start
  | i + 1 => (beginning i).bind fun t =>
      (Outside.pauseTime (q.pause i)).map (t.past (q.response i).delay).past

/-- When an attempt is answered that nothing cuts off. -/
def ending (i : Nat) : Option Seconds := (q.beginning i).map fun t => t.past (q.response i).delay

/-- How long the question's patience lasts. -/
def expiry : Expiry := .after q.start q.fetcher.timeout

/-- When the question runs out of patience. -/
def limit : Seconds := q.expiry.limit q.start

/-- When an attempt begins, none if patience is at its end by then. -/
def begins (i : Nat) : Option Seconds := (q.beginning i).filter (q.expiry.permits q.start)

/-- When an attempt is answered, none if patience is at its end by then. -/
def ends (i : Nat) : Option Seconds := (q.ending i).filter (q.expiry.permits q.start)

variable {q} {i j : Nat} {t : Seconds}

theorem beginning_succ :
    q.beginning (i + 1) =
      (q.ending i).bind fun t => (Outside.pauseTime (q.pause i)).map t.past := by
  rw [beginning, ending, Option.bind_map]
  rfl

theorem start_le_beginning (h : q.beginning i = some t) : q.start ≤ t := by
  induction i generalizing t with
  | zero =>
    cases h
    exact le_rfl
  | succ i ih =>
    rw [beginning_succ, ending] at h
    obtain ⟨u, hu, h⟩ := Option.bind_eq_some_iff.mp h
    obtain ⟨s, hs, rfl⟩ := Option.map_eq_some_iff.mp hu
    obtain ⟨d, -, rfl⟩ := Option.map_eq_some_iff.mp h
    exact ((ih hs).trans (le_past _ _)).trans (le_past _ _)

theorem start_le_ending (h : q.ending i = some t) : q.start ≤ t := by
  obtain ⟨s, hs, rfl⟩ := Option.map_eq_some_iff.mp h
  exact (start_le_beginning hs).trans (le_past _ _)

theorem begins_zero : q.begins 0 = some q.start := by
  refine Option.filter_eq_some_iff.mpr ⟨rfl, ?_⟩
  cases h : q.expiry <;> simp [Expiry.permits]

theorem ends_of_begins (h : q.begins i = some t) :
    q.ends i =
      ((some (q.response i).delay).map t.past).filter (q.expiry.permits q.start) := by
  rw [ends, ending, (Option.filter_eq_some_iff.mp h).1]
  rfl

theorem begins_succ_of_ends (h : q.ends i = some t) :
    q.begins (i + 1) =
      ((Outside.pauseTime (q.pause i)).map t.past).filter (q.expiry.permits q.start) := by
  rw [begins, beginning_succ, (Option.filter_eq_some_iff.mp h).1]
  rfl

/-- What does not begin does not end. -/
theorem ends_eq_none (h : q.begins i = none) : q.ends i = none := by
  rw [ends, ending, Option.map_eq_bind]
  refine Expiry.filter_permits_bind (fun t u htu => ?_) h
  cases htu
  exact le_past _ _

theorem begins_succ_eq_none (h : q.ends i = none) : q.begins (i + 1) = none := by
  rw [begins, beginning_succ]
  refine Expiry.filter_permits_bind (fun t u htu => ?_) h
  obtain ⟨d, -, rfl⟩ := Option.map_eq_some_iff.mp htu
  exact le_past _ _

/-- Nothing begins once an attempt is cut off. -/
theorem begins_eq_none (h : q.begins i = none) (hij : i ≤ j) : q.begins j = none := by
  induction j, hij using Nat.le_induction with
  | base => exact h
  | succ j _ ih => exact begins_succ_eq_none (ends_eq_none ih)

/-! ### Exact times -/

variable (q) in
/-- The time before an attempt begins: all earlier delays and pauses. -/
def elapsed (b : Rat) (i : Nat) : Seconds :=
  ∑ j ∈ Finset.range i, ((q.response j).delay + b * 2 ^ j)

theorem elapsed_succ (b : Rat) (i : Nat) :
    q.elapsed b (i + 1) = q.elapsed b i + (q.response i).delay + b * 2 ^ i := by
  rw [elapsed, Finset.sum_range_succ, elapsed, add_assoc]

/-- All times are whole numbers of steps, as far as a clock can tell them apart. -/
structure Exact (g : Nat) (b timeout : Rat) (q : Inquiry) : Prop where
  fine : g ≤ 1074
  start : Steps g q.start
  start_nonneg : 0 ≤ q.start
  delay : ∀ r ∈ q.replies, Steps g r.delay
  delay_nonneg : ∀ r ∈ q.replies, 0 ≤ r.delay
  backoff_value : q.fetcher.backoff.toRat? = some b
  backoff_steps : Steps g b
  backoff_pos : 0 < b
  timeout_value : q.fetcher.timeout.toRat? = some timeout
  timeout_steps : Steps g timeout
  timeout_pos : 0 < timeout
  reach : q.start + timeout ≤ reach g

namespace Exact

variable {g : Nat} {b timeout : Rat} (h : q.Exact g b timeout)

include h

theorem response_delay (i : Nat) : Steps g (q.response i).delay ∧ 0 ≤ (q.response i).delay := by
  cases hr : q.replies[i]? with
  | none =>
    rw [response, hr]
    exact ⟨Steps.zero, le_rfl⟩
  | some r =>
    rw [response, hr]
    have hmem := List.mem_of_getElem? hr
    exact ⟨h.delay r hmem, h.delay_nonneg r hmem⟩

theorem pause_steps (i : Nat) : Steps g (b * 2 ^ i) := by
  obtain ⟨n, hn⟩ := h.backoff_steps
  refine ⟨n * 2 ^ i, ?_⟩
  rw [hn]
  push_cast
  ring

theorem pause_nonneg (i : Nat) : 0 ≤ b * 2 ^ i := by
  have := h.backoff_pos
  positivity

theorem elapsed_steps (i : Nat) : Steps g (q.elapsed b i) := by
  induction i with
  | zero => exact Steps.zero
  | succ i ih =>
    rw [elapsed_succ]
    exact (ih.add (h.response_delay i).1).add (h.pause_steps i)

theorem elapsed_nonneg (i : Nat) : 0 ≤ q.elapsed b i :=
  Finset.sum_nonneg fun _ _ => add_nonneg (h.response_delay _).2 (h.pause_nonneg _)

theorem expiry_eq : q.expiry = .at (q.start + timeout) := by
  have hpos := h.timeout_pos
  have hsum : q.start.after timeout = q.start + timeout := by
    refine nearest_of_steps h.fine (h.start.add h.timeout_steps) ?_
    rw [abs_of_nonneg (add_nonneg h.start_nonneg hpos.le)]
    exact h.reach
  rw [expiry, Expiry.after_of_toRat? h.timeout_value, hsum]

theorem limit_eq : q.limit = q.start + timeout := by
  rw [limit, h.expiry_eq, Expiry.limit, notBefore_eq_max]
  exact max_eq_right (by linarith [h.timeout_pos])

/-- A span that begins some steps after the start is over exactly, or too late. -/
theorem filter_past {x d : Seconds} (hx : Steps g x) (hpos : 0 ≤ x) (hlt : x < timeout)
    (hd : Steps g d) (hnonneg : 0 ≤ d) :
    (some ((q.start + x).past d)).filter (q.expiry.permits q.start) =
      if x + d < timeout then some (q.start + x + d) else none := by
  have hstart := h.start_nonneg
  have hnow : q.start ≤ q.start + x := le_add_of_nonneg_right hpos
  have hpermits : q.expiry.permits q.start (q.start + x) = true := by
    simp [h.expiry_eq, Expiry.permits, hlt]
  have hend := Expiry.endOf_of_permits hnow hpermits (some d)
  rw [h.expiry_eq, Expiry.endOf_exact h.fine (h.start.add hx) (by linarith)
    (h.start.add h.timeout_steps) (by linarith) h.reach hd, max_eq_right (by linarith)] at hend
  have hiff : q.start + x + d < q.start + timeout ↔ x + d < timeout := by
    rw [add_assoc, add_lt_add_iff_left]
  rw [h.expiry_eq]
  simp only [hiff] at hend
  cases hfilter : (some ((q.start + x).past d)).filter
      ((Expiry.at (q.start + timeout)).permits q.start) with
  | none =>
    rw [Option.map_some, hfilter] at hend
    by_cases hin : x + d < timeout
    · rw [if_pos hin] at hend
      cases hend
    · rw [if_neg hin]
  | some t =>
    rw [Option.map_some, hfilter] at hend
    by_cases hin : x + d < timeout
    · rw [if_pos hin] at hend ⊢
      rw [End.answered.inj hend]
    · rw [if_neg hin] at hend
      cases hend

/-- The pauses are exact, or longer than all patience. -/
theorem filter_past_pause {x : Seconds} (hx : Steps g x) (hpos : 0 ≤ x) (hlt : x < timeout) (i : Nat) :
    ((Outside.pauseTime (q.pause i)).map (q.start + x).past).filter (q.expiry.permits q.start) =
      if x + b * 2 ^ i < timeout then some (q.start + x + b * 2 ^ i) else none := by
  rcases q.pause_value h.backoff_value h.backoff_pos i with hvalue | ⟨hvalue, hgreat⟩
  · rw [Outside.pauseTime_of_toRat? hvalue (h.pause_nonneg i)]
    exact h.filter_past hx hpos hlt (h.pause_steps i) (h.pause_nonneg i)
  · have hreach : timeout < 2 ^ (1024 : Int) := by
      calc
        timeout ≤ Seconds.reach g := by linarith [h.start_nonneg, h.reach]
        _ ≤ 2 ^ (53 : Int) := div_le_self (by norm_num) (one_le_pow₀ (by norm_num))
        _ < 2 ^ (1024 : Int) := zpow_lt_zpow_right₀ (by norm_num) (by norm_num)
    rw [hvalue, if_neg (by linarith)]
    rfl

theorem ends_of_begins {x : Seconds} (hx : Steps g x) (hpos : 0 ≤ x) (hlt : x < timeout)
    (hbegins : q.begins i = some (q.start + x)) :
    q.ends i =
      if x + (q.response i).delay < timeout then some (q.start + x + (q.response i).delay)
      else none := by
  obtain ⟨hd, hnonneg⟩ := h.response_delay i
  rw [Inquiry.ends_of_begins hbegins]
  exact h.filter_past hx hpos hlt hd hnonneg

/-- An attempt begins after all earlier delays and pauses, if they end within the timeout. -/
theorem begins_eq (i : Nat) :
    q.begins i = if q.elapsed b i < timeout then some (q.start + q.elapsed b i) else none := by
  induction i with
  | zero =>
    have hzero : q.elapsed b 0 = 0 := rfl
    rw [begins_zero, hzero, if_pos h.timeout_pos, add_zero]
  | succ i ih =>
    have hpause := h.pause_nonneg i
    obtain ⟨hd, hnonneg⟩ := h.response_delay i
    rw [elapsed_succ]
    by_cases hbegin : q.elapsed b i < timeout
    · rw [if_pos hbegin] at ih
      have hends := h.ends_of_begins (h.elapsed_steps i) (h.elapsed_nonneg i) hbegin ih
      by_cases hend : q.elapsed b i + (q.response i).delay < timeout
      · rw [if_pos hend, add_assoc] at hends
        rw [begins_succ_of_ends hends, h.filter_past_pause ((h.elapsed_steps i).add hd)
          (add_nonneg (h.elapsed_nonneg i) hnonneg) hend, add_assoc q.start]
      · rw [if_neg hend] at hends
        rw [begins_succ_eq_none hends, if_neg (by linarith)]
    · rw [if_neg hbegin] at ih
      rw [begins_succ_eq_none (ends_eq_none ih), if_neg (by linarith)]

theorem ends_eq (i : Nat) :
    q.ends i =
      if q.elapsed b i + (q.response i).delay < timeout then
        some (q.start + q.elapsed b i + (q.response i).delay)
      else none := by
  have hbegins := h.begins_eq i
  by_cases hbegin : q.elapsed b i < timeout
  · rw [if_pos hbegin] at hbegins
    exact h.ends_of_begins (h.elapsed_steps i) (h.elapsed_nonneg i) hbegin hbegins
  · rw [if_neg hbegin] at hbegins
    rw [ends_eq_none hbegins, if_neg (by linarith [(h.response_delay i).2])]

end Exact

end Inquiry

end Node

end Attest
