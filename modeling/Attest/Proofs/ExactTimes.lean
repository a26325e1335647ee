import Attest.Proofs.InvestigationWaits
import Attest.Proofs.Rounding

/-! Where all times are steps that clocks keep exactly, it makes no difference when work on a chain begins:
it takes the same course, and the same time. -/

namespace Attest

/-! ### Waits -/

namespace Outside

theorem serve_post (o : Outside) (url : String) (call : Node.Call) :
    (o.serve (.post url call)).1 =
      (some ((o.script url).head?.getD .silence).delay,
        ((o.script url).head?.getD .silence).reply) := by
  simp only [serve, take_fst, script]
  rfl

theorem script_serve_post (o : Outside) (url : String) (call : Node.Call) :
    (o.serve (.post url call)).2.script url = (o.script url).tail :=
  lookup_take_self url o.nodes

/-- All that a node has to say takes a whole number of steps. -/
def Exact (o : Outside) (g : Nat) (url : String) : Prop :=
  ∀ r ∈ o.script url, Seconds.Steps g r.delay

variable {g : Nat} {url : String} {o : Outside}

theorem Exact.serve {w : Wait} (ho : o.Exact g url) (hw : w.IsLocal url) :
    (o.serve w).2.Exact g url := by
  cases w with
  | post u call =>
    obtain rfl : u = url := hw
    intro r hr
    rw [script_serve_post] at hr
    exact ho r (List.mem_of_mem_tail hr)
  | pause seconds => exact ho
  | run command => exact hw.elim

theorem Exact.delay (ho : o.Exact g url) (call : Node.Call) {d : Seconds}
    (hd : (o.serve (.post url call)).1.1 = some d) : Seconds.Steps g d := by
  rw [serve_post] at hd
  cases hd
  cases h : o.script url with
  | nil => exact Seconds.Steps.zero
  | cons r rs => exact ho r (h ▸ List.mem_cons_self)

theorem Exact.only (ho : o.Exact g url) : (o.only url).Exact g url := by
  intro r hr
  rw [Outside.only, script_ofScript] at hr
  exact ho r hr

end Outside

/-- When all goes on some time later. -/
def End.later (δ : Seconds) : End → End
  | never => never
  | answered t => answered (t + δ)
  | expired t => expired (t + δ)

section

variable {g : Nat} (hg : g ≤ 1074)

include hg

open Seconds

/-- An exact wait takes its time, or all that patience allows. -/
theorem Expiry.endOf_exact {now limit d : Seconds} (hnow : Steps g now) (hpos : 0 ≤ now)
    (hlimit : Steps g limit) (hlt : now < limit) (hreach : limit ≤ reach g) (hd : Steps g d) :
    (Expiry.at limit).endOf now (some d) =
      if now + d < limit then .answered (max now (now + d)) else .expired limit := by
  have hkeep : nearest now = now :=
    nearest_of_steps hg hnow (by rw [abs_of_nonneg hpos]; exact hlt.le.trans hreach)
  have hlimitpos := hpos.trans hlt.le
  have hend : nearest limit = limit :=
    nearest_of_steps hg hlimit (by rwa [abs_of_nonneg hlimitpos])
  have hlast : notBefore now limit = limit := if_neg (by linarith)
  change (if notBefore now (now.after d) ≤ now ∨ notBefore now (now.after d) < limit
    then End.answered (notBefore now (now.after d)) else .expired (notBefore now limit)) = _
  rw [hlast]
  obtain hd0 | hd0 := le_or_gt d 0
  · -- Nothing ends before it begins.
    have hwake : notBefore now (now.after d) = now := by
      have hle := nearest_mono (by linarith : now + d ≤ now)
      rw [hkeep] at hle
      unfold notBefore
      split_ifs with h
      · rfl
      · exact le_antisymm hle (le_of_not_gt h)
    rw [hwake, if_pos (.inl le_rfl), if_pos (by linarith), max_eq_left (by linarith)]
  · by_cases hin : now + d < limit
    · have hsum : now.after d = now + d := by
        refine nearest_of_steps hg (hnow.add hd) ?_
        rw [abs_of_nonneg (by linarith)]
        exact hin.le.trans hreach
      have hwake : notBefore now (now.after d) = now + d := by
        rw [hsum]
        exact if_neg (by linarith)
      rw [hwake, if_pos (.inr hin), if_pos hin, max_eq_right (by linarith)]
    · have hle : limit ≤ now.after d := hend.symm.le.trans (nearest_mono (not_lt.mp hin))
      have hwake : notBefore now (now.after d) = now.after d := if_neg (by linarith)
      rw [hwake, if_neg (by rintro (h | h) <;> linarith), if_neg hin]

theorem Expiry.endOf_later {now limit δ : Seconds} {delay : Option Seconds} (hnow : Steps g now)
    (hpos : 0 ≤ now) (hlimit : Steps g limit) (hlt : now < limit) (hδ : Steps g δ) (hδ0 : 0 ≤ δ)
    (hreach : limit + δ ≤ reach g) (hdelay : ∀ d, delay = some d → Steps g d) :
    (Expiry.at (limit + δ)).endOf (now + δ) delay = ((Expiry.at limit).endOf now delay).later δ := by
  cases delay with
  | none =>
    have hnow' : notBefore (now + δ) (limit + δ) = limit + δ := if_neg (by linarith)
    have hlast : notBefore now limit = limit := if_neg (by linarith)
    simp only [Expiry.endOf, End.later, hnow', hlast]
  | some d =>
    have hd := hdelay d rfl
    rw [Expiry.endOf_exact hg hnow hpos hlimit hlt (by linarith) hd,
      Expiry.endOf_exact hg (hnow.add hδ) (by linarith) (hlimit.add hδ) (by linarith) hreach hd]
    by_cases hin : now + d < limit
    · rw [if_pos hin, if_pos (by linarith), End.later, max_add, add_right_comm]
    · rw [if_neg hin, if_neg (by linarith), End.later]

end

/-! ### Courses -/

namespace Activity

open Seconds

/-- The same ending, some time later. -/
def Ending.later (δ : Seconds) (e : Ending α) : Ending α := { e with clock := e.clock + δ }

/-- One activity takes the course of another some time later, and that one keeps within a limit. -/
structure Follows (g : Nat) (url : String) (δ limit : Seconds) (now : Seconds) (o : Outside)
    (x x' : Activity α) : Prop where
  course : x'.outcome (now + δ) o = (x.outcome now o).map (Ending.later δ)
  ending : ∀ e, x.outcome now o = some e →
    Steps g e.clock ∧ e.clock ≤ limit ∧ e.outside.Exact g url

variable {g : Nat} {url : String} {δ limit now : Seconds} {o : Outside}

theorem Follows.done (hnow : Steps g now) (hle : now ≤ limit) (ho : o.Exact g url) (a : α) :
    Follows g url δ limit now o (done a) (done a) := by
  refine ⟨rfl, fun e he => ?_⟩
  cases he
  exact ⟨hnow, hle, ho⟩

/-- Waits with patience for the same time follow each other. -/
theorem Follows.wait (hg : g ≤ 1074) (hδ : Steps g δ) (hδ0 : 0 ≤ δ) {w : Wait}
    {next next' : Option w.Answer → Activity α} (hnow : Steps g now) (hpos : 0 ≤ now)
    (hlimit : Steps g limit) (hlt : now < limit) (hreach : limit + δ ≤ reach g)
    (hdelay : ∀ d, (o.serve w).1.1 = some d → Steps g d)
    (hanswered : ∀ t, Steps g t → 0 ≤ t → t < limit →
      Follows g url δ limit t (o.serve w).2 (next (some (o.serve w).1.2))
        (next' (some (o.serve w).1.2)))
    (hexpired : Follows g url δ limit limit (o.serve w).2 (next none) (next' none)) :
    Follows g url δ limit now o (.wait w (.at limit) next) (.wait w (.at (limit + δ)) next') := by
  have hlater := Expiry.endOf_later hg hnow hpos hlimit hlt hδ hδ0 hreach hdelay
  have hend : ((.at limit : Expiry).endOf now (o.serve w).1.1 = .expired limit) ∨
      ∃ t, Steps g t ∧ 0 ≤ t ∧ t < limit ∧
        (.at limit : Expiry).endOf now (o.serve w).1.1 = .answered t := by
    cases hd : (o.serve w).1.1 with
    | none => exact .inl (congrArg End.expired (if_neg (by linarith)))
    | some d =>
      rw [Expiry.endOf_exact hg hnow hpos hlimit hlt (by linarith) (hdelay d hd)]
      split_ifs with hin
      · refine .inr ⟨_, ?_, hpos.trans (le_max_left _ _), max_lt hlt hin, rfl⟩
        obtain h | h := max_choice now (now + d)
        · rwa [h]
        · rw [h]
          exact hnow.add (hdelay d hd)
      · exact .inl rfl
  obtain hend | ⟨t, ht, htpos, htlt, hend⟩ := hend
  · rw [hend] at hlater
    refine ⟨?_, fun e he => ?_⟩
    · rw [outcome, outcome, hlater, hend]
      exact hexpired.course
    · rw [outcome, hend] at he
      exact hexpired.ending e he
  · have hnext := hanswered t ht htpos htlt
    rw [hend] at hlater
    refine ⟨?_, fun e he => ?_⟩
    · rw [outcome, outcome, hlater, hend]
      exact hnext.course
    · rw [outcome, hend] at he
      exact hnext.ending e he

theorem Follows.mark {x x' : Activity α} (h : Follows g url δ limit now o x x') (m : Mark) :
    Follows g url δ limit now o (.mark m x) (.mark m x') :=
  ⟨h.course, h.ending⟩

/-- An activity takes the same course whenever it begins, and no more than some time. -/
def Steady (g : Nat) (url : String) (δ span : Seconds) (x : Activity α) : Prop :=
  ∀ now o, Steps g now → 0 ≤ now → now + span + δ ≤ reach g → o.Exact g url →
    Follows g url δ (now + span) now o x x

theorem steady_done (a : α) : Steady g url δ 0 (done a) :=
  fun now _ hnow _ _ ho => Follows.done hnow (add_zero now).ge ho a

theorem Steady.mark {span : Seconds} {x : Activity α} (hx : Steady g url δ span x) (m : Mark) :
    Steady g url δ span (.mark m x) :=
  fun now o hnow hpos hreach ho => (hx now o hnow hpos hreach ho).mark m

theorem Steady.bind {span span' : Seconds} {x : Activity α} {f : α → Activity β}
    (hx : Steady g url δ span x) (hf : ∀ a, Steady g url δ span' (f a)) (hspan : 0 ≤ span') :
    Steady g url δ (span + span') (x.bind f) := by
  intro now o hnow hpos hreach ho
  have hfirst := hx now o hnow hpos (by linarith) ho
  have hrest : ∀ e, x.outcome now o = some e →
      Follows g url δ (now + (span + span')) e.clock e.outside (f e.answer) (f e.answer) := by
    intro e he
    obtain ⟨hsteps, hle, hexact⟩ := hfirst.ending e he
    have hclock := le_clock_of_outcome he
    have h := hf e.answer e.clock e.outside hsteps (hpos.trans hclock) (by linarith) hexact
    refine ⟨h.course, fun e' he' => ?_⟩
    obtain ⟨hsteps', hle', hexact'⟩ := h.ending e' he'
    exact ⟨hsteps', by linarith, hexact'⟩
  refine ⟨?_, fun e' he' => ?_⟩
  · rw [outcome_bind, outcome_bind, hfirst.course]
    cases he : x.outcome now o with
    | none => rfl
    | some e => exact (hrest e he).course
  · rw [outcome_bind] at he'
    obtain ⟨e, he, he'⟩ := Option.bind_eq_some_iff.mp he'
    exact (hrest e he).ending e' he'

theorem Steady.mono {span span' : Seconds} {x : Activity α} (hx : Steady g url δ span x)
    (h : span ≤ span') : Steady g url δ span' x := by
  intro now o hnow hpos hreach ho
  have hfollows := hx now o hnow hpos (by linarith) ho
  refine ⟨hfollows.course, fun e he => ?_⟩
  obtain ⟨hsteps, hle, hexact⟩ := hfollows.ending e he
  exact ⟨hsteps, by linarith, hexact⟩

/-- What needs no time of its own after an activity. -/
theorem Steady.bind_done {span : Seconds} {x : Activity α} {f : α → Activity β}
    (hx : Steady g url δ span x) (hf : ∀ a, Steady g url δ 0 (f a)) :
    Steady g url δ span (x.bind f) := by
  have h := hx.bind hf le_rfl
  rwa [add_zero] at h

end Activity

/-! ### Questions -/

open Seconds Activity

theorem Outside.steps_pauseTime {g : Nat} {x : Binary64} (hx : ∀ q, x.toRat? = some q → Steps g q)
    {d : Seconds} (hd : pauseTime x = some d) : Steps g d := by
  have hclamp : Steps g (clamp (x.toRat?.getD 0)) := by
    cases h : x.toRat? with
    | none => exact Steps.zero.clamp
    | some q => exact (hx q h).clamp
  unfold pauseTime at hd
  split at hd
  · cases hd
  · cases hd
    exact hclamp

theorem Binary64.isOver_of_toRat? {x : Binary64} {q : Rat} (h : x.toRat? = some q) :
    x.isOver = decide (q ≤ 0) := by
  cases x with
  | finite negative m e =>
    rw [isOver, h, Option.any_some]
    exact fun _ h => nomatch h
  | infinite negative => cases h
  | undefined => cases h

/-- A timeout that is a number comes to its end at a time. -/
theorem Expiry.after_of_toRat? {x : Binary64} {q : Rat} (h : x.toRat? = some q) (start : Seconds) :
    Expiry.after start x = .at (start.after q) := by
  cases x with
  | finite negative m e =>
    rw [Expiry.after, h, Option.getD_some]
    all_goals exact fun h => nomatch h
  | infinite negative => cases h
  | undefined => cases h

namespace Node.Fetcher

variable {g : Nat} {url : String} {δ : Seconds}

theorem attempt_follows (hg : g ≤ 1074) (hδ : Steps g δ) (hδ0 : 0 ≤ δ) (call : Call)
    (timedOut : Problem) {limit : Seconds} (hlimit : Steps g limit) (hreach : limit + δ ≤ reach g)
    (attempts : Nat) {pause : Binary64} (hpause : ∀ q, pause.toRat? = some q → Steps g q)
    {now : Seconds} {o : Outside} (hnow : Steps g now) (hpos : 0 ≤ now) (hlt : now < limit)
    (ho : o.Exact g url) :
    Follows g url δ limit now o (attempt url call timedOut (.at limit) attempts pause)
      (attempt url call timedOut (.at (limit + δ)) attempts pause) := by
  induction attempts generalizing pause now o with
  | zero => exact (Follows.done hnow hlt.le ho _).mark _
  | succ attempts ih =>
    have hlimitpos := hpos.trans hlt.le
    have hserved := ho.serve (w := .post url call) rfl
    refine Follows.wait hg hδ hδ0 hnow hpos hlimit hlt hreach (fun d hd => ho.delay call hd) ?_
      (Follows.done hlimit le_rfl hserved _)
    intro t ht htpos htlt
    dsimp only
    generalize (o.serve (.post url call)).1.2 = reply
    cases classify url call.method reply with
    | ok d => exact (Follows.done ht htlt.le hserved _).mark _
    | error problem =>
      dsimp only
      split
      · exact (Follows.done ht htlt.le hserved _).mark _
      · refine Follows.wait hg hδ hδ0 ht htpos hlimit htlt hreach
          (fun d hd => Outside.steps_pauseTime hpause hd) ?_
          (Follows.done hlimit le_rfl hserved _)
        intro u hu hupos hult
        refine ih (fun q hq => ?_) hu hupos hult hserved
        obtain ⟨r, hr, rfl⟩ := Binary64.toRat?_double hq
        exact (hpause r hr).add (hpause r hr)

/-- The limits of a fetcher are whole numbers of steps. -/
structure Exact (g : Nat) (f : Fetcher) (timeout : Seconds) : Prop where
  value : f.timeout.toRat? = some timeout
  steps : Steps g timeout
  nonneg : 0 ≤ timeout
  backoff : ∀ q, f.backoff.toRat? = some q → Steps g q

variable {f : Fetcher} {timeout : Seconds}

theorem ask_steady (hg : g ≤ 1074) (hδ : Steps g δ) (hδ0 : 0 ≤ δ) (hf : f.Exact g timeout)
    (call : Call) : Steady g f.endpoint.url δ timeout (f.ask call).run := by
  intro now o hnow hpos hreach ho
  have hexpiry {t : Seconds} (ht : Steps g t) (htpos : 0 ≤ t) (htreach : t + timeout ≤ reach g) :
      Expiry.after t f.timeout = .at (t + timeout) := by
    have hsum : t.after timeout = t + timeout := by
      refine nearest_of_steps hg (ht.add hf.steps) ?_
      rwa [abs_of_nonneg (add_nonneg htpos hf.nonneg)]
    rw [Expiry.after_of_toRat? hf.value, hsum]
  rw [ask, ExceptT.run_mk]
  split
  · exact Follows.done hnow (by linarith [hf.nonneg]) ho _
  · rename_i hover
    have hpositive : 0 < timeout := by
      rw [Binary64.isOver_of_toRat? hf.value, decide_eq_true_eq, not_le] at hover
      exact hover
    have h := attempt_follows hg hδ hδ0 call
      (failed (.timedOut call.method f.timeout.text)) (hnow.add hf.steps) hreach
      (f.retries + 1).toNat hf.backoff hnow hpos (by linarith) ho
    rw [← hexpiry hnow hpos (by linarith), add_right_comm,
      ← hexpiry (hnow.add hδ) (add_nonneg hpos hδ0) (by linarith)] at h
    exact ⟨h.course, h.ending⟩

/-- What goes on with an answer without waiting. -/
theorem then_steady {span : Seconds} {x : Asking α} (hx : Steady g url δ span x.run)
    (k : α → Except Problem β) :
    Steady g url δ span (x >>= fun a => Asking.ofExcept (k a)).run := by
  rw [ExceptT.run_bind]
  refine hx.bind_done fun r => ?_
  cases r <;> exact steady_done _

end Node.Fetcher

namespace Chain.Investigation

variable {g : Nat} {δ timeout : Seconds} {f : Node.Fetcher}

theorem findCreation_steady (hg : g ≤ 1074) (hδ : Steps g δ) (hδ0 : 0 ≤ δ)
    (hf : f.Exact g timeout) (hash : Option String) :
    Steady g f.endpoint.url δ timeout (findCreation f hash) := by
  cases hash with
  | none => exact (steady_done _).mono hf.nonneg
  | some hash =>
    have hask := f.ask_steady hg hδ hδ0 hf ⟨"eth_getTransactionByHash", .list [.text hash]⟩
    exact (Node.Fetcher.then_steady (Node.Fetcher.then_steady hask _) _).bind_done
      fun _ => steady_done _

theorem find_steady (hg : g ≤ 1074) (hδ : Steps g δ) (hδ0 : 0 ≤ δ) (hf : f.Exact g timeout)
    (s : Subject) : Steady g f.endpoint.url δ (timeout + timeout) (find f s) := by
  have hask := f.ask_steady hg hδ hδ0 hf
    ⟨"eth_getCode", .list [.text s.address, .text "latest"]⟩
  have hcode : Steady g f.endpoint.url δ timeout (findCode f s) :=
    (Node.Fetcher.then_steady hask _).bind_done fun _ => steady_done _
  refine hcode.bind (fun r => ?_) hf.nonneg
  cases r with
  | error d => exact (steady_done _).mono hf.nonneg
  | ok code =>
    refine (findCreation_steady hg hδ hδ0 hf s.creationTransaction).bind_done fun r => ?_
    cases r <;> exact steady_done _

/-- The work on a chain takes no more than the timeouts of both questions. -/
theorem investigate_steady (hg : g ≤ 1074) (hδ : Steps g δ) (hδ0 : 0 ≤ δ)
    (hf : f.Exact g timeout) (s : Subject) :
    Steady g f.endpoint.url δ (timeout + timeout) (investigate .listing f s) := by
  have hfind : Steady g f.endpoint.url δ (timeout + timeout) (find f s).inSession :=
    ((find_steady hg hδ hδ0 hf s).bind_done fun a => (steady_done a).mark .closed).mark .opened
  refine hfind.bind_done fun r => ?_
  cases r with
  | error d => exact steady_done _
  | ok findings =>
    change Steady g f.endpoint.url δ 0 (judge .listing f.endpoint.chain s.artifact findings)
    rw [judge]
    split
    · exact steady_done _
    · split
      · exact steady_done _
      · exact steady_done _

end Chain.Investigation

end Attest
