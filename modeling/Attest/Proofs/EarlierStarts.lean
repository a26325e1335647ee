import Attest.Chain.Investigation
import Attest.Proofs.ActivityOutcome
import Attest.Proofs.Rounding

/-! # Earlier starts

Work that begins earlier comes to the same, and no later, however clocks round, as long as its patience
lasts for the same waits. -/

namespace Attest

/-- Patience that ends no later than other patience. -/
def Expiry.NoLater : Expiry → Expiry → Prop
  | .at t', .at t => t' ≤ t
  | .atOnce, .atOnce => True
  | .never, .never => True
  | _, _ => False

namespace Seconds

theorem notBefore_eq_max (now t : Seconds) : now.notBefore t = max now t := by
  rw [notBefore]
  split_ifs with h
  · exact (max_eq_left h.le).symm
  · exact (max_eq_right (not_lt.mp h)).symm

theorem notBefore_mono {now' now t' t : Seconds} (hnow : now' ≤ now) (ht : t' ≤ t) :
    now'.notBefore t' ≤ now.notBefore t := by
  rw [notBefore_eq_max, notBefore_eq_max]
  exact max_le_max hnow ht

theorem after_mono {start' start : Seconds} (h : start' ≤ start) (span : Seconds) :
    start'.after span ≤ start.after span :=
  nearest_mono (add_le_add_left h span)

end Seconds

namespace Expiry

variable {e e' : Expiry} {now now' u u' : Seconds} {delay : Option Seconds}

theorem noLater_after (h : now' ≤ now) (x : Binary64) :
    (Expiry.after now' x).NoLater (Expiry.after now x) := by
  cases x with
  | finite negative m exponent => exact Seconds.after_mono h _
  | infinite negative => cases negative <;> trivial
  | undefined => trivial

/-- An answer comes when its delay is over. -/
theorem of_endOf_answered (h : e.endOf now delay = .answered u) :
    ∃ d, delay = some d ∧ u = now.notBefore (now.after d) := by
  cases delay with
  | none => cases e <;> cases h
  | some d =>
    refine ⟨d, rfl, ?_⟩
    unfold endOf at h
    cases e with
    | «at» t =>
      dsimp only at h
      split_ifs at h
      · exact (End.answered.inj h).symm
    | atOnce =>
      dsimp only at h
      split_ifs at h
      · exact (End.answered.inj h).symm
    | never => exact (End.answered.inj h).symm

/-- When patience is at its end, which has to be in the future. -/
def limit (now : Seconds) : Expiry → Seconds
  | .at t => now.notBefore t
  | _ => now

theorem of_endOf_expired (h : e.endOf now delay = .expired u) : u = e.limit now := by
  unfold endOf at h
  cases delay with
  | none => cases e <;> cases h <;> rfl
  | some d =>
    cases e with
    | «at» t =>
      dsimp only at h
      split_ifs at h
      · exact (End.expired.inj h).symm
    | atOnce =>
      dsimp only at h
      split_ifs at h
      · exact (End.expired.inj h).symm
    | never => cases h

theorem limit_mono (he : e'.NoLater e) (hnow : now' ≤ now) : e'.limit now' ≤ e.limit now := by
  cases e' <;> cases e <;> try exact he.elim
  · exact Seconds.notBefore_mono hnow he
  · exact hnow
  · exact hnow

end Expiry

namespace Activity

/-- Which of an activity's waits are answered, one after the other, with nothing else going on. -/
def answered (clock : Seconds) (outside : Outside) : Activity α → List Bool
  | done _ => []
  | mark _ rest => rest.answered clock outside
  | time next => (next clock).answered clock outside
  | wait w expiry next =>
      match expiry.endOf clock (outside.serve w).1.1 with
      | .never => []
      | .answered t => true :: (next (some (outside.serve w).1.2)).answered t (outside.serve w).2
      | .expired t => false :: (next none).answered t (outside.serve w).2

/-- The same activity, with patience that ends no later wherever the clock is no later. -/
inductive Hastens : Activity α → Activity α → Prop
  | done (a : α) : Hastens (.done a) (.done a)
  | mark (m : Mark) {x' x : Activity α} (h : Hastens x' x) : Hastens (.mark m x') (.mark m x)
  | time {next' next : Seconds → Activity α} (h : ∀ t' t, t' ≤ t → Hastens (next' t') (next t)) :
      Hastens (.time next') (.time next)
  | wait {w : Wait} {e' e : Expiry} {next' next : Option w.Answer → Activity α} (he : e'.NoLater e)
      (h : ∀ answer, Hastens (next' answer) (next answer)) :
      Hastens (.wait w e' next') (.wait w e next)

theorem Hastens.bind {x' x : Activity α} {f' f : α → Activity β} (hx : Hastens x' x)
    (hf : ∀ a, Hastens (f' a) (f a)) : Hastens (x'.bind f') (x.bind f) := by
  induction hx with
  | done a => exact hf a
  | mark m h ih => exact .mark m ih
  | time h ih => exact .time ih
  | wait he h ih => exact .wait he ih

/-- What begins earlier and has the same waits answered comes to the same, and no later. -/
theorem Hastens.outcome {x' x : Activity α} (h : Hastens x' x) {t' t : Seconds} (ht : t' ≤ t)
    {o : Outside} (hsame : x'.answered t' o = x.answered t o) {e : Ending α}
    (he : x.outcome t o = some e) :
    ∃ e', x'.outcome t' o = some e' ∧ e'.answer = e.answer ∧ e'.clock ≤ e.clock := by
  induction h generalizing t' t o with
  | done a =>
    cases he
    exact ⟨_, rfl, rfl, ht⟩
  | mark m h ih => exact ih ht hsame he
  | time h ih => exact ih t' t ht ht hsame he
  | @wait w p' p next' next hp h ih =>
    rw [answered, answered] at hsame
    rw [Activity.outcome] at he ⊢
    cases hend : p.endOf t (o.serve w).1.1 with
    | never =>
      rw [hend] at he
      cases he
    | answered u =>
      rw [hend] at he hsame
      cases hend' : p'.endOf t' (o.serve w).1.1 with
      | answered u' =>
        rw [hend'] at hsame
        obtain ⟨d, hd, rfl⟩ := Expiry.of_endOf_answered hend
        obtain ⟨d', hd', rfl⟩ := Expiry.of_endOf_answered hend'
        obtain rfl : d = d' := Option.some.inj (hd.symm.trans hd')
        exact ih _ (Seconds.notBefore_mono ht (Seconds.after_mono ht d)) (List.cons.inj hsame).2 he
      | never => simp [hend'] at hsame
      | expired u' => simp [hend'] at hsame
    | expired u =>
      rw [hend] at he hsame
      cases hend' : p'.endOf t' (o.serve w).1.1 with
      | expired u' =>
        rw [hend'] at hsame
        obtain rfl := Expiry.of_endOf_expired hend
        obtain rfl := Expiry.of_endOf_expired hend'
        exact ih _ (Expiry.limit_mono hp ht) (List.cons.inj hsame).2 he
      | never => simp [hend'] at hsame
      | answered u' => simp [hend'] at hsame

end Activity

/-! ### The work on a chain -/

open Activity

namespace Node.Fetcher

variable (f : Fetcher)

theorem attempt_hastens (url : String) (call : Call) (timedOut : Problem) {e' e : Expiry}
    (he : e'.NoLater e) (attempts : Nat) (pause : Binary64) :
    Hastens (attempt url call timedOut e' attempts pause)
      (attempt url call timedOut e attempts pause) := by
  induction attempts generalizing pause with
  | zero => exact .mark _ (.done _)
  | succ attempts ih =>
    refine .wait he fun reply => ?_
    cases reply with
    | none => exact .done _
    | some reply =>
      dsimp only
      cases classify url call.method reply with
      | ok d => exact .mark _ (.done _)
      | error problem =>
        dsimp only
        split
        · exact .mark _ (.done _)
        · refine .wait he fun rested => ?_
          cases rested with
          | none => exact .done _
          | some rested => exact ih pause.double

theorem ask_hastens (call : Call) : Hastens (f.ask call).run (f.ask call).run := by
  rw [ask, ExceptT.run_mk]
  split
  · exact .done _
  · exact .time fun t' t ht => attempt_hastens _ _ _ (Expiry.noLater_after ht f.timeout) _ _

/-- What goes on with an answer without waiting. -/
theorem then_hastens {x : Asking α} (hx : Hastens x.run x.run) (k : α → Except Problem β) :
    Hastens (x >>= fun a => Asking.ofExcept (k a)).run
      (x >>= fun a => Asking.ofExcept (k a)).run := by
  rw [ExceptT.run_bind]
  refine hx.bind fun r => ?_
  cases r <;> exact .done _

end Node.Fetcher

namespace Chain.Investigation

theorem find_hastens (f : Node.Fetcher) (s : Subject) : Hastens (find f s) (find f s) := by
  have hcode : Hastens (findCode f s) (findCode f s) :=
    (Node.Fetcher.then_hastens (f.ask_hastens _) _).bind fun _ => .done _
  refine hcode.bind fun r => ?_
  cases r with
  | error d => exact .done _
  | ok code =>
    have hcreation : Hastens (findCreation f s.creationTransaction)
        (findCreation f s.creationTransaction) := by
      cases s.creationTransaction with
      | none => exact .done _
      | some hash =>
        refine Hastens.bind ?_ fun _ => .done _
        exact Node.Fetcher.then_hastens (Node.Fetcher.then_hastens (f.ask_hastens _) _) _
    refine hcreation.bind fun r => ?_
    cases r <;> exact .done _

/-- All the patience in the work on a chain begins with a look at the clock. -/
theorem investigate_hastens (f : Node.Fetcher) (s : Subject) :
    Hastens (investigate .listing f s) (investigate .listing f s) := by
  have hsession : Hastens (find f s).inSession (find f s).inSession :=
    .mark _ ((find_hastens f s).bind fun _ => .mark _ (.done _))
  refine hsession.bind fun r => ?_
  cases r with
  | error d => exact .done _
  | ok findings =>
    dsimp only
    rw [judge]
    split
    · exact .done _
    · split <;> exact .done _

end Chain.Investigation

end Attest
