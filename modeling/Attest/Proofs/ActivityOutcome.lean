import Attest.Schedule
import Mathlib.Algebra.Order.Ring.Rat
import Mathlib.Order.Lattice.Nat

/-! What comes of an activity that nothing else disturbs, and how far it depends on the outside: one that
asks a single node needs nothing but what this node has to say. -/

namespace Attest

/-! ### The responses of one node -/

namespace Outside

/-- The responses that a node has left. -/
def script (o : Outside) (url : String) : List Node.Response := (o.nodes.lookup url).getD []

/-- An outside with one node. -/
def ofScript (url : String) (responses : List Node.Response) : Outside :=
  { nodes := [(url, responses)] }

/-- The part of the outside that is one node. -/
def only (o : Outside) (url : String) : Outside := ofScript url (o.script url)

theorem take_fst (url : String) (nodes : List (String × List Node.Response)) :
    (take url nodes).1 = ((nodes.lookup url).getD []).head?.getD .silence := by
  induction nodes with
  | nil => rfl
  | cons n ns ih =>
    obtain ⟨u, responses⟩ := n
    by_cases h : u = url
    · subst h
      cases responses <;> simp [take]
    · have hne : (url == u) = false := beq_eq_false_iff_ne.mpr (Ne.symm h)
      rw [take, if_neg h, List.lookup_cons, hne]
      exact ih

theorem lookup_take_self (url : String) (nodes : List (String × List Node.Response)) :
    ((take url nodes).2.lookup url).getD [] = ((nodes.lookup url).getD []).tail := by
  induction nodes with
  | nil => rfl
  | cons n ns ih =>
    obtain ⟨u, responses⟩ := n
    by_cases h : u = url
    · subst h
      cases responses <;> simp [take]
    · have hne : (url == u) = false := beq_eq_false_iff_ne.mpr (Ne.symm h)
      rw [take, if_neg h, List.lookup_cons, List.lookup_cons, hne]
      exact ih

theorem lookup_take_of_ne {url other : String} (hne : other ≠ url)
    (nodes : List (String × List Node.Response)) :
    (take url nodes).2.lookup other = nodes.lookup other := by
  induction nodes with
  | nil => rfl
  | cons n ns ih =>
    obtain ⟨u, responses⟩ := n
    by_cases h : u = url
    · subst h
      have hbeq : (other == u) = false := beq_eq_false_iff_ne.mpr hne
      cases responses <;> simp [take, List.lookup_cons, hbeq]
    · rw [take, if_neg h, List.lookup_cons, List.lookup_cons, ih]

@[simp] theorem script_ofScript (url : String) (responses : List Node.Response) :
    (ofScript url responses).script url = responses := by
  simp [script, ofScript]

@[simp] theorem only_only (o : Outside) (url : String) : (o.only url).only url = o.only url := by
  simp [only]

end Outside

/-! ### Waits for one node -/

/-- A wait for a given node, or for nothing but time. -/
def Wait.IsLocal (url : String) : Wait → Prop
  | post u _ => u = url
  | pause _ => True
  | run _ => False

namespace Outside

variable {url : String} {w : Wait}

theorem serve_only (o : Outside) (hw : w.IsLocal url) :
    (o.only url).serve w = ((o.serve w).1, (o.serve w).2.only url) := by
  cases w with
  | post u call =>
    obtain rfl : u = url := hw
    have hself := lookup_take_self u o.nodes
    have hfst := take_fst u o.nodes
    cases h : o.script u with
    | nil =>
      rw [script] at h
      rw [h] at hself hfst
      simp only [serve, only, ofScript, script, h, hself, hfst, take, if_pos]
      rfl
    | cons r rs =>
      rw [script] at h
      rw [h] at hself hfst
      simp only [serve, only, ofScript, script, h, hself, hfst, take, if_pos]
      rfl
  | pause seconds => rfl
  | run command => exact hw.elim

theorem only_serve_of_ne {other : String} (o : Outside) (hw : w.IsLocal url) (hne : other ≠ url) :
    (o.serve w).2.only other = o.only other := by
  cases w with
  | post u call =>
    obtain rfl : u = url := hw
    simp only [serve, only, script, lookup_take_of_ne hne]
  | pause seconds => rfl
  | run command => exact hw.elim

end Outside

/-! ### Properties of activities -/

namespace Activity

/-- All that an activity waits for has one property, and all that may come of it another. -/
def All (q : Wait → Prop) (p : α → Prop) : Activity α → Prop
  | done a => p a
  | mark _ rest => rest.All q p
  | time next => ∀ now, (next now).All q p
  | wait w _ next => q w ∧ ∀ answer, (next answer).All q p

theorem All.imp {q : Wait → Prop} {p p' : α → Prop} {x : Activity α} (hx : x.All q p)
    (h : ∀ a, p a → p' a) : x.All q p' := by
  induction x with
  | done a => exact h a hx
  | mark m rest ih => exact ih hx
  | time next ih => exact fun now => ih now (hx now)
  | wait w expiry next ih => exact ⟨hx.1, fun answer => ih answer (hx.2 answer)⟩

theorem All.bind {q : Wait → Prop} {p : α → Prop} {p' : β → Prop} {x : Activity α}
    {f : α → Activity β} (hx : x.All q p) (hf : ∀ a, p a → (f a).All q p') :
    (x.bind f).All q p' := by
  induction x with
  | done a => exact hf a hx
  | mark m rest ih => exact ih hx
  | time next ih => exact fun now => ih now (hx now)
  | wait w expiry next ih => exact ⟨hx.1, fun answer => ih answer (hx.2 answer)⟩

/-- An activity waits no more than a number of times. -/
def AtMost : Nat → Activity α → Prop
  | _, done _ => True
  | n, mark _ rest => AtMost n rest
  | n, time next => ∀ now, AtMost n (next now)
  | 0, wait .. => False
  | n + 1, wait _ _ next => ∀ answer, AtMost n (next answer)

theorem AtMost.mono {m n : Nat} {x : Activity α} (hx : x.AtMost m) (h : m ≤ n) : x.AtMost n := by
  induction x generalizing m n with
  | done a => trivial
  | mark mark rest ih => exact ih hx h
  | time next ih => exact fun now => ih now (hx now) h
  | wait w expiry next ih =>
    cases m with
    | zero => exact hx.elim
    | succ m =>
      cases n with
      | zero => exact absurd h (Nat.not_succ_le_zero m)
      | succ n => exact fun answer => ih answer (hx answer) (Nat.le_of_succ_le_succ h)

theorem AtMost.bind {m n : Nat} {x : Activity α} {f : α → Activity β} (hx : x.AtMost m)
    (hf : ∀ a, (f a).AtMost n) : (x.bind f).AtMost (m + n) := by
  induction x generalizing m with
  | done a => exact (hf a).mono (Nat.le_add_left n m)
  | mark mark rest ih => exact ih hx
  | time next ih => exact fun now => ih now (hx now)
  | wait w expiry next ih =>
    cases m with
    | zero => exact hx.elim
    | succ m =>
      rw [Nat.succ_add]
      exact fun answer => ih answer (hx answer)

/-- The greatest number of waits in an activity. -/
noncomputable def mostWaits (x : Activity α) : Nat := sInf {n | x.AtMost n}

theorem AtMost.mostWaits {n : Nat} {x : Activity α} (hx : x.AtMost n) : x.AtMost x.mostWaits :=
  Nat.sInf_mem (s := {n | x.AtMost n}) ⟨n, hx⟩

theorem mostWaits_le {n : Nat} {x : Activity α} (hx : x.AtMost n) : x.mostWaits ≤ n :=
  Nat.sInf_le hx

end Activity

/-! ### Outcomes -/

/-- When the end of a wait comes, none if never. -/
def End.time? : End → Option Seconds
  | never => none
  | answered t | expired t => some t

theorem Seconds.le_notBefore (now t : Seconds) : now ≤ Seconds.notBefore now t := by
  unfold Seconds.notBefore
  split_ifs with h
  · exact le_rfl
  · exact le_of_not_gt h

/-- No wait ends before it begins. -/
theorem Expiry.le_of_endOf {e : Expiry} {now t : Seconds} {delay : Option Seconds}
    (h : (e.endOf now delay).time? = some t) : now ≤ t := by
  unfold Expiry.endOf at h
  split at h
  · dsimp only at h
    split at h
    · split_ifs at h
      · cases h
        exact Seconds.le_notBefore now _
      · cases h
        exact Seconds.le_notBefore now _
    · split_ifs at h
      · cases h
        exact Seconds.le_notBefore now _
      · cases h
        exact le_rfl
    · cases h
      exact Seconds.le_notBefore now _
  · split at h
    · cases h
      exact Seconds.le_notBefore now _
    · cases h
      exact le_rfl
    · cases h

namespace Activity

/-- What came of an activity, when, and what it left of the outside. -/
structure Ending (α : Type) where
  answer : α
  clock : Seconds
  outside : Outside

/-- What comes of an activity with nothing else going on, none if it waits for ever. -/
def outcome (clock : Seconds) (outside : Outside) : Activity α → Option (Ending α)
  | done a => some ⟨a, clock, outside⟩
  | mark _ rest => rest.outcome clock outside
  | time next => (next clock).outcome clock outside
  | wait w expiry next =>
      match expiry.endOf clock (outside.serve w).1.1 with
      | .never => none
      | .answered t => (next (some (outside.serve w).1.2)).outcome t (outside.serve w).2
      | .expired t => (next none).outcome t (outside.serve w).2

theorem outcome_solo (chain : Int) (clock : Seconds) (outside : Outside) (sent : Nat)
    (x : Activity α) :
    x.outcome clock outside =
      (x.solo chain clock outside sent).answer.map fun a =>
        ⟨a, (x.solo chain clock outside sent).clock, (x.solo chain clock outside sent).outside⟩ := by
  induction x generalizing clock outside sent with
  | done a => rfl
  | mark m rest ih => exact ih clock outside sent
  | time next ih => exact ih clock clock outside sent
  | wait w expiry next ih =>
    rw [outcome, solo]
    obtain ⟨⟨delay, answer⟩, rest⟩ := outside.serve w
    dsimp only
    cases expiry.endOf clock delay with
    | never => rfl
    | answered t => exact ih _ _ _ _
    | expired t => exact ih _ _ _ _

theorem outcome_bind (clock : Seconds) (outside : Outside) (x : Activity α) (f : α → Activity β) :
    (x.bind f).outcome clock outside =
      (x.outcome clock outside).bind fun e => (f e.answer).outcome e.clock e.outside := by
  induction x generalizing clock outside with
  | done a => rfl
  | mark m rest ih => exact ih clock outside
  | time next ih => exact ih clock clock outside
  | wait w expiry next ih =>
    rw [bind, outcome, outcome]
    cases expiry.endOf clock (outside.serve w).1.1 with
    | never => rfl
    | answered t => exact ih _ _ _
    | expired t => exact ih _ _ _

theorem All.outcome {q : Wait → Prop} {p : α → Prop} {x : Activity α} (hx : x.All q p)
    {clock : Seconds} {outside : Outside} {e : Ending α} (h : x.outcome clock outside = some e) :
    p e.answer := by
  induction x generalizing clock outside with
  | done a =>
    cases h
    exact hx
  | mark m rest ih => exact ih hx h
  | time next ih => exact ih clock (hx clock) h
  | wait w expiry next ih =>
    rw [Activity.outcome] at h
    split at h
    · cases h
    · exact ih _ (hx.2 _) h
    · exact ih _ (hx.2 _) h

theorem le_clock_of_outcome {x : Activity α} {clock : Seconds} {outside : Outside} {e : Ending α}
    (h : x.outcome clock outside = some e) : clock ≤ e.clock := by
  induction x generalizing clock outside with
  | done a =>
    cases h
    exact le_rfl
  | mark m rest ih => exact ih h
  | time next ih => exact ih clock h
  | wait w expiry next ih =>
    rw [outcome] at h
    cases hend : expiry.endOf clock (outside.serve w).1.1 with
    | never =>
      rw [hend] at h
      cases h
    | answered t =>
      rw [hend] at h
      exact (Expiry.le_of_endOf (by rw [hend]; rfl)).trans (ih _ h)
    | expired t =>
      rw [hend] at h
      exact (Expiry.le_of_endOf (by rw [hend]; rfl)).trans (ih _ h)

end Activity

end Attest
