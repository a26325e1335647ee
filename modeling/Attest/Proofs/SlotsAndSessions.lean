import Attest.Proofs.ChainIsolation
import Attest.Proofs.ScheduleTimes
import Attest.Proofs.SessionMarks
import Attest.Proofs.SettingsLoaded

/-! # Slots and sessions

A chain takes a slot, opens a session, closes it and gives the slot back, once each and in this order,
whatever comes in between and whenever a deadline strikes. -/

namespace Attest

/-- What a chain does with its slot and its session. -/
inductive Hold where
  | acquired
  | opened
  | closed
  | released
  deriving DecidableEq

/-- All that a chain does with them, from its start to its end. -/
def Hold.life : List Hold := [acquired, opened, closed, released]

def Deed.hold? : Deed → Option Hold
  | acquired => some .acquired
  | opened => some .opened
  | closed => some .closed
  | released => some .released
  | _ => none

theorem Mark.hold_ne_acquired (m : Mark) : m.deed.hold? ≠ some .acquired := by
  cases m <;> exact nofun

theorem Wait.hold_deed (w : Wait) (sent : Nat) : (w.deed sent).hold? = none := by
  cases w <;> rfl

/-- What a chain that has a slot has done in each phase. -/
def Phase.word : Phase → List Hold
  | before => [.acquired]
  | during => [.acquired, .opened]
  | after => [.acquired, .opened, .closed]

theorem Phase.word_next {p p' : Phase} {m : Mark} (h : p.next? m = some p') :
    p'.word = p.word ++ m.deed.hold?.toList := by
  cases p <;> cases m <;> cases h <;> rfl

theorem Phase.word_isPrefix (p : Phase) : p.word <+: Hold.life := by
  cases p <;> decide

namespace Schedule

/-! ### What a log says of slots and sessions -/

/-- What a chain has done with its slot and its session. -/
def holds (log : List Event) (chain : Int) : List Hold :=
  log.filterMap fun e => if e.chain = chain then e.deed.hold? else none

/-- A chain has a slot. -/
def HasSlot (log : List Event) (chain : Int) : Prop :=
  .acquired ∈ holds log chain ∧ .released ∉ holds log chain

/-- A chain has a session open. -/
def HasSession (log : List Event) (chain : Int) : Prop :=
  .opened ∈ holds log chain ∧ .closed ∉ holds log chain

/-- The chains that took a slot, one after the other. -/
def starters (log : List Event) : List Int :=
  log.filterMap fun e => if e.deed.hold? = some .acquired then some e.chain else none

variable {log events : List Event} {chain c : Int} {e : Event}

theorem holds_append : holds (log ++ events) c = holds log c ++ holds events c :=
  List.filterMap_append

theorem starters_append : starters (log ++ events) = starters log ++ starters events :=
  List.filterMap_append

theorem holds_of_ne (h : ∀ e ∈ events, e.chain ≠ c) : holds events c = [] := by
  refine List.filterMap_eq_nil_iff.mpr fun e he => ?_
  rw [if_neg (h e he)]

theorem holds_singleton (e : Event) : holds [e] e.chain = e.deed.hold?.toList := by
  rw [holds]
  cases h : e.deed.hold? <;> simp [h]

theorem mem_holds_singleton {step : Hold} :
    step ∈ holds [e] c ↔ e.chain = c ∧ e.deed.hold? = some step := by
  simp [holds]

theorem starters_eq_nil (h : ∀ e ∈ events, e.deed.hold? ≠ some .acquired) : starters events = [] := by
  refine List.filterMap_eq_nil_iff.mpr fun e he => ?_
  rw [if_neg (h e he)]

theorem mem_starters : c ∈ starters log ↔ .acquired ∈ holds log c := by
  simp only [starters, holds, List.mem_filterMap, Option.ite_none_right_eq_some, Option.some.injEq]
  exact exists_congr fun e => and_congr_right fun _ => and_comm

theorem eq_of_prefix_life {word : List Hold} (h : word <+: Hold.life) :
    word = [] ∨ (∃ p : Phase, word = p.word) ∨ word = Hold.life := by
  rw [← List.mem_inits] at h
  simp only [Hold.life, List.inits, List.map_cons, List.map_nil, List.mem_cons, List.not_mem_nil,
    or_false] at h
  rcases h with rfl | rfl | rfl | rfl | rfl
  · exact .inl rfl
  · exact .inr (.inl ⟨.before, rfl⟩)
  · exact .inr (.inl ⟨.during, rfl⟩)
  · exact .inr (.inl ⟨.after, rfl⟩)
  · exact .inr (.inr rfl)

theorem HasSession.hasSlot (hlife : holds log c <+: Hold.life) (h : HasSession log c) :
    HasSlot log c := by
  obtain ⟨hopened, hclosed⟩ := h
  unfold HasSlot
  obtain hword | ⟨p, hword⟩ | hword := eq_of_prefix_life hlife <;> rw [hword] at hopened hclosed ⊢
  · cases hopened
  · cases p
    · exact absurd hopened (by decide)
    · exact ⟨by decide, by decide⟩
    · exact absurd (by decide) hclosed
  · exact absurd (by decide) hclosed

/-- A log in which each chain goes through its life, and none takes a slot when all are taken. -/
inductive Legal (slots : Nat) : List Event → Prop
  | nil : Legal slots []
  | plain {log : List Event} {e : Event} (h : Legal slots log) (he : e.deed.hold? = none) :
      Legal slots (log ++ [e])
  | hold {log : List Event} {e : Event} {step : Hold} (h : Legal slots log)
      (he : e.deed.hold? = some step) (hlife : holds log e.chain ++ [step] <+: Hold.life)
      (hfree : step = .acquired → ∀ chains : List Int, chains.Nodup →
        (∀ c ∈ chains, HasSlot log c) → chains.length < slots) : Legal slots (log ++ [e])

namespace Legal

variable {slots : Nat}

theorem of_past {past : List Event} (h : Legal slots log) (hpast : past <+: log) :
    Legal slots past := by
  induction h with
  | nil =>
    rw [List.prefix_nil.mp hpast]
    exact .nil
  | plain h he ih =>
    obtain rfl | hpast := List.prefix_concat_iff.mp hpast
    · exact h.plain he
    · exact ih hpast
  | hold h he hlife hfree ih =>
    obtain rfl | hpast := List.prefix_concat_iff.mp hpast
    · exact h.hold he hlife hfree
    · exact ih hpast

theorem holds_snoc_of_ne (hne : e.chain ≠ c) : holds (log ++ [e]) c = holds log c := by
  have hnil : holds [e] c = [] := holds_of_ne (by simpa using hne)
  rw [holds_append, hnil, List.append_nil]

theorem holds_snoc_self : holds (log ++ [e]) e.chain = holds log e.chain ++ e.deed.hold?.toList := by
  rw [holds_append, holds_singleton]

theorem holds_snoc_of_none (he : e.deed.hold? = none) (c : Int) :
    holds (log ++ [e]) c = holds log c := by
  by_cases hc : e.chain = c
  · subst hc
    rw [holds_snoc_self, he]
    exact List.append_nil _
  · exact holds_snoc_of_ne hc

theorem life (h : Legal slots log) (c : Int) : holds log c <+: Hold.life := by
  induction h with
  | nil => exact List.nil_prefix
  | plain h he ih =>
    rw [holds_snoc_of_none he]
    exact ih
  | @hold log e step h he hlife _ ih =>
    by_cases hc : e.chain = c
    · subst hc
      rw [holds_snoc_self, he]
      exact hlife
    · rw [holds_snoc_of_ne hc]
      exact ih

/-- No more chains have a slot than there are slots. -/
theorem length_le (h : Legal slots log) {chains : List Int} (hnodup : chains.Nodup)
    (hslot : ∀ c ∈ chains, HasSlot log c) : chains.length ≤ slots := by
  induction h generalizing chains with
  | nil =>
    cases chains with
    | nil => exact Nat.zero_le _
    | cons c chains => exact absurd (hslot c List.mem_cons_self).1 List.not_mem_nil
  | plain h he ih =>
    refine ih hnodup fun c hc => ?_
    have := hslot c hc
    rwa [HasSlot, holds_snoc_of_none he] at this
  | @hold log e step h he hlife hfree ih =>
    by_cases hstep : step = .acquired
    · have hothers (c : Int) (hc : c ∈ chains.erase e.chain) : HasSlot log c := by
        obtain ⟨hne, hmem⟩ := (List.Nodup.mem_erase_iff hnodup).mp hc
        have := hslot c hmem
        rwa [HasSlot, holds_snoc_of_ne (Ne.symm hne)] at this
      have hrest := hfree hstep _ (hnodup.erase _) hothers
      have hlength : chains.length - 1 ≤ (chains.erase e.chain).length := List.le_length_erase
      omega
    · refine ih hnodup fun c hc => ?_
      obtain ⟨hacquired, hreleased⟩ := hslot c hc
      rw [holds_append, List.mem_append] at hacquired hreleased
      refine ⟨hacquired.resolve_right fun hmem => hstep ?_, fun hmem => hreleased (.inl hmem)⟩
      exact Option.some_inj.mp (he.symm.trans (mem_holds_singleton.mp hmem).2)

end Legal

/-! ### Up to the next wait -/

section Advance

variable {slots : Nat} {x : Activity α} {p : Phase} (clock : Seconds) (outside : Outside) (sent : Nat)

/-- Up to its next wait, a chain does nothing for others, and does not take a slot. -/
theorem of_mem_advance_log (chain : Int) (inSession : Bool) (x : Activity α) :
    ∀ e ∈ (advance chain clock outside sent inSession x).log,
      e.chain = chain ∧ e.deed.hold? ≠ some .acquired := by
  induction x generalizing inSession with
  | done a => simp [advance]
  | mark m rest ih =>
    exact List.forall_mem_cons.mpr ⟨⟨rfl, m.hold_ne_acquired⟩, ih _⟩
  | time next ih => exact ih clock inSession
  | wait w expiry next ih =>
    refine List.forall_mem_singleton.mpr ⟨rfl, ?_⟩
    simp [Wait.hold_deed]

/-- What is left of an activity that brings a session to its end. -/
def Standing.Brings : Standing α → Phase → Prop
  | finished _, p => p = .after
  | waiting _ answered next, p =>
      p ≠ .before ∧ next.Brings p .after ∧ (answered = true → p = .during → next.Settles)

/-- Up to its next wait, a chain goes on with its life. -/
theorem legal_advance {inSession : Bool} (hx : x.Brings p .after) (hlog : Legal slots log)
    (hword : holds log chain = p.word) (hsession : inSession = p.isDuring) :
    ∃ p' : Phase, Legal slots (log ++ (advance chain clock outside sent inSession x).log) ∧
      holds (log ++ (advance chain clock outside sent inSession x).log) chain = p'.word ∧
      (advance chain clock outside sent inSession x).inSession = p'.isDuring ∧
      (advance chain clock outside sent inSession x).standing.Brings p' := by
  induction x generalizing log p inSession with
  | done a =>
    rw [advance, List.append_nil]
    exact ⟨p, hlog, hword, hsession, hx⟩
  | mark m rest ih =>
    obtain ⟨p', hp', hrest⟩ := hx
    have hinside : m.inSession inSession = p'.isDuring := by
      rw [hsession, Phase.inSession_next hp']
    let e : Event := ⟨clock, chain, m.deed⟩
    have hnext : holds (log ++ [e]) chain = p'.word := by
      rw [Phase.word_next hp', ← hword]
      exact Legal.holds_snoc_self (e := e)
    have hlegal : Legal slots (log ++ [e]) := by
      cases hstep : e.deed.hold? with
      | none => exact hlog.plain hstep
      | some step =>
        refine hlog.hold hstep ?_ fun hacquired => ?_
        · have hself : holds (log ++ [e]) chain = holds log chain ++ [step] := by
            rw [Legal.holds_snoc_self (e := e), hstep]
            rfl
          exact (hself.symm.trans hnext) ▸ p'.word_isPrefix
        · exact absurd (hacquired ▸ hstep) m.hold_ne_acquired
    obtain ⟨q, h⟩ := ih hrest hlegal hnext hinside
    rw [List.append_assoc, List.singleton_append] at h
    exact ⟨q, h⟩
  | time next ih => exact ih clock (hx clock) hlog hword hsession
  | wait w expiry next ih =>
    obtain ⟨hp, hnext, hsettles⟩ := hx
    have hnone : (⟨clock, chain, w.deed sent⟩ : Event).deed.hold? = none := w.hold_deed sent
    refine ⟨p, hlog.plain hnone, (Legal.holds_snoc_of_none hnone chain).trans hword, hsession, ?_⟩
    rw [advance]
    dsimp only
    split
    · exact ⟨hp, hnext _, fun h => absurd h Bool.false_ne_true⟩
    · exact ⟨hp, hnext _, fun _ h => hsettles h _⟩
    · exact ⟨hp, hnext _, fun h => absurd h Bool.false_ne_true⟩

end Advance

/-! ### States -/

/-- A chain that waits, as its log has it. -/
structure Running.Held (log : List Event) (r : Running α) (p : Phase) : Prop where
  word : holds log r.chain = p.word
  session : r.inSession = p.isDuring
  started : p ≠ .before
  brings : r.next.Brings p .after
  settles : r.answered = true → p = .during → r.next.Settles

/-- What others do makes no difference to a chain. -/
theorem Running.Held.append {r : Running α} {p : Phase} (h : r.Held log p)
    (hothers : ∀ e ∈ events, e.chain ≠ r.chain) : r.Held (log ++ events) p := by
  refine { h with word := ?_ }
  rw [holds_append, holds_of_ne hothers, List.append_nil]
  exact h.word

/-- What is true of slots and sessions between two steps, while some chains are being carried on. -/
structure State.Orderly (slots : Nat) (ids inHand : List Int) (s : State α) : Prop where
  legal : Legal slots s.log
  count : s.free + inHand.length + s.running.length ≤ slots
  apart : (inHand ++ s.running.map (·.chain)).Nodup
  running : ∀ r ∈ s.running, ∃ p, r.Held s.log p
  /-- Who has no slot has never had one, or has come to an end. -/
  others : ∀ c, c ∉ inHand → c ∉ s.running.map (·.chain) →
    holds s.log c = [] ∨ holds s.log c = Hold.life
  starters : starters s.log ++ s.queue.map (·.chain) <+: ids
  queue : ∀ job ∈ s.queue, job.activity.Brings .before .after
  orders : (s.running.map (·.order)).Nodup
  fresh : ∀ r ∈ s.running, r.order < s.waits

namespace State.Orderly

variable {slots : Nat} {ids inHand : List Int} {s : State α}

/-- A chain in hand does something that takes no slot. -/
theorem record (hs : s.Orderly slots ids (chain :: inHand)) (hlegal : Legal slots (s.log ++ events))
    (hevents : ∀ e ∈ events, e.chain = chain ∧ e.deed.hold? ≠ some .acquired) :
    (s.record events).Orderly slots ids (chain :: inHand) := by
  have hother {c : Int} (hc : c ≠ chain) : holds (s.log ++ events) c = holds s.log c := by
    rw [holds_append, holds_of_ne fun e he => (hevents e he).1.trans_ne hc.symm, List.append_nil]
  refine { hs with legal := hlegal, running := ?_, others := ?_, starters := ?_ }
  · intro r hr
    obtain ⟨p, hheld⟩ := hs.running r hr
    refine ⟨p, hheld.append fun e he => (hevents e he).1.trans_ne ?_⟩
    rintro rfl
    exact (List.nodup_cons.mp hs.apart).1 (List.mem_append_right _ (List.mem_map_of_mem hr))
  · intro c hc hrunning
    have h := hs.others c hc hrunning
    rwa [← hother (List.ne_of_not_mem_cons hc)] at h
  · have hnil : Schedule.starters events = [] := starters_eq_nil fun e he => (hevents e he).2
    show Schedule.starters (s.log ++ events) ++ s.queue.map (·.chain) <+: ids
    rw [starters_append, hnil, List.append_nil]
    exact hs.starters

/-- A chain in hand that has come to its end gives back its slot. -/
theorem release (hs : s.Orderly slots ids (chain :: inHand)) (hlife : holds s.log chain = Hold.life) :
    ({ s with free := s.free + 1 } : State α).Orderly slots ids inHand := by
  refine { hs with count := ?_, apart := (List.nodup_cons.mp hs.apart).2, others := ?_ }
  · have := hs.count
    simp only [List.length_cons] at this
    show s.free + 1 + inHand.length + s.running.length ≤ slots
    omega
  · intro c hc hrunning
    by_cases heq : c = chain
    · exact .inr (heq ▸ hlife)
    · exact hs.others c (by simp [heq, hc]) hrunning

/-- A chain in hand begins to wait. -/
theorem await {r : Running α} {p : Phase} (hs : s.Orderly slots ids (r.chain :: inHand))
    (hheld : r.Held s.log p) (horder : r.order = s.waits) :
    ({ s with running := s.running ++ [r], waits := s.waits + 1 } : State α).Orderly slots ids
      inHand := by
  refine { hs with count := ?_, apart := ?_, running := ?_, others := ?_, orders := ?_, fresh := ?_ }
  · have := hs.count
    simp only [List.length_cons, List.length_append, List.length_nil] at this ⊢
    omega
  · rw [List.map_append, ← List.append_assoc]
    exact (List.perm_append_singleton r.chain _).nodup_iff.mpr hs.apart
  · rw [List.forall_mem_append, List.forall_mem_singleton]
    exact ⟨hs.running, p, hheld⟩
  · intro c hc hrunning
    rw [List.map_append, List.mem_append, not_or] at hrunning
    have hne : c ≠ r.chain := by simpa using hrunning.2
    exact hs.others c (by simp [hne, hc]) hrunning.1
  · rw [List.map_append, List.nodup_append]
    refine ⟨hs.orders, List.nodup_singleton _, ?_⟩
    intro order hmem new hnew
    obtain ⟨q, hq, rfl⟩ := List.mem_map.mp hmem
    rw [List.map_singleton, List.mem_singleton] at hnew
    rw [hnew, horder]
    exact (hs.fresh q hq).ne
  · rw [List.forall_mem_append, List.forall_mem_singleton, horder]
    exact ⟨fun q hq => (hs.fresh q hq).trans (Nat.lt_succ_self _), Nat.lt_succ_self _⟩

/-- A chain in hand whose session is closed comes to its end. -/
theorem leave (hs : s.Orderly slots ids (chain :: inHand))
    (hword : holds s.log chain = Phase.after.word) (time : Seconds) :
    (({ s with free := s.free + 1 } : State α).record [⟨time, chain, .released⟩]).Orderly slots ids
      inHand := by
  let e : Event := ⟨time, chain, .released⟩
  have hlife : holds (s.log ++ [e]) chain = Hold.life := by
    rw [Legal.holds_snoc_self (e := e), hword]
    rfl
  have hlegal : Legal slots (s.log ++ [e]) := by
    refine hs.legal.hold rfl ?_ nofun
    rw [hword]
    exact List.prefix_rfl
  have hevents : ∀ e' ∈ [e], e'.chain = chain ∧ e'.deed.hold? ≠ some .acquired :=
    List.forall_mem_singleton.mpr ⟨rfl, nofun⟩
  exact { (hs.record hlegal hevents).release hlife with }

/-- What a chain in hand does up to its next wait. -/
theorem carryOn {x : Activity α} {p : Phase} {inSession : Bool}
    (hs : s.Orderly slots ids (chain :: inHand)) (hx : x.Brings p .after)
    (hword : holds s.log chain = p.word) (hsession : inSession = p.isDuring) (sent : Nat) :
    (s.carryOn chain sent inSession x).Orderly slots ids inHand := by
  obtain ⟨p', hlegal, hword', hsession', hstanding⟩ :=
    legal_advance s.clock s.outside sent hx hs.legal hword hsession
  have hrecorded := hs.record hlegal (of_mem_advance_log s.clock s.outside sent chain inSession x)
  cases h : (advance chain s.clock s.outside sent inSession x).standing with
  | finished a =>
    rw [h] at hstanding
    obtain rfl : p' = .after := hstanding
    rw [carryOn_of_finished chain sent inSession h]
    exact { hrecorded.leave hword' s.clock with }
  | waiting wake answered next =>
    rw [h] at hstanding
    obtain ⟨hp', hnext, hsettles⟩ := hstanding
    rw [carryOn_of_waiting chain sent inSession h]
    exact { hrecorded.await (r := ⟨chain, s.waits, wake, answered, next, _, _⟩)
      ⟨hword', hsession', hp', hnext, hsettles⟩ rfl with }

/-- A chain from the queue has done nothing yet. -/
theorem holds_of_queue {job : Job α} {queue : List (Job α)} (hids : ids.Nodup)
    (hs : ({ s with queue := job :: queue } : State α).Orderly slots ids inHand)
    (hmem : job.chain ∉ inHand) : holds s.log job.chain = [] ∧ job.chain ∉ s.running.map (·.chain) := by
  have hnew : job.chain ∉ Schedule.starters s.log := by
    have hnodup := (hids.sublist hs.starters.sublist)
    rw [List.nodup_append] at hnodup
    exact fun h => hnodup.2.2 _ h _ List.mem_cons_self rfl
  rw [mem_starters] at hnew
  have hrunning : job.chain ∉ s.running.map (·.chain) := by
    intro h
    obtain ⟨r, hr, hchain⟩ := List.mem_map.mp h
    obtain ⟨p, hheld⟩ := hs.running r hr
    rw [← hchain, hheld.word] at hnew
    cases p <;> exact hnew (by decide)
  refine ⟨(hs.others _ hmem hrunning).resolve_right fun hlife => ?_, hrunning⟩
  rw [hlife] at hnew
  exact hnew (by decide)

/-- Who has a slot is at work. -/
theorem mem_running_of_hasSlot {c : Int} (hs : s.Orderly slots ids []) (h : HasSlot s.log c) :
    c ∈ s.running.map (·.chain) := by
  by_contra hrunning
  obtain ⟨hacquired, hreleased⟩ := h
  obtain hword | hword := hs.others c List.not_mem_nil hrunning <;> rw [hword] at hacquired hreleased
  · cases hacquired
  · exact hreleased (by decide)

/-- A chain from the queue takes a slot that is free. -/
theorem acquire {job : Job α} {queue : List (Job α)} (hids : ids.Nodup) (hfree : s.free ≠ 0)
    (hs : ({ s with queue := job :: queue } : State α).Orderly slots ids []) :
    ({ s.acquire job.chain with queue } : State α).Orderly slots ids [job.chain] ∧
      holds (s.acquire job.chain).log job.chain = Phase.before.word := by
  obtain ⟨hnothing, hapart⟩ := hs.holds_of_queue hids List.not_mem_nil
  let e : Event := ⟨s.clock, job.chain, .acquired⟩
  have hself : holds (s.log ++ [e]) job.chain = Phase.before.word := by
    rw [Legal.holds_snoc_self (e := e), hnothing]
    rfl
  have hlegal : Legal slots (s.log ++ [e]) := by
    refine hs.legal.hold rfl ?_ fun _ chains hnodup hslot => ?_
    · rw [hnothing]
      exact ⟨_, rfl⟩
    · have hsub : chains ⊆ s.running.map (·.chain) := fun c hc => hs.mem_running_of_hasSlot (hslot c hc)
      have hlength := (List.subperm_of_subset hnodup hsub).length_le
      have hcount : s.free + 0 + s.running.length ≤ slots := hs.count
      rw [List.length_map] at hlength
      omega
  have hother {c : Int} (hc : c ≠ job.chain) : holds (s.log ++ [e]) c = holds s.log c :=
    Legal.holds_snoc_of_ne (e := e) hc.symm
  refine ⟨?_, hself⟩
  refine { hs with
    legal := hlegal, count := ?_, apart := ?_, running := ?_, others := ?_, starters := ?_, queue := ?_ }
  · have hcount : s.free + 0 + s.running.length ≤ slots := hs.count
    show s.free - 1 + 1 + s.running.length ≤ slots
    omega
  · exact List.nodup_cons.mpr ⟨hapart, hs.apart⟩
  · intro r hr
    obtain ⟨p, hheld⟩ := hs.running r hr
    have hother : ∀ e' ∈ [e], e'.chain ≠ r.chain := by
      refine List.forall_mem_singleton.mpr fun hchain => ?_
      have hmem : r.chain ∈ s.running.map (·.chain) := List.mem_map_of_mem hr
      rw [← hchain] at hmem
      exact hapart hmem
    exact ⟨p, hheld.append hother⟩
  · intro c hc hrunning
    have h := hs.others c List.not_mem_nil hrunning
    rwa [← hother (by simpa using hc)] at h
  · show Schedule.starters (s.log ++ [e]) ++ queue.map (·.chain) <+: ids
    rw [starters_append, List.append_assoc]
    exact hs.starters
  · exact fun j hj => hs.queue j (List.mem_cons_of_mem job hj)

theorem grant {queue : List (Job α)} (hids : ids.Nodup)
    (hs : ({ s with queue } : State α).Orderly slots ids []) :
    (s.grant queue).Orderly slots ids [] := by
  refine grant_induction (I := fun t => t.Orderly slots ids []) ?_ hs
  intro s job queue hfree hs
  obtain ⟨hacquired, hword⟩ := hs.acquire hids hfree
  exact hacquired.carryOn (hs.queue job List.mem_cons_self) hword rfl 0

theorem takeUp {r : Running α} (hs : s.Orderly slots ids []) (hr : r ∈ s.running) (time : Seconds) :
    (s.takeUp r time).Orderly slots ids [r.chain] := by
  have hperm := perm_cons_filter_order hs.orders hr
  have hsub : (s.running.filter fun q => q.order != r.order).Sublist s.running := List.filter_sublist
  have hchains := hperm.map (·.chain)
  refine { hs with
    count := ?_, apart := ?_, running := fun q hq => hs.running q (hsub.subset hq), others := ?_
    orders := hs.orders.sublist (hsub.map _), fresh := fun q hq => hs.fresh q (hsub.subset hq) }
  · have hcount : s.free + 0 + s.running.length ≤ slots := hs.count
    have hlength := hperm.length_eq
    rw [List.length_cons] at hlength
    show s.free + 1 + (s.running.filter fun q => q.order != r.order).length ≤ slots
    omega
  · exact hchains.nodup_iff.mp hs.apart
  · intro c hc hrunning
    refine hs.others c List.not_mem_nil fun hmem => ?_
    obtain rfl | hmem := List.mem_cons.mp (hchains.mem_iff.mp hmem)
    · exact hc List.mem_cons_self
    · exact hrunning hmem

theorem resume {r : Running α} (hids : ids.Nodup) (hs : s.Orderly slots ids []) (hr : r ∈ s.running)
    (time : Seconds) : (s.resume r time).Orderly slots ids [] := by
  obtain ⟨p, hheld⟩ := hs.running r hr
  exact grant hids ((hs.takeUp hr time).carryOn hheld.brings hheld.word hheld.session r.sent)

theorem proceed (hids : ids.Nodup) (hs : s.Orderly slots ids []) (deadline : Expiry) (fuel : Nat) :
    (s.proceed deadline fuel).Orderly slots ids [] := by
  refine proceed_induction (I := fun t => t.Orderly slots ids []) (fun s r t hdue hs => ?_) hs fuel
  exact hs.resume hids (due?_eq_some hdue).1 t

/-! ### The strike -/

theorem dismiss {r : Running α} {p : Phase} (hs : s.Orderly slots ids (r.chain :: inHand))
    (hheld : r.Held s.log p) (time : Seconds) : (s.dismiss time r).Orderly slots ids inHand := by
  have hsession := hheld.session
  cases p with
  | before => exact absurd rfl hheld.started
  | during =>
    let e : Event := ⟨time, r.chain, .closed⟩
    have hword : holds (s.log ++ [e]) r.chain = Phase.after.word := by
      rw [Legal.holds_snoc_self (e := e), hheld.word]
      rfl
    have hlegal : Legal slots (s.log ++ [e]) := by
      refine hs.legal.hold rfl ?_ nofun
      rw [hheld.word]
      decide
    have hclosed := hs.record hlegal (List.forall_mem_singleton.mpr ⟨rfl, nofun⟩)
    have hleft := hclosed.leave hword time
    rw [State.dismiss, show r.inSession = true from hsession]
    simpa [State.record, e] using hleft
  | after =>
    rw [State.dismiss, hsession]
    exact hs.leave hheld.word time

/-- States before and after a chain did something. -/
def Adds (chain : Int) (s s' : State α) : Prop :=
  ∃ events, s'.log = s.log ++ events ∧ ∀ e ∈ events, e.chain = chain

theorem adds_carryOn (chain : Int) (sent : Nat) (inSession : Bool) (x : Activity α) :
    Adds chain s (s.carryOn chain sent inSession x) := by
  have hlog := fun e he => (of_mem_advance_log s.clock s.outside sent chain inSession x e he).1
  cases h : (advance chain s.clock s.outside sent inSession x).standing with
  | finished a =>
    rw [carryOn_of_finished chain sent inSession h]
    refine ⟨_, List.append_assoc _ _ _, ?_⟩
    rw [List.forall_mem_append, List.forall_mem_singleton]
    exact ⟨hlog, rfl⟩
  | waiting wake answered next =>
    rw [carryOn_of_waiting chain sent inSession h]
    exact ⟨_, rfl, hlog⟩

theorem adds_dismiss (time : Seconds) (r : Running α) : Adds r.chain s (s.dismiss time r) := by
  refine ⟨_, rfl, ?_⟩
  cases r.inSession <;> simp

theorem adds_overhear (time : Seconds) (r : Running α) : Adds r.chain s (s.overhear time r) :=
  ⟨_, rfl, fun e he => (of_mem_advance_log time s.outside r.sent r.chain r.inSession r.next e he).1⟩

theorem Adds.trans {s' s'' : State α} (h : Adds chain s s') (h' : Adds chain s' s'') :
    Adds chain s s'' := by
  obtain ⟨events, hlog, hevents⟩ := h
  obtain ⟨more, hmore, hrest⟩ := h'
  refine ⟨events ++ more, ?_, List.forall_mem_append.mpr ⟨hevents, hrest⟩⟩
  rw [hmore, hlog, List.append_assoc]

/-- A state in which some chains are about to be struck. -/
structure Struck (slots : Nat) (ids : List Int) (struck : List (Running α)) (s : State α) : Prop where
  orderly : s.Orderly slots ids (struck.map (·.chain))
  held : ∀ r ∈ struck, ∃ p, r.Held s.log p

theorem Struck.others {r : Running α} {rest : List (Running α)} {s' : State α}
    (hs : Struck slots ids (r :: rest) s) (h : Adds r.chain s s') :
    ∀ q ∈ rest, ∃ p, q.Held s'.log p := by
  intro q hq
  obtain ⟨p, hheld⟩ := hs.held q (List.mem_cons_of_mem r hq)
  obtain ⟨events, hlog, hevents⟩ := h
  refine ⟨p, ?_⟩
  rw [hlog]
  refine hheld.append fun e he => (hevents e he).trans_ne fun hchain => ?_
  have hmem : q.chain ∈ rest.map (·.chain) := List.mem_map_of_mem hq
  rw [← hchain] at hmem
  exact (List.nodup_cons.mp hs.orderly.apart).1 (List.mem_append_left _ hmem)

/-- What is answered in a session does not end the work without being settled. -/
theorem settled_or_waiting {x : Activity α} (hx : x.Settles) (chain : Int) (clock : Seconds)
    (outside : Outside) (sent : Nat) (inSession : Bool) :
    (advance chain clock outside sent inSession x).log.any (·.deed.isSettled) = true ∨
      ∃ wake answered next,
        (advance chain clock outside sent inSession x).standing = .waiting wake answered next := by
  induction x generalizing inSession with
  | done a => exact hx.elim
  | mark m rest ih =>
    cases hx
    exact .inl rfl
  | time next ih => exact ih clock (hx clock) inSession
  | wait w expiry next ih =>
    right
    rw [advance]
    dsimp only
    split <;> exact ⟨_, _, _, rfl⟩

theorem strikeOne {r : Running α} {rest : List (Running α)} (hs : Struck slots ids (r :: rest) s)
    (time : Seconds) (turns : Nat) : Struck slots ids rest (State.strikeOne time turns s r) := by
  refine strikeOne_induction (P := fun s r => Struck slots ids (r :: rest) s) ?_ ?_ ?_ ?_ hs turns
  · intro s r hs
    obtain ⟨p, hheld⟩ := hs.held r List.mem_cons_self
    exact ⟨hs.orderly.dismiss hheld time, hs.others (adds_dismiss time r)⟩
  · intro s r hs _ _
    obtain ⟨p, hheld⟩ := hs.held r List.mem_cons_self
    exact ⟨hs.orderly.carryOn hheld.brings hheld.word hheld.session r.sent,
      hs.others (adds_carryOn r.chain r.sent r.inSession r.next)⟩
  · intro s r a hs hanswered hunsettled hfinished
    obtain ⟨p, hheld⟩ := hs.held r List.mem_cons_self
    obtain ⟨p', hlegal, hword, hsession, hstanding⟩ := legal_advance time s.outside r.sent
      hheld.brings hs.orderly.legal hheld.word hheld.session
    rw [hfinished] at hstanding
    obtain rfl : p' = .after := hstanding
    -- The work cannot end where a question is still open, so that the session is not closed twice.
    have hclosed : r.inSession = false := by
      rw [hheld.session]
      cases p with
      | before => rfl
      | during =>
        obtain hsettled | ⟨wake, answered, next, hwaiting⟩ := settled_or_waiting
          (hheld.settles hanswered rfl) r.chain time s.outside r.sent r.inSession
        · exact absurd hsettled hunsettled
        · cases hfinished.symm.trans hwaiting
      | after => rfl
    have hrecorded := hs.orderly.record hlegal
      (of_mem_advance_log time s.outside r.sent r.chain r.inSession r.next)
    refine ⟨?_, hs.others ((adds_overhear time r).trans (adds_dismiss time r))⟩
    rw [State.dismiss, hclosed]
    exact { hrecorded.leave hword time with }
  · intro s r wake answered next hs hanswered hunsettled hwaiting
    obtain ⟨p, hheld⟩ := hs.held r List.mem_cons_self
    obtain ⟨p', hlegal, hword, hsession, hstanding⟩ := legal_advance time s.outside r.sent
      hheld.brings hs.orderly.legal hheld.word hheld.session
    rw [hwaiting] at hstanding
    obtain ⟨hp', hnext, hsettles⟩ := hstanding
    refine ⟨?_, List.forall_mem_cons.mpr ⟨⟨p', hword, hsession, hp', hnext, hsettles⟩,
      hs.others (adds_overhear time r)⟩⟩
    exact { hs.orderly.record hlegal
      (of_mem_advance_log time s.outside r.sent r.chain r.inSession r.next) with }

theorem strikeAll (hs : s.Orderly slots ids []) (time : Seconds) :
    (s.strikeAll time).Orderly slots ids [] := by
  have hstruck : Struck slots ids s.running
      ({ s with clock := time, running := [], queue := [] } : State α) := by
    refine ⟨{ hs with
      count := ?_, apart := ?_, running := nofun, others := ?_, starters := ?_, queue := nofun
      orders := List.nodup_nil, fresh := nofun }, hs.running⟩
    · have hcount : s.free + 0 + s.running.length ≤ slots := hs.count
      simpa using hcount
    · simpa using hs.apart
    · exact fun c hc _ => hs.others c List.not_mem_nil hc
    · exact (List.append_nil _).symm ▸ (List.prefix_append _ _).trans hs.starters
  exact (strikeAll_induction (I := Struck slots ids) (fun r rest s hs => strikeOne hs time lastTurns)
    hstruck).orderly

theorem strike (hids : ids.Nodup) (hs : s.Orderly slots ids []) (deadline : Expiry) (fuel : Nat) :
    (s.strike deadline fuel).Orderly slots ids [] := by
  rw [State.strike]
  split
  · exact hs
  · exact { (hs.strikeAll _).proceed hids .never fuel with }

end State.Orderly

theorem orderly_run {slots waits : Nat} {clock : Seconds} {deadline : Expiry} {outside : Outside}
    {jobs : List (Job α)} (hids : (jobs.map (·.chain)).Nodup)
    (hjobs : ∀ job ∈ jobs, job.activity.Brings .before .after) :
    (run slots waits clock deadline outside jobs).Orderly slots (jobs.map (·.chain)) [] := by
  have hstart : ({ clock, outside, free := slots, queue := jobs } : State α).Orderly slots
      (jobs.map (·.chain)) [] :=
    { legal := .nil, count := le_rfl, apart := List.nodup_nil, running := nofun
      others := fun _ _ _ => .inl rfl, starters := List.prefix_rfl, queue := hjobs
      orders := List.nodup_nil, fresh := nofun }
  have hopening := State.Orderly.grant (s := { clock, outside, free := slots, queue := jobs }) hids
    hstart
  have hbefore : ((State.grant { clock, outside, free := slots, queue := jobs } jobs).before
      deadline).Orderly slots (jobs.map (·.chain)) [] := by
    rw [State.before]
    split
    · exact hopening
    · exact { hopening with }
  exact (hbefore.proceed hids deadline _).strike hids deadline _

/-- How a schedule treats slots and sessions, at any time and at its end. -/
structure State.Disciplined (slots : Nat) (ids : List Int) (s : State α) : Prop where
  /-- The log tells things in the order in which they happened. -/
  times : s.log.Pairwise (·.time ≤ ·.time)
  slots : ∀ past, past <+: s.log → ∀ chains : List Int, chains.Nodup →
    (∀ c ∈ chains, HasSlot past c) → chains.length ≤ slots
  sessions : ∀ past, past <+: s.log → ∀ c, HasSession past c → HasSlot past c
  life : ∀ past, past <+: s.log → ∀ c, holds past c <+: Hold.life
  ascending : (starters s.log).Pairwise (· < ·)
  /-- Who never started had to wait for those before, and none of those behind started either. -/
  unstarted : ∀ a ∈ ids, a ∉ starters s.log → ∀ b, a < b → b ∉ starters s.log
  /-- Who is not at work any more never had a slot, or has closed the session and left the slot. -/
  ended : ∀ c, c ∉ s.running.map (·.chain) → holds s.log c = [] ∨ holds s.log c = Hold.life
  /-- Who is still at work waits for what never comes, and the schedule does not end. -/
  running : ∀ r ∈ s.running, r.wake = none

theorem State.Orderly.disciplined {slots : Nat} {ids : List Int} {s : State α} {since : Seconds}
    (hs : s.Orderly slots ids []) (hids : ids.Pairwise (· < ·)) (htimed : s.Timed since [])
    (hrunning : ∀ r ∈ s.running, r.wake = none) : s.Disciplined slots ids := by
  obtain ⟨rest, hrest⟩ := (List.prefix_append _ _).trans hs.starters
  obtain ⟨hascending, -, hbehind⟩ := List.pairwise_append.mp (hrest ▸ hids)
  refine {
    times := ?_
    slots := fun past hpast chains hnodup hslot => (hs.legal.of_past hpast).length_le hnodup hslot
    sessions := fun past hpast c h => h.hasSlot ((hs.legal.of_past hpast).life c)
    life := fun past hpast c => (hs.legal.of_past hpast).life c
    ascending := hascending
    unstarted := ?_
    ended := fun c hc => hs.others c List.not_mem_nil hc
    running := hrunning }
  · obtain ⟨events, hlog, hsorted, -⟩ := htimed.log
    rw [hlog]
    exact hsorted
  · intro a ha hnot b hab hb
    rw [← hrest] at ha
    have hlt := hbehind b hb a ((List.mem_append.mp ha).resolve_left hnot)
    omega

theorem disciplined_run {slots waits : Nat} {clock : Seconds} {deadline : Expiry}
    {outside : Outside} {jobs : List (Job α)} (hids : (jobs.map (·.chain)).Pairwise (· < ·))
    (hjobs : ∀ job ∈ jobs, job.activity.Brings .before .after)
    (hwaits : ∀ job ∈ jobs, job.activity.AtMost waits) :
    (run slots waits clock deadline outside jobs).Disciplined slots (jobs.map (·.chain)) :=
  (orderly_run (hids.imp ne_of_lt) hjobs).disciplined hids timed_run
    fun _ hr => wake_of_mem_running hwaits hr

end Schedule

/-! ### Surveys -/

/-- An engine is waited for once at most. -/
theorem Engine.atMost_ofName {name : Document} {engine : Engine} (h : ofName name = .ok engine)
    (code : Bytes) : (engine.decompile code).AtMost 1 := by
  obtain rfl | rfl := eq_of_ofName h
  · trivial
  · intro answer
    cases answer <;> trivial

namespace Chain.Survey

variable {s : Settings} {engine : Engine} {chain : Document} {ids : List Int}

/-- In a survey no more chains than there is room for have a slot at a time. They start in the order of
their numbers. Whatever they come to, also when they break down or are struck, each of them opens one
session, while it has its slot, and closes it once. -/
theorem slots_and_sessions (hs : s.Sensible) {name : Document} (hengine : Engine.ofName name = .ok engine)
    (htargets : targets s chain = .ok ids) (subject : Subject) (clock : Seconds) (deadline : Binary64)
    (outside : Outside) :
    ∃ result, run s engine subject chain clock deadline outside = .ok result ∧
      result.final.Disciplined s.maxInFlight.toNat ids := by
  have hslots : 0 ≤ s.maxInFlight := Int.le_trans (by decide) hs.slots
  refine ⟨_, run_of_targets htargets hslots, ?_⟩
  have hchains : (jobs s engine subject ids).map (·.chain) = ids :=
    map_chain_jobs fun id => mem_chains_of_mem_targets htargets
  have hascending := pairwise_targets hs.chains htargets
  rw [← hchains] at hascending
  have hdisciplined : (schedule s clock deadline outside (jobs s engine subject ids)).Disciplined
      s.maxInFlight.toNat ((jobs s engine subject ids).map (·.chain)) := by
    refine Schedule.disciplined_run hascending (fun job hjob => ?_) fun job hjob =>
      jobs_atMost hjob (Engine.atMost_ofName hengine)
    obtain ⟨id, -, e, -, rfl⟩ := mem_jobs.mp hjob
    exact Investigation.investigate_brings engine _ subject (Engine.hasNoSession_of_ofName hengine)
  rwa [hchains] at hdisciplined

/-- Two chains, of which one at a time may be at work. -/
def oneAtATime : Settings :=
  { chains := [⟨1, "mainnet", "u1"⟩, ⟨10, "optimism", "u10"⟩], maxInFlight := 1 }

/-- A node that takes longer than a deadline of five seconds. -/
def slowNode : Outside := { nodes := [("u1", [⟨10, .unreachable ""⟩])] }

theorem slots_and_sessions_oneAtATime :
    oneAtATime.Sensible ∧ Engine.ofName (.text "evmdasm") = .ok .listing ∧
      targets oneAtATime .null = .ok [1, 10] ∧
      ∃ result, run oneAtATime .listing ⟨"0x", none, none⟩ .null 0 (.ofInt 5) slowNode = .ok result ∧
        result.final.Disciplined 1 [1, 10] ∧ Schedule.starters result.final.log = [1] ∧
        Schedule.holds result.final.log 1 = Hold.life := by
  have hs : oneAtATime.Sensible := ⟨by decide, by decide⟩
  have hengine : Engine.ofName (.text "evmdasm") = .ok Engine.listing := rfl
  have htargets : targets oneAtATime .null = .ok [1, 10] := by
    exact congrArg Except.ok (List.mergeSort_of_pairwise (by decide))
  have hlog : let log := (schedule oneAtATime 0 (.ofInt 5) slowNode
      (jobs oneAtATime .listing ⟨"0x", none, none⟩ [1, 10])).log
      Schedule.starters log = [1] ∧ Schedule.holds log 1 = Hold.life := by
    decide +kernel
  obtain ⟨result, hrun, hdisciplined⟩ :=
    slots_and_sessions hs hengine htargets ⟨"0x", none, none⟩ 0 (.ofInt 5) slowNode
  obtain rfl := Except.ok.inj ((run_of_targets htargets (by decide)).symm.trans hrun)
  exact ⟨hs, hengine, htargets, _, hrun, hdisciplined, hlog⟩

end Chain.Survey

end Attest
