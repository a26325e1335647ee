import Attest.Chain.Survey
import Attest.Proofs.Outcome
import Mathlib.Data.List.Nodup

/-! Which chains a survey is about, and the jobs that it gives out for them. -/

namespace Attest

/-! ### Endpoints -/

namespace Settings

variable {s : Settings} {id : Int} {e : Endpoint}

theorem endpoint?_mem (h : s.endpoint? id = some e) : e ∈ s.chains ∧ e.chain = id :=
  ⟨List.mem_of_find?_eq_some h, by simpa using List.find?_some h⟩

theorem exists_endpoint? (he : e ∈ s.chains) : ∃ e', s.endpoint? e.chain = some e' := by
  cases h : s.endpoint? e.chain with
  | none =>
    have := List.find?_eq_none.mp h e he
    simp at this
  | some e' => exact ⟨e', rfl⟩

theorem endpoint?_eq_some (hchains : (s.chains.map (·.chain)).Nodup) (he : e ∈ s.chains) :
    s.endpoint? e.chain = some e := by
  obtain ⟨e', h⟩ := exists_endpoint? he
  obtain ⟨he', hchain⟩ := endpoint?_mem h
  rw [h, List.inj_on_of_nodup_map hchains he' he hchain]

end Settings

/-! ### Numbers as keys -/

namespace Document

variable {d : Document} {i j : Int}

/-- What is the same as an integer is a number of its value. -/
theorem isSameKey_int_iff : d.isSameKey (.int i) = true ↔ d.rational? = some (i : Rat) := by
  have hi : (int i).rational? = some (i : Rat) := rfl
  generalize (int i) = e at hi ⊢
  unfold isSameKey
  split
  · cases hi
  · cases hi
  · cases hi
  · rw [hi]
    cases d.rational? with
    | none => simp
    | some x => simp

theorem unique_of_isSameKey (hi : d.isSameKey (.int i) = true)
    (hj : d.isSameKey (.int j) = true) : i = j := by
  rw [isSameKey_int_iff] at hi hj
  exact Rat.intCast_inj.mp (Option.some_inj.mp (hi.symm.trans hj))

theorem asKey_eq_ok_of_isSameKey (h : d.isSameKey (.int i) = true) :
    d.asKey = .ok d := by
  rw [isSameKey_int_iff] at h
  cases d with
  | list _ => cases h
  | object _ => cases h
  | _ => rfl

end Document

namespace Chain.Survey

/-! ### Targets -/

theorem ascending_perm (ids : List Int) : (ascending ids).Perm ids := List.mergeSort_perm ids _

theorem pairwise_ascending (ids : List Int) : (ascending ids).Pairwise (· ≤ ·) := by
  have htrans (a b c : Int) (hab : decide (a ≤ b) = true) (hbc : decide (b ≤ c) = true) :
      decide (a ≤ c) = true :=
    decide_eq_true (Int.le_trans (of_decide_eq_true hab) (of_decide_eq_true hbc))
  have htotal (a b : Int) : (decide (a ≤ b) || decide (b ≤ a)) = true := by
    rw [Bool.or_eq_true, decide_eq_true_eq, decide_eq_true_eq]
    exact Int.le_total a b
  exact (List.pairwise_mergeSort htrans htotal ids).imp of_decide_eq_true

variable {s : Settings} {chain : Document} {ids : List Int}

/-- The targets are all chains that are configured, or one of them that the request names. -/
theorem targets_cases (h : targets s chain = .ok ids) :
    (chain = .null ∧ ids = ascending (s.chains.map (·.chain)) ∧ ids ≠ []) ∨
      ∃ key e, chain.asKey = .ok key ∧
        (s.chains.find? fun e => key.isSameKey (.int e.chain)) = some e ∧ chain ≠ .null ∧
        ids = [e.chain] := by
  unfold targets at h
  split at h
  · left
    split at h
    · cases h
    · rename_i hempty
      cases h
      refine ⟨rfl, rfl, fun hnil => hempty ?_⟩
      have hlength := (ascending_perm (s.chains.map (·.chain))).length_eq
      rw [hnil, List.length_nil, List.length_map] at hlength
      rw [List.isEmpty_iff, List.length_eq_zero_iff.mp hlength.symm]
  · rename_i hnull
    right
    obtain ⟨key, hkey, h⟩ := Except.bind_eq_ok_iff.mp h
    rw [Except.mapError_eq_ok_iff] at hkey
    cases hfind : s.chains.find? fun e => key.isSameKey (.int e.chain) with
    | none =>
      simp only [hfind] at h
      cases h
    | some e =>
      simp only [hfind] at h
      cases h
      exact ⟨key, e, hkey, hfind, hnull, rfl⟩

theorem mem_chains_of_mem_targets (h : targets s chain = .ok ids) {id : Int} (hid : id ∈ ids) :
    ∃ e ∈ s.chains, e.chain = id := by
  obtain ⟨_, rfl, _⟩ | ⟨key, e, _, hfind, _, rfl⟩ := targets_cases h
  · rw [(ascending_perm _).mem_iff] at hid
    exact List.mem_map.mp hid
  · rw [List.mem_singleton.mp hid]
    exact ⟨e, List.mem_of_find?_eq_some hfind, rfl⟩

theorem endpoint_of_targets (h : targets s chain = .ok ids) {id : Int} (hid : id ∈ ids) :
    ∃ e, s.endpoint? id = some e := by
  obtain ⟨e, he, rfl⟩ := mem_chains_of_mem_targets h hid
  exact Settings.exists_endpoint? he

theorem pairwise_targets (hchains : (s.chains.map (·.chain)).Nodup)
    (h : targets s chain = .ok ids) : ids.Pairwise (· < ·) := by
  obtain ⟨_, rfl, _⟩ | ⟨key, e, _, _, _, rfl⟩ := targets_cases h
  · have hnodup := ((ascending_perm _).nodup_iff).mpr hchains
    exact (pairwise_ascending _).imp₂ (fun a b hle hne => by omega) hnodup
  · exact List.pairwise_singleton _ _

/-- A target stays one when no other chain is configured. -/
theorem targets_alone (h : targets s chain = .ok ids) (hchains : (s.chains.map (·.chain)).Nodup)
    {e : Endpoint} (he : e ∈ s.chains) (hid : e.chain ∈ ids) :
    targets { s with chains := [e] } chain = .ok [e.chain] := by
  obtain ⟨rfl, rfl, _⟩ | ⟨key, e', hkey, hfind, hnull, rfl⟩ := targets_cases h
  · exact congrArg Except.ok (List.mergeSort_singleton e.chain)
  · obtain rfl := List.inj_on_of_nodup_map hchains he (List.mem_of_find?_eq_some hfind)
      (List.mem_singleton.mp hid)
    have hsame := List.find?_some hfind
    unfold targets
    split
    · exact absurd rfl hnull
    · simp only [hkey, Except.mapError_ok, bind, Except.bind, List.find?_cons, hsame]
      rfl

/-! ### Requested chains -/

/-- The chains that are configured and that a request is about. -/
def requested (s : Settings) : Document → List Int
  | .null => s.chains.map (·.chain)
  | d => (s.chains.map (·.chain)).filter fun id => d.isSameKey (.int id)

theorem requested_of_ne_null (hnull : chain ≠ .null) :
    requested s chain = (s.chains.map (·.chain)).filter fun id => chain.isSameKey (.int id) := by
  cases chain with
  | null => exact absurd rfl hnull
  | _ => rfl

/-- Of several chains, the one that a request names is the only one. -/
theorem requested_eq_singleton (hchains : (s.chains.map (·.chain)).Nodup) (hnull : chain ≠ .null)
    {id : Int} (hid : id ∈ requested s chain) : requested s chain = [id] := by
  rw [requested_of_ne_null hnull] at hid ⊢
  apply List.perm_singleton.mp
  rw [List.perm_ext_iff_of_nodup (hchains.filter _) (List.nodup_singleton id)]
  intro j
  rw [List.mem_singleton]
  constructor
  · intro hj
    exact Document.unique_of_isSameKey (List.mem_filter.mp hj).2 (List.mem_filter.mp hid).2
  · rintro rfl
    exact hid

theorem exists_targets (h : requested s chain ≠ []) : ∃ ids, targets s chain = .ok ids := by
  by_cases hnull : chain = .null
  · rw [hnull] at h ⊢
    refine ⟨_, if_neg fun hempty => h ?_⟩
    rw [requested, List.isEmpty_iff.mp hempty, List.map_nil]
  · obtain ⟨id, hid⟩ := List.exists_mem_of_ne_nil _ h
    rw [requested_of_ne_null hnull, List.mem_filter] at hid
    obtain ⟨hmem, hsame⟩ := hid
    obtain ⟨e, he, rfl⟩ := List.mem_map.mp hmem
    unfold targets
    split
    · exact absurd rfl hnull
    · rw [Document.asKey_eq_ok_of_isSameKey hsame]
      cases hfind : s.chains.find? fun e => chain.isSameKey (.int e.chain) with
      | none => exact absurd hsame (List.find?_eq_none.mp hfind e he)
      | some e' => exact ⟨[e'.chain], by simp only [Except.mapError_ok, bind, Except.bind, hfind]; rfl⟩

/-- A survey is about the requested chains, and refuses to be about none. -/
theorem targets_eq_ok_iff (hchains : (s.chains.map (·.chain)).Nodup) :
    targets s chain = .ok ids ↔ ids = ascending (requested s chain) ∧ requested s chain ≠ [] := by
  have hforward {ids : List Int} (h : targets s chain = .ok ids) :
      ids = ascending (requested s chain) ∧ requested s chain ≠ [] := by
    obtain ⟨rfl, rfl, hne⟩ | ⟨key, e, hkey, hfind, hnull, rfl⟩ := targets_cases h
    · refine ⟨rfl, fun hnil => hne ?_⟩
      exact List.perm_nil.mp (hnil ▸ ascending_perm (s.chains.map (·.chain)))
    · have hsame := List.find?_some hfind
      obtain rfl : chain = key := by
        cases chain <;> cases hkey <;> rfl
      have hid : e.chain ∈ requested s chain := by
        rw [requested_of_ne_null hnull, List.mem_filter]
        exact ⟨List.mem_map_of_mem (List.mem_of_find?_eq_some hfind), hsame⟩
      rw [requested_eq_singleton hchains hnull hid]
      exact ⟨(List.mergeSort_singleton e.chain).symm, List.cons_ne_nil _ _⟩
  constructor
  · exact hforward
  · rintro ⟨rfl, hne⟩
    obtain ⟨ids, hids⟩ := exists_targets hne
    rw [hids, (hforward hids).1]

/-! ### Jobs -/

variable {engine : Engine} {subject : Subject}

theorem mem_jobs {job : Schedule.Job (Except Defect Entry)} :
    job ∈ jobs s engine subject ids ↔ ∃ id ∈ ids, ∃ e, s.endpoint? id = some e ∧
      job = ⟨id, Investigation.investigate engine (.ofSettings e s) subject⟩ := by
  simp only [jobs, List.mem_filterMap, Option.map_eq_some_iff]
  refine exists_congr fun id => and_congr_right fun _ => exists_congr fun e => ?_
  exact and_congr_right fun _ => eq_comm

theorem map_chain_jobs (h : ∀ id ∈ ids, ∃ e ∈ s.chains, e.chain = id) :
    (jobs s engine subject ids).map (·.chain) = ids := by
  induction ids with
  | nil => rfl
  | cons id ids ih =>
    have hrest := ih fun i hi => h i (List.mem_cons_of_mem id hi)
    obtain ⟨e, he, rfl⟩ := h id List.mem_cons_self
    obtain ⟨e', hfind⟩ := Settings.exists_endpoint? he
    rw [jobs] at hrest ⊢
    rw [List.filterMap_cons_some (by rw [hfind, Option.map_some]), List.map_cons, hrest]

/-! ### Results -/

/-- The entries of a survey, as a request spells its chain. -/
def entriesOf (text : String) (spelling : Option Document) (ids : List Int)
    (final : Schedule.State (Except Defect Entry)) : List Entry :=
  ids.map fun id => { entryFor text final.finished id with spelling }

theorem run_of_targets {clock : Seconds} {deadline : Binary64} {outside : Outside}
    (h : targets s chain = .ok ids) (hslots : 0 ≤ s.maxInFlight) :
    run s engine subject chain clock deadline outside =
      .ok ⟨entriesOf deadline.text (spelling? chain) ids
          (schedule s clock deadline outside (jobs s engine subject ids)),
        schedule s clock deadline outside (jobs s engine subject ids)⟩ := by
  rw [run, h]
  simp only [bind, Except.bind, if_neg (Int.not_lt.mpr hslots), pure, Except.pure, List.map_map]
  rfl

theorem run_of_refused {clock : Seconds} {deadline : Binary64} {outside : Outside}
    {f : Request.Refusal} (h : targets s chain = .error f) :
    run s engine subject chain clock deadline outside = .error f := by
  rw [run, h]
  rfl

end Chain.Survey

end Attest
