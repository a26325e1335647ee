import Attest.Proofs.MoreSlots

/-! # More time and more slots for a survey

With a later deadline and with more chains in flight, every chain that was not struck keeps its entry,
unless the rounding of clocks makes a question run into its timeout that kept within it before. -/

namespace Attest

/-- A deadline that is no longer than another one allows no more time. -/
theorem Expiry.allows_after {deadline deadline' : Binary64}
    (h : (Limit.span deadline).isLonger (.span deadline') = false) (hnumber : deadline' ≠ .undefined)
    (clock : Seconds) : (Expiry.after clock deadline').Allows (Expiry.after clock deadline) := by
  intro t ht
  cases deadline with
  | undefined => cases ht
  | infinite negative =>
    cases negative with
    | true => cases ht
    | false =>
      cases deadline' with
      | finite negative' m' e' => cases h
      | infinite negative' =>
        cases negative' with
        | true => cases h
        | false => rfl
      | undefined => exact absurd rfl hnumber
  | finite negative m e =>
    cases deadline' with
    | finite negative' m' e' =>
      have hle : (Binary64.finite negative m e).toRat?.getD 0 ≤
          (Binary64.finite negative' m' e').toRat?.getD 0 := by
        simpa [Limit.isLonger, Limit.seconds?, Binary64.toRat?] using h
      rw [Expiry.after_of_toRat? rfl, Schedule.State.isBefore, decide_eq_true_eq] at ht ⊢
      exact ht.trans (Seconds.nearest_mono (add_le_add_right hle clock))
    | infinite negative' =>
      cases negative' with
      | true => cases h
      | false => rfl
    | undefined => exact absurd rfl hnumber

namespace Chain.Survey

open Schedule (State)

/-- The chains that one survey finishes run into the timeouts in another survey that they run into in
this one, each from the time on at which it gets its slot. -/
def AnsweredAlike (s : Settings) (subject : Subject) (outside : Outside) (r r' : Result) : Prop :=
  ∀ e ∈ s.chains, r.final.finished.lookup e.chain ≠ none →
    ∀ t t', ⟨t, e.chain, .acquired⟩ ∈ r.final.log → ⟨t', e.chain, .acquired⟩ ∈ r'.final.log →
      soloAnswered s subject e t' outside = soloAnswered s subject e t outside

section Run

variable {s : Settings} {subject : Subject} {chain : Document} {ids : List Int} {clock : Seconds}
  {deadline deadline' : Binary64} {outside : Outside} {m : Int} {e : Endpoint}

/-- Where all times are exact, a chain that begins no later comes to the same no later. -/
theorem keeps_of_exact {g : Nat} {timeout span t t' : Seconds}
    (hx : ExactTimes g timeout span s clock deadline outside) (he : e ∈ s.chains)
    (hself : s.endpoint? e.chain = some e)
    (ht : Seconds.Steps g t ∧ clock ≤ t ∧ t ≤ clock + span)
    (ht' : Seconds.Steps g t' ∧ clock ≤ t' ∧ t' ≤ clock + span) (hle : t' ≤ t) :
    Schedule.Job.Keeps (nodeOf s) outside
      ⟨e.chain, Investigation.investigate .listing (.ofSettings e s) subject⟩ t t' := by
  intro ending hending
  rw [nodeOf_eq hself] at hending ⊢
  change soloOutcome s subject e t outside = some ending at hending
  change ∃ ending', soloOutcome s subject e t' outside = some ending' ∧ _
  rw [soloOutcome_later hx he ht.1 ht.2.1 ht.2.2] at hending
  obtain ⟨first, hfirst, rfl⟩ := Option.map_eq_some_iff.mp hending
  refine ⟨first.later (t' - clock), ?_, rfl, ?_⟩
  · rw [soloOutcome_later hx he ht'.1 ht'.2.1 ht'.2.2, hfirst, Option.map_some]
  · exact add_le_add_right (sub_le_sub_right hle clock) first.clock

/-- A chain that begins no later and has the same waits answered comes to the same no later. -/
theorem keeps_of_answered {t t' : Seconds} (hself : s.endpoint? e.chain = some e) (hle : t' ≤ t)
    (hsame : soloAnswered s subject e t' outside = soloAnswered s subject e t outside) :
    Schedule.Job.Keeps (nodeOf s) outside
      ⟨e.chain, Investigation.investigate .listing (.ofSettings e s) subject⟩ t t' := by
  intro ending hending
  rw [nodeOf_eq hself] at hending ⊢
  exact soloOutcome_earlier hle hsame hending

/-- What a survey finishes it finishes as well with a later deadline and with more chains in flight. -/
theorem finished_subset_schedule (hchains : (s.chains.map (·.chain)).Nodup)
    (hurls : (s.chains.map (·.url)).Nodup) (htargets : targets s chain = .ok ids)
    (hm : s.maxInFlight ≤ m)
    (hdeadline : (Expiry.after clock deadline').Allows (Expiry.after clock deadline)) {r r' : Result}
    (hr : r.final = schedule s clock deadline outside (jobs s .listing subject ids))
    (hr' : r'.final = schedule { s with maxInFlight := m } clock deadline' outside
      (jobs s .listing subject ids))
    (halike : m = s.maxInFlight ∨
      (∃ g timeout span, ExactTimes g timeout span s clock deadline outside) ∨
      AnsweredAlike s subject outside r r') :
    r.final.finished ⊆ r'.final.finished := by
  have hseparate : Schedule.Separate (nodeOf s) (jobs s .listing subject ids) :=
    separate_jobs hchains hurls htargets
  have hwaits : ∀ job ∈ jobs s .listing subject ids, job.activity.AtMost (waitsPerChain s) :=
    fun job hjob => jobs_atMost hjob fun _ => trivial
  have hslots : s.maxInFlight.toNat ≤ m.toNat := Int.toNat_le_toNat hm
  obtain rfl | ⟨g, timeout, span, hx⟩ | halike := halike
  · rw [hr, hr']
    exact (Schedule.finished_prefix_of_allows hdeadline).subset
  · rw [hr, hr']
    refine Schedule.finished_subset_of_le hseparate hwaits hslots hdeadline
      ⟨hx.start.1, le_rfl, by linarith [hx.term.2.2]⟩ (lasting_exact hx) ?_
    intro job hjob t t' ht ht' hle _ _ _
    obtain ⟨id, _, e, hself, rfl⟩ := mem_jobs.mp hjob
    obtain ⟨he, rfl⟩ := Settings.endpoint?_mem hself
    exact keeps_of_exact hx he hself ht ht' hle
  · rw [AnsweredAlike, hr, hr'] at halike
    rw [hr, hr']
    refine Schedule.finished_subset_of_le (p := fun _ => True) hseparate hwaits hslots hdeadline
      trivial Schedule.lasting_true ?_
    intro job hjob t t' _ _ hle hlog hlog' hfinished
    obtain ⟨id, _, e, hself, rfl⟩ := mem_jobs.mp hjob
    obtain ⟨he, rfl⟩ := Settings.endpoint?_mem hself
    refine keeps_of_answered hself hle (halike e he (fun hnone => ?_) t t' hlog hlog')
    obtain ⟨f, hf, hchain⟩ := List.mem_map.mp hfinished
    rw [List.lookup_eq_none_iff] at hnone
    simpa [hchain] using hnone f hf

end Run

/-- More time or more parallelism never loses a result: with a later deadline every chain that was not
struck keeps its entry, and with more chains in flight as well, where times are exact or where no question
runs into its timeout in one survey only. -/
theorem run_mono (s : Settings) (hslots : 1 ≤ s.maxInFlight)
    (hchains : (s.chains.map (·.chain)).Nodup) (hurls : (s.chains.map (·.url)).Nodup) {m : Int}
    (hm : s.maxInFlight ≤ m) (subject : Subject) (chain : Document) (clock : Seconds)
    {deadline deadline' : Binary64}
    (hdeadline : (Limit.span deadline).isLonger (.span deadline') = false)
    (hnumber : deadline' ≠ .undefined) (outside : Outside) :
    (∃ f, run s .listing subject chain clock deadline outside = .error f ∧
      run { s with maxInFlight := m } .listing subject chain clock deadline' outside = .error f) ∨
    ∃ r r', run s .listing subject chain clock deadline outside = .ok r ∧
      run { s with maxInFlight := m } .listing subject chain clock deadline' outside = .ok r' ∧
      r'.entries.map (·.chain) = r.entries.map (·.chain) ∧
      ((m = s.maxInFlight ∨ (∃ g timeout span, ExactTimes g timeout span s clock deadline outside) ∨
          AnsweredAlike s subject outside r r') →
        ∀ entry ∈ r.entries,
          entry ≠ { Entry.cancelled entry.chain deadline.text with spelling := spelling? chain } →
            entry ∈ r'.entries) := by
  cases htargets : targets s chain with
  | error f => exact .inl ⟨f, run_of_refused htargets, run_of_refused htargets⟩
  | ok ids =>
    right
    refine ⟨_, _, run_of_targets htargets (by omega),
      run_of_targets (s := { s with maxInFlight := m }) htargets (by omega : 0 ≤ m), ?_, ?_⟩
    · rw [map_chain_entries hchains hurls htargets]
      exact map_chain_entries (s := { s with maxInFlight := m }) hchains hurls htargets _ _ _ _ _
    · intro halike entry hentry hkept
      obtain ⟨id, hid, rfl⟩ := List.mem_map.mp hentry
      obtain ⟨e, he, rfl⟩ := mem_chains_of_mem_targets htargets hid
      rw [entryFor_chain hchains hurls htargets he] at hkept
      cases hlookup : (schedule s clock deadline outside
          (jobs s .listing subject ids)).finished.lookup e.chain with
      | none =>
        refine absurd ?_ hkept
        rw [entryFor, hlookup]
      | some a =>
        have hmem := finished_subset_schedule hchains hurls htargets hm
          (Expiry.allows_after hdeadline hnumber clock) rfl rfl halike
          (Schedule.mem_of_lookup_eq_some hlookup)
        have hseparate : Schedule.Separate (nodeOf s) (jobs s .listing subject ids) :=
          separate_jobs hchains hurls htargets
        have hlookup' := Schedule.lookup_eq_some_of_mem (Schedule.nodup_finished hseparate) hmem
        refine List.mem_map.mpr ⟨e.chain, hid, ?_⟩
        rw [entryFor_of_lookup hlookup]
        exact entryFor_of_lookup hlookup' deadline'.text

/-! ### Two chains that share a slot -/

/-- One slot for two chains, and the standard limits. -/
def shared : Settings where
  chains := [mainnet, goerli]
  maxInFlight := 1

/-- Nodes that take a few seconds. -/
def steadyNodes : Outside where
  nodes := [("u1", [noCode 2]), ("u5", [noCode 3])]

theorem targets_both {s : Settings} (h : s.chains = [mainnet, goerli]) :
    targets s .null = .ok [1, 5] := by
  rw [targets, h]
  exact congrArg Except.ok (List.mergeSort_of_pairwise (by decide))

theorem exact_shared : ExactTimes 1 60 4 shared 0 (.ofInt 4) steadyNodes where
  fine := by norm_num
  start := ⟨.zero, le_rfl⟩
  responses := by
    intro e he r hr
    obtain rfl | rfl : e = mainnet ∨ e = goerli := by simpa [shared] using he
    · obtain rfl : r = noCode 2 := List.mem_singleton.mp hr
      exact ⟨4, by norm_num [noCode]⟩
    · obtain rfl : r = noCode 3 := List.mem_singleton.mp hr
      exact ⟨6, by norm_num [noCode]⟩
  pauses := by
    intro q hq
    have hhalf : shared.rpcBackoff.toRat? = some (1 / 2) := by decide +kernel
    obtain rfl : 1 / 2 = q := Option.some.inj (hhalf.symm.trans hq)
    exact ⟨1, by norm_num⟩
  patience := ⟨by decide +kernel, ⟨120, by norm_num⟩, by norm_num⟩
  term := ⟨by decide +kernel, ⟨8, by norm_num⟩, by norm_num⟩
  reach := by norm_num [Seconds.reach]

/-- The second chain, which waits for its slot and is struck, is not when it need not wait. -/
theorem run_mono_shared :
    1 ≤ shared.maxInFlight ∧ (shared.chains.map (·.chain)).Nodup ∧ (shared.chains.map (·.url)).Nodup ∧
    shared.maxInFlight ≤ 2 ∧ (Limit.span (.ofInt 4)).isLonger (.span (.ofInt 5)) = false ∧
    Binary64.ofInt 5 ≠ .undefined ∧
    ∃ r r', run shared .listing ⟨"0x", none, none⟩ .null 0 (.ofInt 4) steadyNodes = .ok r ∧
      run { shared with maxInFlight := 2 } .listing ⟨"0x", none, none⟩ .null 0 (.ofInt 5) steadyNodes =
        .ok r' ∧
      (∀ entry ∈ r.entries, entry ≠ { Entry.cancelled entry.chain (Binary64.ofInt 4).text with
        spelling := spelling? .null } → entry ∈ r'.entries) ∧
      r.entries.map (·.error) = [none, some "Cancelled: request deadline of 4.0s exceeded"] ∧
      r'.entries.map (·.error) = [none, none] := by
  refine ⟨by decide, by decide, by decide, by decide, by decide +kernel, by decide +kernel, ?_⟩
  obtain ⟨f, herror, -⟩ | ⟨r, r', hr, hr', -, hkept⟩ := run_mono shared (by decide) (by decide)
    (by decide) (by decide : shared.maxInFlight ≤ 2) ⟨"0x", none, none⟩ .null 0
    (by decide +kernel : (Limit.span (.ofInt 4)).isLonger (.span (.ofInt 5)) = false)
    (by decide +kernel) steadyNodes
  · cases (run_of_targets (targets_both rfl) (by decide)).symm.trans herror
  · refine ⟨r, r', hr, hr', hkept (.inr (.inl ⟨1, 60, 4, exact_shared⟩)), ?_, ?_⟩
    · cases hr.symm.trans (run_of_targets (targets_both rfl) (by decide))
      decide +kernel
    · cases hr'.symm.trans (run_of_targets (s := { shared with maxInFlight := 2 }) (targets_both rfl)
        (by decide))
      decide +kernel

/-- A chain that waits for its slot can run into a timeout that it keeps within when it need not wait,
because clocks round later times more coarsely. -/
theorem rounding_decides_entry :
    1 ≤ crowded.maxInFlight ∧ crowded.maxInFlight ≤ 2 ∧ (crowded.chains.map (·.url)).Nodup ∧
    ∃ r r', run crowded .listing ⟨"0x", none, none⟩ .null 0 (.ofInt 16777000) slowNodes = .ok r ∧
      run { crowded with maxInFlight := 2 } .listing ⟨"0x", none, none⟩ .null 0 (.ofInt 16777000)
        slowNodes = .ok r' ∧
      ∃ entry ∈ r.entries, entry ≠ { Entry.cancelled entry.chain (Binary64.ofInt 16777000).text with
        spelling := spelling? .null } ∧ entry ∉ r'.entries := by
  refine ⟨by decide, by decide, by decide, _, _, run_of_targets (targets_both rfl) (by decide),
    run_of_targets (s := { crowded with maxInFlight := 2 }) (targets_both rfl) (by decide), ?_⟩
  have hlate : ∃ entry ∈ entriesOf (Binary64.ofInt 16777000).text (spelling? .null) [1, 5]
      (schedule crowded 0 (.ofInt 16777000) slowNodes
        (jobs crowded .listing ⟨"0x", none, none⟩ [1, 5])),
      entry.error = some "RpcError: eth_getCode timed out after 8387584.0s" := by
    decide +kernel
  have hin : ∀ entry ∈ entriesOf (Binary64.ofInt 16777000).text (spelling? .null) [1, 5]
      (schedule { crowded with maxInFlight := 2 } 0 (.ofInt 16777000) slowNodes
        (jobs crowded .listing ⟨"0x", none, none⟩ [1, 5])),
      entry.error = none := by
    decide +kernel
  obtain ⟨entry, hentry, herror⟩ := hlate
  refine ⟨entry, hentry, fun hstruck => ?_, fun hmem => ?_⟩
  · have hother : some "RpcError: eth_getCode timed out after 8387584.0s" ≠
        (Entry.cancelled 5 (Binary64.ofInt 16777000).text).error := by
      decide +kernel
    have hsame : entry.error = _ := congrArg Entry.error hstruck
    exact hother (herror.symm.trans hsame)
  · cases herror.symm.trans (hin entry hmem)

end Chain.Survey

end Attest
