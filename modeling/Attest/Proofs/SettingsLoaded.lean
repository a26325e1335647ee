import Attest.CommandLine.Invocation
import Attest.Proofs.Outcome
import Mathlib.Data.List.Nodup

/-! What settings that were loaded keep to: one endpoint for a chain, numbers in range, and room for at
least one chain at a time. -/

namespace Attest

/-! ### Variables -/

namespace Surroundings

/-- A variable with a value that is not empty. -/
def Holds (s : Surroundings) (name value : String) : Prop := s.value? name = some value ∧ value ≠ ""

theorem nonempty_eq_some_iff {value? : Option String} {value : String} :
    nonempty value? = some value ↔ value? = some value ∧ value ≠ "" := by
  simp [nonempty, Option.filter_eq_some_iff]

theorem nonempty_value?_eq_some_iff {s : Surroundings} {name value : String} :
    nonempty (s.value? name) = some value ↔ s.Holds name value :=
  nonempty_eq_some_iff

theorem nonempty_value?_eq_none_iff {s : Surroundings} {name : String} :
    nonempty (s.value? name) = none ↔ ∀ value, ¬s.Holds name value := by
  simp only [Option.eq_none_iff_forall_ne_some, ne_eq, nonempty_value?_eq_some_iff]

end Surroundings

namespace Settings

/-! ### Endpoints -/

/-- An endpoint takes the place of its chain's, or a new one at the end. -/
theorem map_chain_putEndpoint (es : List Endpoint) (e : Endpoint) :
    (putEndpoint es e).map (·.chain) =
      if e.chain ∈ es.map (·.chain) then es.map (·.chain)
      else es.map (·.chain) ++ [e.chain] := by
  induction es with
  | nil => rfl
  | cons d ds ih =>
    rw [putEndpoint]
    by_cases hchain : d.chain = e.chain
    · rw [if_pos hchain, List.map_cons, List.map_cons, hchain, if_pos List.mem_cons_self]
    · rw [if_neg hchain, List.map_cons, List.map_cons, ih]
      by_cases hmem : e.chain ∈ ds.map (·.chain)
      · rw [if_pos hmem, if_pos (List.mem_cons_of_mem d.chain hmem)]
      · have hnot : e.chain ∉ d.chain :: ds.map (·.chain) := by
          intro h
          obtain h | h := List.mem_cons.mp h
          · exact hchain h.symm
          · exact hmem h
        rw [if_neg hmem, if_neg hnot, List.cons_append]

theorem nodup_putEndpoint {es : List Endpoint} (h : (es.map (·.chain)).Nodup) (e : Endpoint) :
    ((putEndpoint es e).map (·.chain)).Nodup := by
  rw [map_chain_putEndpoint]
  split
  · exact h
  · rename_i hnot
    rw [← List.concat_eq_append]
    exact h.concat hnot

theorem nodup_resolve (es : List Endpoint) : ((resolve es).map (·.chain)).Nodup := by
  have hfrom (ds : List Endpoint) (h : (ds.map (·.chain)).Nodup) :
      ((es.foldl putEndpoint ds).map (·.chain)).Nodup := by
    induction es generalizing ds with
    | nil => exact h
    | cons e es ih => exact ih _ (nodup_putEndpoint h e)
  exact hfrom [] List.nodup_nil

theorem nodup_endpoints {s : Surroundings} {wanted : List Int} {es : List Endpoint}
    (h : endpoints s wanted = .ok es) : (es.map (·.chain)).Nodup := by
  obtain ⟨found, _, h⟩ := Except.bind_eq_ok_iff.mp h
  cases h
  exact nodup_resolve _

/-! ### Numbers -/

section

variable {s : Surroundings}

/-- A number that is in range. -/
def Quantity.Admits (q : Quantity α) (zeroAllowed : Bool) (v : α) : Prop :=
  (q.negative v || (q.zero v && !zeroAllowed)) = false

instance (q : Quantity α) (zeroAllowed : Bool) (v : α) : Decidable (q.Admits zeroAllowed v) :=
  inferInstanceAs (Decidable (_ = false))

variable {q : Quantity α} {name : String} {standIn v : α} {zeroAllowed : Bool}

theorem number_eq (s : Surroundings) (q : Quantity α) (name : String) (standIn : α)
    (zeroAllowed : Bool) :
    number s q name standIn zeroAllowed =
      match Surroundings.nonempty (s.value? name) with
      | none => .ok standIn
      | some raw =>
          match q.read? raw with
          | none => .error (.notANumber name raw)
          | some v => if q.Admits zeroAllowed v then .ok v else .error (.outOfRange name raw) := by
  rw [number]
  cases Surroundings.nonempty (s.value? name) with
  | none => rfl
  | some raw =>
    dsimp only
    cases q.read? raw with
    | none => rfl
    | some v =>
      dsimp only
      by_cases h : q.Admits zeroAllowed v
      · rw [if_pos h, if_neg (Bool.eq_false_iff.mp h)]
      · rw [if_neg h, if_pos (Bool.of_not_eq_false h)]

/-- A number is the stand-in of a variable that holds nothing, or what the variable holds. -/
theorem number_eq_ok_iff :
    number s q name standIn zeroAllowed = .ok v ↔
      (∀ raw, ¬s.Holds name raw) ∧ v = standIn ∨
        ∃ raw, s.Holds name raw ∧ q.read? raw = some v ∧ q.Admits zeroAllowed v := by
  rw [number_eq, ← Surroundings.nonempty_value?_eq_none_iff]
  simp only [← Surroundings.nonempty_value?_eq_some_iff]
  cases Surroundings.nonempty (s.value? name) with
  | none => simp [eq_comm (a := v)]
  | some raw =>
    cases hread : q.read? raw with
    | none => simp [hread]
    | some w =>
      by_cases hrange : q.Admits zeroAllowed w
      · have hsame : w = v → q.Admits zeroAllowed v := fun h => h ▸ hrange
        simpa [hread, hrange] using hsame
      · have hnot : w = v → ¬q.Admits zeroAllowed v := fun h => h ▸ hrange
        simpa [hread, hrange] using hnot

theorem fails_number_iff :
    (number s q name standIn zeroAllowed).Fails ↔
      ∃ raw, s.Holds name raw ∧ ∀ v, q.read? raw = some v → ¬q.Admits zeroAllowed v := by
  rw [number_eq]
  simp only [← Surroundings.nonempty_value?_eq_some_iff]
  cases Surroundings.nonempty (s.value? name) with
  | none => simp
  | some raw =>
    cases hread : q.read? raw with
    | none => simp [hread]
    | some w => by_cases hrange : q.Admits zeroAllowed w <;> simp [hread, hrange]

end

theorem count_admits_false_iff {i : Int} : count.Admits false i ↔ 1 ≤ i := by
  simp only [Quantity.Admits, count, Bool.not_false, Bool.and_true, Bool.or_eq_false_iff,
    decide_eq_false_iff_not, beq_eq_false_iff_ne]
  omega

theorem count_admits_true_iff {i : Int} : count.Admits true i ↔ 0 ≤ i := by
  simp [Quantity.Admits, count]

/-- A number from anywhere is in range if the stand-in is. -/
theorem admits_of_number {s : Surroundings} {q : Quantity α} {name : String} {standIn v : α}
    {zeroAllowed : Bool} (hstandIn : q.Admits zeroAllowed standIn)
    (h : number s q name standIn zeroAllowed = .ok v) : q.Admits zeroAllowed v := by
  obtain ⟨-, rfl⟩ | ⟨raw, -, -, hadmits⟩ := number_eq_ok_iff.mp h
  · exact hstandIn
  · exact hadmits

/-! ### Settings -/

/-- Chains are distinct, and at least one of them may be at work. -/
structure Sensible (s : Settings) : Prop where
  chains : (s.chains.map (·.chain)).Nodup
  slots : 1 ≤ s.maxInFlight

/-- Where the parts of settings come from. -/
structure LoadedFrom (s : Surroundings) (wanted : Option (List Int)) (settings : Settings) : Prop where
  chains : endpoints s (wanted.getD (supportedChains.map (·.id))) = .ok settings.chains
  buildTool : buildToolOf s = .ok settings.buildTool
  maxInFlight : number s count "COVERIFY_MAX_IN_FLIGHT" 4 false = .ok settings.maxInFlight
  rpcTimeout : number s duration "COVERIFY_RPC_TIMEOUT" (.ofInt 10) false = .ok settings.rpcTimeout
  rpcRetries : number s count "COVERIFY_RPC_RETRIES" 3 true = .ok settings.rpcRetries
  rpcBackoff :
    number s duration "COVERIFY_RPC_BACKOFF" (.ofRatio false 1 2) false = .ok settings.rpcBackoff
  chainTimeout :
    number s duration "COVERIFY_CHAIN_TIMEOUT" (.ofInt 60) false = .ok settings.chainTimeout
  deadline : number s duration "COVERIFY_DEADLINE" (.ofInt 300) false = .ok settings.deadline

theorem loadedFrom_of_load {s : Surroundings} {wanted : Option (List Int)} {settings : Settings}
    (h : load s wanted = .ok settings) : settings.LoadedFrom s wanted := by
  obtain ⟨chains, hchains, h⟩ := Except.bind_eq_ok_iff.mp h
  obtain ⟨buildTool, htool, h⟩ := Except.bind_eq_ok_iff.mp h
  obtain ⟨maxInFlight, hslots, h⟩ := Except.bind_eq_ok_iff.mp h
  obtain ⟨rpcTimeout, hrpcTimeout, h⟩ := Except.bind_eq_ok_iff.mp h
  obtain ⟨rpcRetries, hretries, h⟩ := Except.bind_eq_ok_iff.mp h
  obtain ⟨rpcBackoff, hbackoff, h⟩ := Except.bind_eq_ok_iff.mp h
  obtain ⟨chainTimeout, hchainTimeout, h⟩ := Except.bind_eq_ok_iff.mp h
  obtain ⟨deadline, hdeadline, h⟩ := Except.bind_eq_ok_iff.mp h
  cases h
  exact ⟨hchains, htool, hslots, hrpcTimeout, hretries, hbackoff, hchainTimeout, hdeadline⟩

/-- A chain may be at work. -/
theorem LoadedFrom.one_le_maxInFlight {s : Surroundings} {wanted : Option (List Int)}
    {settings : Settings} (h : settings.LoadedFrom s wanted) : 1 ≤ settings.maxInFlight :=
  count_admits_false_iff.mp (admits_of_number (count_admits_false_iff.mpr (by decide)) h.maxInFlight)

theorem LoadedFrom.rpcRetries_nonneg {s : Surroundings} {wanted : Option (List Int)}
    {settings : Settings} (h : settings.LoadedFrom s wanted) : 0 ≤ settings.rpcRetries :=
  count_admits_true_iff.mp (admits_of_number (count_admits_true_iff.mpr (by decide)) h.rpcRetries)

theorem sensible_load {s : Surroundings} {wanted : Option (List Int)} {settings : Settings}
    (h : load s wanted = .ok settings) : settings.Sensible :=
  ⟨nodup_endpoints (loadedFrom_of_load h).chains, (loadedFrom_of_load h).one_le_maxInFlight⟩

end Settings

namespace CommandLine

theorem sensible_settingsFor {i : Invocation} {s : Surroundings} {settings : Settings}
    (h : settingsFor i s = .ok settings) : settings.Sensible := by
  obtain ⟨loaded, hload, h⟩ := Except.bind_eq_ok_iff.mp h
  have hsensible := Settings.sensible_load hload
  split at h
  · cases h
    exact ⟨hsensible.chains, hsensible.slots⟩
  · cases h
    exact hsensible

end CommandLine

end Attest
