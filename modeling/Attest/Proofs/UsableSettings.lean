import Attest.Proofs.Rounding
import Attest.Proofs.SettingsLoaded

/-! # Settings that can be used

Settings are loaded unless a chain, the build tool or a number is refused. What is loaded has room for at
least one chain at a time, waits for positive durations, and holds the endpoints of exactly the wanted
chains whose node's address is known. A duration that is no number at all is not refused. -/

namespace Attest

/-! ### Secrets -/

namespace Surroundings

/-- A secret in the keyring that is not empty. -/
def Keeps (s : Surroundings) (name value : String) : Prop :=
  ∃ secrets, s.keyring = .entries secrets ∧ secrets.lookup name = some value ∧ value ≠ ""

/-- A secret is what the variable holds; only where it holds nothing, it is what the keyring keeps. -/
def HasSecret (s : Surroundings) (name value : String) : Prop :=
  s.Holds name value ∨ (∀ other, ¬s.Holds name other) ∧ s.Keeps name value

theorem secret?_eq_some_iff {s : Surroundings} {name value : String} :
    s.secret? name = some value ↔ s.HasSecret name value := by
  rw [secret?, Option.or_eq_some_iff, nonempty_value?_eq_some_iff, nonempty_value?_eq_none_iff,
    HasSecret]
  apply or_congr Iff.rfl
  apply and_congr Iff.rfl
  cases hkeyring : s.keyring with
  | locked => simp [Keeps, hkeyring]
  | entries secrets => simp [Keeps, hkeyring, nonempty_eq_some_iff]

end Surroundings

namespace Settings

variable {s : Surroundings}

/-! ### Endpoints -/

/-- An endpoint that agrees with the one of its chain, if there is one, is added to them. -/
theorem mem_putEndpoint {es : List Endpoint} {e : Endpoint}
    (hagree : ∀ d ∈ es, d.chain = e.chain → d = e) (x : Endpoint) :
    x ∈ putEndpoint es e ↔ x ∈ es ∨ x = e := by
  induction es with
  | nil => simp [putEndpoint]
  | cons d ds ih =>
    rw [putEndpoint]
    by_cases hchain : d.chain = e.chain
    · have hd : d = e := hagree d (by simp) hchain
      simp [hd, or_comm]
    · have hds : ∀ d ∈ ds, d.chain = e.chain → d = e := fun d hd => hagree d (by simp [hd])
      simp [hchain, ih hds, or_assoc]

/-- Where all endpoints of a chain are the same, none is lost. -/
theorem mem_resolve {es : List Endpoint} (hagree : ∀ d ∈ es, ∀ e ∈ es, d.chain = e.chain → d = e)
    (x : Endpoint) : x ∈ resolve es ↔ x ∈ es := by
  -- The endpoints put so far are among all of them.
  have hfrom (ds rest : List Endpoint) (hds : ds ⊆ es) (hrest : rest ⊆ es) :
      x ∈ rest.foldl putEndpoint ds ↔ x ∈ ds ∨ x ∈ rest := by
    induction rest generalizing ds with
    | nil => simp
    | cons e rest ih =>
      have he : e ∈ es := hrest (by simp)
      have hput (y : Endpoint) : y ∈ putEndpoint ds e ↔ y ∈ ds ∨ y = e :=
        mem_putEndpoint (fun d hd => hagree d (hds hd) e he) y
      have hsub : putEndpoint ds e ⊆ es := by
        intro y hy
        obtain hy | rfl := (hput y).mp hy
        · exact hds hy
        · exact he
      rw [List.foldl_cons, ih _ hsub (fun y hy => hrest (by simp [hy])), hput, List.mem_cons, or_assoc]
  simpa [resolve] using hfrom [] es (by simp) (fun y hy => hy)

theorem find?_eq_some_iff {id : Int} {c : SupportedChain} :
    SupportedChain.find? id = some c ↔ c ∈ supportedChains ∧ c.id = id := by
  have hids : (supportedChains.map (·.id)).Nodup := by decide
  constructor
  · intro h
    exact ⟨List.mem_of_find?_eq_some h, by simpa using List.find?_some h⟩
  · rintro ⟨hc, rfl⟩
    obtain ⟨d, hd⟩ : ∃ d, SupportedChain.find? c.id = some d :=
      Option.isSome_iff_exists.mp (List.find?_isSome.mpr ⟨c, hc, by simp⟩)
    have hid : d.id = c.id := by simpa using List.find?_some hd
    rw [hd, List.inj_on_of_nodup_map hids (List.mem_of_find?_eq_some hd) hc hid]

/-- A chain that can be configured. -/
def IsSupported (id : Int) : Prop := ∃ c ∈ supportedChains, c.id = id

theorem fails_endpointOf_iff {id : Int} : (endpointOf s id).Fails ↔ ¬IsSupported id := by
  have hsupported : IsSupported id ↔ ∃ c, SupportedChain.find? id = some c := by
    simp only [find?_eq_some_iff, IsSupported]
  rw [hsupported, endpointOf]
  cases SupportedChain.find? id with
  | none => simp
  | some c => simp

theorem endpointOf_eq_ok_some_iff {id : Int} {e : Endpoint} :
    endpointOf s id = .ok (some e) ↔
      ∃ c ∈ supportedChains, c.id = id ∧
        ∃ url, s.HasSecret c.urlVariable url ∧ e = ⟨c.id, c.name, url⟩ := by
  simp only [← Surroundings.secret?_eq_some_iff, ← and_assoc, ← find?_eq_some_iff, ← exists_and_left,
    endpointOf]
  cases SupportedChain.find? id with
  | none => simp
  | some c => simp [eq_comm (a := e)]

/-- The endpoint of a supported chain whose node's address is known. -/
def Serves (s : Surroundings) (e : Endpoint) : Prop :=
  ∃ c ∈ supportedChains, ∃ url, s.HasSecret c.urlVariable url ∧ e = ⟨c.id, c.name, url⟩

theorem Serves.eq_of_chain_eq {d e : Endpoint} (hd : Serves s d) (he : Serves s e)
    (hchain : d.chain = e.chain) : d = e := by
  obtain ⟨c, hc, url, hurl, rfl⟩ := hd
  obtain ⟨c', hc', url', hurl', rfl⟩ := he
  have hsame : some c = some c' :=
    (find?_eq_some_iff.mpr ⟨hc, hchain⟩).symm.trans (find?_eq_some_iff.mpr ⟨hc', rfl⟩)
  obtain rfl := Option.some.inj hsame
  rw [← Surroundings.secret?_eq_some_iff] at hurl hurl'
  obtain rfl := Option.some.inj (hurl.symm.trans hurl')
  rfl

/-- The endpoints are those of the wanted chains that are served. -/
theorem mem_endpoints {wanted : List Int} {es : List Endpoint} (h : endpoints s wanted = .ok es)
    (e : Endpoint) : e ∈ es ↔ e.chain ∈ wanted ∧ Serves s e := by
  obtain ⟨found, hfound, h⟩ := Except.bind_eq_ok_iff.mp h
  cases h
  have hmem (d : Endpoint) : d ∈ found.filterMap id ↔ d.chain ∈ wanted ∧ Serves s d := by
    simp only [List.mem_filterMap, id, exists_eq_right, Except.mem_of_mapM_eq_ok hfound,
      endpointOf_eq_ok_some_iff]
    constructor
    · rintro ⟨_, hid, c, hc, rfl, url, hurl, rfl⟩
      exact ⟨hid, c, hc, url, hurl, rfl⟩
    · rintro ⟨hid, c, hc, url, hurl, rfl⟩
      exact ⟨_, hid, c, hc, rfl, url, hurl, rfl⟩
  rw [mem_resolve, hmem]
  intro d hd e he
  exact ((hmem d).mp hd).2.eq_of_chain_eq ((hmem e).mp he).2

theorem fails_endpoints_iff {wanted : List Int} :
    (endpoints s wanted).Fails ↔ ∃ id ∈ wanted, ¬IsSupported id := by
  rw [endpoints, Except.fails_bind_pure_iff, Except.fails_mapM_iff]
  simp only [fails_endpointOf_iff]

/-! ### The build tool -/

theorem buildToolOf_eq_ok_iff {tool : String} :
    buildToolOf s = .ok tool ↔
      tool = (s.value? "COVERIFY_BUILD_TOOL").getD "forge" ∧ (tool = "forge" ∨ tool = "solc") := by
  rw [buildToolOf]
  split
  · rename_i h
    constructor
    · intro htool
      cases htool
      simpa [buildTools] using h
    · rintro ⟨rfl, -⟩
      rfl
  · rename_i h
    constructor
    · intro htool
      cases htool
    · rintro ⟨rfl, htool⟩
      exact absurd (by simpa [buildTools] using htool) h

theorem fails_buildToolOf_iff :
    (buildToolOf s).Fails ↔
      ∃ tool, s.value? "COVERIFY_BUILD_TOOL" = some tool ∧ tool ≠ "forge" ∧ tool ≠ "solc" := by
  rw [buildToolOf]
  cases s.value? "COVERIFY_BUILD_TOOL" with
  | none => simp [buildTools]
  | some tool =>
    by_cases h : tool = "forge" ∨ tool = "solc"
    · simp [buildTools, h, ← not_or]
    · simp [buildTools, h, ← not_or]

/-! ### Durations -/

/-- What is neither below zero nor zero is above zero, or no number at all. -/
theorem duration_admits_iff {x : Binary64} :
    duration.Admits false x ↔ x.isAbove 0 = true ∨ x = .undefined := by
  cases x with
  | infinite negative => simp [Quantity.Admits, duration, Binary64.isNegative, Binary64.isZero,
      Binary64.isAbove]
  | undefined => simp [Quantity.Admits, duration, Binary64.isNegative, Binary64.isZero]
  | finite negative m e =>
    have hpos := Binary64.two_zpow_pos e
    have hm : (0 : Rat) ≤ m := Nat.cast_nonneg m
    have habove : (Binary64.finite negative m e).isAbove 0 = true ↔ negative = false ∧ m ≠ 0 := by
      rw [Binary64.isAbove, Binary64.toRat?_finite]
      · cases negative with
        | true => simp [mul_nonneg hm hpos.le]
        | false => simp [hpos, Nat.pos_iff_ne_zero]
      · intro negative h
        cases h
    rw [habove]
    cases negative with
    | true => simp [Quantity.Admits, duration, Binary64.isNegative, Binary64.isZero]
    | false => simp [Quantity.Admits, duration, Binary64.isNegative, Binary64.isZero]

/-! ### Settings -/

/-- The chains that are asked for: all that are supported, unless some are named. -/
def chosen (wanted : Option (List Int)) : List Int := wanted.getD (supportedChains.map (·.id))

/-- A variable that should hold an integer, not below the least, and holds something else. -/
def SpoilsCount (s : Surroundings) (least : Int) (name : String) : Prop :=
  ∃ raw, s.Holds name raw ∧ ∀ i, Numeral.int? raw = some i → i < least

/-- A variable that should hold a duration, and holds no double, or one that is zero or less. -/
def SpoilsDuration (s : Surroundings) (name : String) : Prop :=
  ∃ raw, s.Holds name raw ∧ ∀ x, Numeral.double? raw = some x → x.isAbove 0 = false ∧ x ≠ .undefined

/-- A variable that holds what reads as no number at all. -/
def HoldsNaN (s : Surroundings) (name : String) : Prop :=
  ∃ raw, s.Holds name raw ∧ Numeral.double? raw = some .undefined

def durationVariables : List String :=
  ["COVERIFY_RPC_TIMEOUT", "COVERIFY_RPC_BACKOFF", "COVERIFY_CHAIN_TIMEOUT", "COVERIFY_DEADLINE"]

/-- Settings that can be used with the endpoints of the wanted chains, as far as durations fit the
variables that they come from. -/
structure Suits (s : Surroundings) (wanted : List Int) (fits : String → Binary64 → Prop)
    (settings : Settings) : Prop where
  slots : 1 ≤ settings.maxInFlight
  retries : 0 ≤ settings.rpcRetries
  rpcTimeout : fits "COVERIFY_RPC_TIMEOUT" settings.rpcTimeout
  rpcBackoff : fits "COVERIFY_RPC_BACKOFF" settings.rpcBackoff
  chainTimeout : fits "COVERIFY_CHAIN_TIMEOUT" settings.chainTimeout
  deadline : fits "COVERIFY_DEADLINE" settings.deadline
  buildTool : settings.buildTool = "forge" ∨ settings.buildTool = "solc"
  distinct : (settings.chains.map (·.chain)).Nodup
  chains : ∀ e, e ∈ settings.chains ↔ e.chain ∈ wanted ∧ Serves s e

/-- Settings that can be used: each duration is above zero. -/
def Usable (s : Surroundings) (wanted : List Int) (settings : Settings) : Prop :=
  settings.Suits s wanted fun _ x => x.isAbove 0 = true

theorem fails_number_count_iff {name : String} {standIn : Int} :
    (number s count name standIn false).Fails ↔ SpoilsCount s 1 name := by
  simp only [fails_number_iff, count_admits_false_iff, not_le]
  rfl

theorem fails_number_retries_iff {name : String} {standIn : Int} :
    (number s count name standIn true).Fails ↔ SpoilsCount s 0 name := by
  simp only [fails_number_iff, count_admits_true_iff, not_le]
  rfl

theorem fails_number_duration_iff {name : String} {standIn : Binary64} :
    (number s duration name standIn false).Fails ↔ SpoilsDuration s name := by
  simp only [fails_number_iff, duration_admits_iff, not_or, Bool.not_eq_true]
  rfl

theorem fails_load_iff {wanted : Option (List Int)} :
    (load s wanted).Fails ↔
      (∃ id ∈ chosen wanted, ¬IsSupported id) ∨
      (∃ tool, s.value? "COVERIFY_BUILD_TOOL" = some tool ∧ tool ≠ "forge" ∧ tool ≠ "solc") ∨
      SpoilsCount s 1 "COVERIFY_MAX_IN_FLIGHT" ∨ SpoilsCount s 0 "COVERIFY_RPC_RETRIES" ∨
      ∃ name ∈ durationVariables, SpoilsDuration s name := by
  have hload : (load s wanted).Fails ↔
      (endpoints s (chosen wanted)).Fails ∨ (buildToolOf s).Fails ∨
        SpoilsCount s 1 "COVERIFY_MAX_IN_FLIGHT" ∨ SpoilsDuration s "COVERIFY_RPC_TIMEOUT" ∨
        SpoilsCount s 0 "COVERIFY_RPC_RETRIES" ∨ SpoilsDuration s "COVERIFY_RPC_BACKOFF" ∨
        SpoilsDuration s "COVERIFY_CHAIN_TIMEOUT" ∨ SpoilsDuration s "COVERIFY_DEADLINE" := by
    refine Except.fails_bind_iff_of_forall fun chains => ?_
    refine Except.fails_bind_iff_of_forall fun buildTool => ?_
    refine (Except.fails_bind_iff_of_forall fun maxInFlight => ?_).trans
      (or_congr_left fails_number_count_iff)
    refine (Except.fails_bind_iff_of_forall fun rpcTimeout => ?_).trans
      (or_congr_left fails_number_duration_iff)
    refine (Except.fails_bind_iff_of_forall fun rpcRetries => ?_).trans
      (or_congr_left fails_number_retries_iff)
    refine (Except.fails_bind_iff_of_forall fun rpcBackoff => ?_).trans
      (or_congr_left fails_number_duration_iff)
    refine (Except.fails_bind_iff_of_forall fun chainTimeout => ?_).trans
      (or_congr_left fails_number_duration_iff)
    exact Except.fails_bind_pure_iff.trans fails_number_duration_iff
  rw [hload, fails_endpoints_iff, fails_buildToolOf_iff]
  simp only [durationVariables, List.mem_cons, List.not_mem_nil, or_false, exists_eq_or_imp,
    exists_eq_left]
  rw [or_left_comm (a := SpoilsDuration s "COVERIFY_RPC_TIMEOUT")]

/-- A duration above zero, or none where the variable holds what is no number at all. -/
def Lasts (s : Surroundings) (name : String) (x : Binary64) : Prop :=
  ¬HoldsNaN s name ∧ x.isAbove 0 = true ∨ HoldsNaN s name ∧ x = .undefined

theorem lasts_of_number {name : String} {standIn x : Binary64} (hstandIn : standIn.isAbove 0 = true)
    (h : number s duration name standIn false = .ok x) : Lasts s name x := by
  obtain ⟨hnone, rfl⟩ | ⟨raw, hraw, hread, hadmits⟩ := number_eq_ok_iff.mp h
  · refine .inl ⟨?_, hstandIn⟩
    rintro ⟨raw, hraw, -⟩
    exact hnone raw hraw
  · obtain habove | rfl := duration_admits_iff.mp hadmits
    · refine .inl ⟨?_, habove⟩
      rintro ⟨raw', hraw', hnan⟩
      obtain rfl := Option.some.inj (hraw.1.symm.trans hraw'.1)
      obtain rfl := Option.some.inj (hread.symm.trans hnan)
      cases habove
    · exact .inr ⟨⟨raw, hraw, hread⟩, rfl⟩

theorem suits_of_load {wanted : Option (List Int)} {settings : Settings}
    (h : load s wanted = .ok settings) : settings.Suits s (chosen wanted) (Lasts s) := by
  have hparts := loadedFrom_of_load h
  exact {
    slots := hparts.one_le_maxInFlight
    retries := hparts.rpcRetries_nonneg
    rpcTimeout := lasts_of_number (by decide +kernel) hparts.rpcTimeout
    rpcBackoff := lasts_of_number (by decide +kernel) hparts.rpcBackoff
    chainTimeout := lasts_of_number (by decide +kernel) hparts.chainTimeout
    deadline := lasts_of_number (by decide +kernel) hparts.deadline
    buildTool := (buildToolOf_eq_ok_iff.mp hparts.buildTool).2
    distinct := nodup_endpoints hparts.chains
    chains := mem_endpoints hparts.chains }

theorem Lasts.isAbove_iff {name : String} {x : Binary64} (h : Lasts s name x) :
    x.isAbove 0 = true ↔ ¬HoldsNaN s name := by
  obtain ⟨hnot, habove⟩ | ⟨hnan, rfl⟩ := h
  · exact ⟨fun _ => hnot, fun _ => habove⟩
  · exact iff_of_false Bool.false_ne_true (not_not_intro hnan)

theorem Suits.usable_iff {wanted : List Int} {settings : Settings}
    (h : settings.Suits s wanted (Lasts s)) :
    settings.Usable s wanted ↔ ∀ name ∈ durationVariables, ¬HoldsNaN s name := by
  have hall : (∀ name ∈ durationVariables, ¬HoldsNaN s name) ↔
      settings.rpcTimeout.isAbove 0 = true ∧ settings.rpcBackoff.isAbove 0 = true ∧
        settings.chainTimeout.isAbove 0 = true ∧ settings.deadline.isAbove 0 = true := by
    simp [durationVariables, h.rpcTimeout.isAbove_iff, h.rpcBackoff.isAbove_iff,
      h.chainTimeout.isAbove_iff, h.deadline.isAbove_iff]
  rw [hall]
  constructor
  · intro husable
    exact ⟨husable.rpcTimeout, husable.rpcBackoff, husable.chainTimeout, husable.deadline⟩
  · rintro ⟨hrpcTimeout, hbackoff, hchainTimeout, hdeadline⟩
    exact {
      slots := h.slots
      retries := h.retries
      rpcTimeout := hrpcTimeout
      rpcBackoff := hbackoff
      chainTimeout := hchainTimeout
      deadline := hdeadline
      buildTool := h.buildTool
      distinct := h.distinct
      chains := h.chains }

/-- Settings are refused exactly if a wanted chain is not supported, the build tool is not known, or a
variable holds no number or one out of range. Otherwise they can be used, but for the durations whose
variables hold what is no number at all: these are no numbers, and all others are above zero. -/
theorem load_usable (s : Surroundings) (wanted : Option (List Int)) :
    ((load s wanted).Fails ↔
      (∃ id ∈ chosen wanted, ¬IsSupported id) ∨
      (∃ tool, s.value? "COVERIFY_BUILD_TOOL" = some tool ∧ tool ≠ "forge" ∧ tool ≠ "solc") ∨
      SpoilsCount s 1 "COVERIFY_MAX_IN_FLIGHT" ∨ SpoilsCount s 0 "COVERIFY_RPC_RETRIES" ∨
      ∃ name ∈ durationVariables, SpoilsDuration s name) ∧
    ∀ settings, load s wanted = .ok settings →
      settings.Suits s (chosen wanted) (Lasts s) ∧
      (settings.Usable s (chosen wanted) ↔ ∀ name ∈ durationVariables, ¬HoldsNaN s name) := by
  refine ⟨fails_load_iff, ?_⟩
  intro settings h
  exact ⟨suits_of_load h, (suits_of_load h).usable_iff⟩

/-- Two of three chains are served, one from the environment and one from the keyring. -/
theorem load_usable_twoServed :
    let s : Surroundings := {
      environment := [("MAINNET_RPC_URL", "https://one"), ("COVERIFY_DEADLINE", "1_0.5")]
      keyring := .entries [("MAINNET_RPC_URL", "https://other"), ("GOERLI_RPC_URL", "https://five")] }
    ∃ settings, load s (some [5, 1, 10]) = .ok settings ∧
      settings.chains = [⟨5, "goerli", "https://five"⟩, ⟨1, "mainnet", "https://one"⟩] ∧
      settings.Usable s [5, 1, 10] := by
  intro s
  obtain ⟨settings, hload, hchains⟩ := Except.exists_of_toOption_map (x := load s (some [5, 1, 10]))
    (f := fun settings => settings.chains)
    (b := [⟨5, "goerli", "https://five"⟩, ⟨1, "mainnet", "https://one"⟩]) (by decide +kernel)
  refine ⟨settings, hload, hchains, ((load_usable s (some [5, 1, 10])).2 settings hload).2.mpr ?_⟩
  have hnumbers : ∀ name ∈ durationVariables,
      (s.value? name).bind Numeral.double? ≠ some .undefined := by decide +kernel
  rintro name hname ⟨raw, hraw, hnan⟩
  exact hnumbers name hname (by rw [hraw.1, Option.bind_some, hnan])

/-- A deadline that is no number at all is taken. -/
theorem load_takes_nan :
    ∃ settings, load { environment := [("COVERIFY_DEADLINE", "nan")] } (some []) = .ok settings ∧
      settings.deadline.isAbove 0 = false ∧
      ¬settings.Usable { environment := [("COVERIFY_DEADLINE", "nan")] } [] := by
  obtain ⟨settings, hload, hdeadline⟩ := Except.exists_of_toOption_map
    (x := load { environment := [("COVERIFY_DEADLINE", "nan")] } (some []))
    (f := fun settings => settings.deadline.isAbove 0) (b := false) (by decide +kernel)
  refine ⟨settings, hload, hdeadline, ?_⟩
  intro husable
  exact Bool.false_ne_true (hdeadline.symm.trans husable.deadline)

end Settings

end Attest
