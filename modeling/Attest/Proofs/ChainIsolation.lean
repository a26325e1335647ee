import Attest.Proofs.EarlierStarts
import Attest.Proofs.ExactTimes
import Attest.Proofs.ScheduleRun
import Attest.Proofs.SurveyTargets

/-! A survey of many chains refines surveys of one chain each: no chain's entry depends on what any other
chain answers or on how long it takes, except through the time at which it gets its slot. -/

namespace Attest.Chain.Survey

open Schedule (State)

/-! ### The jobs of a survey -/

/-- The node of a chain. -/
def nodeOf (s : Settings) (id : Int) : String := ((s.endpoint? id).map (·.url)).getD ""

theorem nodeOf_eq {s : Settings} {id : Int} {e : Endpoint} (h : s.endpoint? id = some e) :
    nodeOf s id = e.url := by
  rw [nodeOf, h, Option.map_some, Option.getD_some]

variable {s : Settings} {subject : Subject} {chain : Document} {ids : List Int}

theorem separate_jobs (hchains : (s.chains.map (·.chain)).Nodup)
    (hurls : (s.chains.map (·.url)).Nodup) (h : targets s chain = .ok ids) :
    Schedule.Separate (nodeOf s) (jobs s .listing subject ids) where
  chains := by
    rw [map_chain_jobs fun id => mem_chains_of_mem_targets h]
    exact (pairwise_targets hchains h).imp fun hlt => hlt.ne
  nodes := by
    intro a ha b hb hurl
    obtain ⟨i, _, d, hd, rfl⟩ := mem_jobs.mp ha
    obtain ⟨j, _, e, he, rfl⟩ := mem_jobs.mp hb
    obtain ⟨hdmem, rfl⟩ := Settings.endpoint?_mem hd
    obtain ⟨hemem, rfl⟩ := Settings.endpoint?_mem he
    rw [nodeOf_eq hd, nodeOf_eq he] at hurl
    rw [List.inj_on_of_nodup_map hurls hdmem hemem hurl]
  asks := by
    intro job hjob
    obtain ⟨id, _, e, he, rfl⟩ := mem_jobs.mp hjob
    rw [nodeOf_eq he]
    exact (Investigation.investigate_all .listing (.ofSettings e s) subject
      fun _ => trivial).imp fun _ _ => trivial

theorem jobs_atMost {engine : Engine} {job : Schedule.Job (Except Defect Entry)}
    (h : job ∈ jobs s engine subject ids) (hengine : ∀ code, (engine.decompile code).AtMost 1) :
    job.activity.AtMost (waitsPerChain s) := by
  obtain ⟨id, _, e, he, rfl⟩ := mem_jobs.mp h
  refine (Investigation.investigate_atMost engine (.ofSettings e s) subject hengine).mono ?_
  simp only [Node.Fetcher.waitsPerQuestion, Node.Fetcher.ofSettings, waitsPerChain]
  omega

/-- What comes of the work on a chain that begins at a time, with nothing else going on. -/
def soloOutcome (s : Settings) (subject : Subject) (e : Endpoint) (begin : Seconds)
    (outside : Outside) : Option (Activity.Ending (Except Defect Entry)) :=
  (Investigation.investigate .listing (.ofSettings e s) subject).outcome begin (outside.only e.url)

/-- With a slot for every chain, what is known of a chain at last is what came of it in time alone. -/
theorem lookup_schedule (hchains : (s.chains.map (·.chain)).Nodup)
    (hurls : (s.chains.map (·.url)).Nodup) (h : targets s chain = .ok ids)
    (hroom : (ids.length : Int) ≤ s.maxInFlight) {e : Endpoint} (he : e ∈ s.chains)
    (hid : e.chain ∈ ids) {clock : Seconds} {deadline : Binary64} {outside : Outside} :
    (schedule s clock deadline outside (jobs s .listing subject ids)).finished.lookup e.chain =
      ((soloOutcome s subject e clock outside).filter fun x =>
        State.isBefore x.clock (.after clock deadline)).map (·.answer) := by
  have hself := Settings.endpoint?_eq_some hchains he
  have hjob : ⟨e.chain, Investigation.investigate .listing (.ofSettings e s) subject⟩ ∈
      jobs s .listing subject ids := mem_jobs.mpr ⟨e.chain, hid, e, hself, rfl⟩
  have hlength : (jobs s .listing subject ids).length ≤ s.maxInFlight.toNat := by
    have : (jobs s .listing subject ids).length ≤ ids.length := List.length_filterMap_le _ _
    omega
  rw [soloOutcome, ← nodeOf_eq hself]
  exact Schedule.lookup_finished (separate_jobs hchains hurls h) hlength
    (fun job hjob => jobs_atMost hjob fun _ => trivial) hjob

/-! ### One chain alone -/

/-- The work on a chain with nothing else going on. -/
def soloRun (s : Settings) (subject : Subject) (e : Endpoint) (begin : Seconds) (outside : Outside) :
    Activity.Solo (Except Defect Entry) :=
  (Investigation.investigate .listing (.ofSettings e s) subject).solo e.chain begin
    (outside.only e.url) 0

theorem soloOutcome_eq (s : Settings) (subject : Subject) (e : Endpoint) (begin : Seconds)
    (outside : Outside) :
    soloOutcome s subject e begin outside = (soloRun s subject e begin outside).answer.map fun a =>
      ⟨a, (soloRun s subject e begin outside).clock,
        (soloRun s subject e begin outside).outside⟩ :=
  Activity.outcome_solo e.chain begin (outside.only e.url) 0 _

/-- Which waits of the work on a chain that begins at a time are answered, with nothing else going on. -/
def soloAnswered (s : Settings) (subject : Subject) (e : Endpoint) (begin : Seconds)
    (outside : Outside) : List Bool :=
  (Investigation.investigate .listing (.ofSettings e s) subject).answered begin (outside.only e.url)

/-- Work on a chain that begins earlier and has the same waits answered comes to the same. -/
theorem soloOutcome_earlier {e : Endpoint} {begin t : Seconds} {outside : Outside}
    {ending : Activity.Ending (Except Defect Entry)} (hle : begin ≤ t)
    (hsame : soloAnswered s subject e begin outside = soloAnswered s subject e t outside)
    (hending : soloOutcome s subject e t outside = some ending) :
    ∃ first, soloOutcome s subject e begin outside = some first ∧ first.answer = ending.answer ∧
      first.clock ≤ ending.clock :=
  (Investigation.investigate_hastens _ _).outcome hle hsame hending

/-- Nothing is finished before the survey begins. -/
theorem lasting_from {engine : Engine} (clock : Seconds) (deadline : Expiry) (outside : Outside) :
    Schedule.Lasting (nodeOf s) deadline outside (jobs s engine subject ids) (clock ≤ ·) := by
  intro job _ t ending ht houtcome _
  exact ht.trans (Activity.le_clock_of_outcome houtcome)

/-- A survey of one chain that begins at a time: no other chain is configured, there is no deadline, and
nothing is outside but the chain's own node. -/
def alone (s : Settings) (subject : Subject) (chain : Document) (e : Endpoint) (begin : Seconds)
    (outside : Outside) : Except Request.Refusal Result :=
  run { s with chains := [e] } .listing subject chain begin (.infinite false) (outside.only e.url)

/-- The entry of a chain whose work came to an end, as the request spells its number. -/
def entryOf (chain : Document) (id : Int) : Except Defect Entry → Entry
  | .ok e => { e with spelling := spelling? chain }
  | .error d => { Entry.failed id d.describe with spelling := spelling? chain }

theorem entryFor_of_lookup {finished : List (Int × Except Defect Entry)} {id : Int}
    {r : Except Defect Entry} (h : finished.lookup id = some r) (deadline : String) :
    { entryFor deadline finished id with spelling := spelling? chain } = entryOf chain id r := by
  rw [entryFor, h]
  cases r <;> rfl

/-- Alone, a chain that comes to an end gets its entry. -/
theorem alone_eq (hslots : 1 ≤ s.maxInFlight) (hchains : (s.chains.map (·.chain)).Nodup)
    (h : targets s chain = .ok ids) {e : Endpoint} (he : e ∈ s.chains) (hid : e.chain ∈ ids)
    {begin : Seconds} {outside : Outside} {ending : Activity.Ending (Except Defect Entry)}
    (hending : soloOutcome s subject e begin outside = some ending) :
    (alone s subject chain e begin outside).map (·.entries) =
      .ok [entryOf chain e.chain ending.answer] := by
  have htargets := targets_alone h hchains he hid
  have hsolo : soloOutcome { s with chains := [e] } subject e begin (outside.only e.url) =
      some ending := by
    rw [soloOutcome, Outside.only_only]
    exact hending
  have hlookup : (schedule { s with chains := [e] } begin (.infinite false) (outside.only e.url)
      (jobs { s with chains := [e] } .listing subject [e.chain])).finished.lookup e.chain =
        some ending.answer := by
    rw [lookup_schedule (s := { s with chains := [e] }) (List.nodup_singleton _)
      (List.nodup_singleton _) htargets hslots (List.mem_singleton_self e)
      (List.mem_singleton_self _), hsolo]
    rfl
  rw [alone, run_of_targets htargets (by omega : 0 ≤ s.maxInFlight)]
  simp only [Except.map, entriesOf, List.map_cons, List.map_nil, entryFor_of_lookup hlookup]

/-! ### Exact times -/

/-- All times of a survey are whole numbers of steps, no more than clocks can tell apart. -/
structure ExactTimes (g : Nat) (timeout span : Seconds) (s : Settings) (clock : Seconds)
    (deadline : Binary64) (outside : Outside) : Prop where
  fine : g ≤ 1074
  start : Seconds.Steps g clock ∧ 0 ≤ clock
  responses : ∀ e ∈ s.chains, outside.Exact g e.url
  pauses : ∀ q, s.rpcBackoff.toRat? = some q → Seconds.Steps g q
  patience : s.chainTimeout.toRat? = some timeout ∧ Seconds.Steps g timeout ∧ 0 ≤ timeout
  term : deadline.toRat? = some span ∧ Seconds.Steps g span ∧ 0 ≤ span
  reach : clock + span + 2 * timeout ≤ Seconds.reach g

section ExactTimes

variable {g : Nat} {timeout span clock t : Seconds} {deadline : Binary64} {outside : Outside}
  {e : Endpoint}

theorem ExactTimes.fetcher (hx : ExactTimes g timeout span s clock deadline outside)
    (e : Endpoint) : (Node.Fetcher.ofSettings e s).Exact g timeout :=
  ⟨hx.patience.1, hx.patience.2.1, hx.patience.2.2, hx.pauses⟩

/-- Where all times are exact, a chain that gets its slot later takes the same course later. -/
theorem soloOutcome_later (hx : ExactTimes g timeout span s clock deadline outside)
    (he : e ∈ s.chains) (ht : Seconds.Steps g t) (hle : clock ≤ t) (hspan : t ≤ clock + span)
    (subject : Subject) :
    soloOutcome s subject e t outside =
      (soloOutcome s subject e clock outside).map (Activity.Ending.later (t - clock)) := by
  have hsteady := Investigation.investigate_steady hx.fine (ht.sub hx.start.1) (sub_nonneg.mpr hle)
    (hx.fetcher e) subject
  have hfollows := hsteady clock (outside.only e.url) hx.start.1 hx.start.2
    (by linarith [hx.reach]) (hx.responses e he).only
  have hcourse := hfollows.course
  rw [add_sub_cancel] at hcourse
  exact hcourse

theorem after_deadline (hx : ExactTimes g timeout span s clock deadline outside) :
    Expiry.after clock deadline = .at (clock + span) := by
  obtain ⟨hvalue, hsteps, hnonneg⟩ := hx.term
  rw [Expiry.after_of_toRat? hvalue]
  congr 1
  refine Seconds.nearest_of_steps hx.fine (hx.start.1.add hsteps) ?_
  rw [abs_of_nonneg (add_nonneg hx.start.2 hnonneg)]
  linarith [hx.reach, hx.patience.2.2]

/-- Where all times are exact, slots are given out at whole numbers of steps. -/
theorem lasting_exact
    (hx : ExactTimes g timeout span s clock deadline outside) :
    Schedule.Lasting (nodeOf s) (.after clock deadline) outside (jobs s .listing subject ids)
      fun t => Seconds.Steps g t ∧ clock ≤ t ∧ t ≤ clock + span := by
  rintro job hjob t ending ⟨ht, hle, hspan⟩ houtcome hbefore
  obtain ⟨id, _, e, hself, rfl⟩ := mem_jobs.mp hjob
  obtain ⟨he, rfl⟩ := Settings.endpoint?_mem hself
  rw [nodeOf_eq hself] at houtcome
  have hsteady := Investigation.investigate_steady hx.fine Seconds.Steps.zero le_rfl
    (hx.fetcher e) subject
  obtain ⟨hsteps, hlimit, _⟩ := (hsteady t (outside.only e.url) ht (hx.start.2.trans hle)
    (by linarith [hx.reach]) (hx.responses e he).only).ending ending houtcome
  have hclock := hle.trans (Activity.le_clock_of_outcome houtcome)
  refine ⟨hsteps, hclock, ?_⟩
  rw [after_deadline hx, State.isBefore, decide_eq_true_eq] at hbefore
  have hkeep : Seconds.nearest ending.clock = ending.clock := by
    refine Seconds.nearest_of_steps hx.fine hsteps ?_
    rw [abs_of_nonneg (hx.start.2.trans hclock)]
    linarith [hx.reach]
  calc
    ending.clock = Seconds.nearest ending.clock := hkeep.symm
    _ ≤ ending.clock.after Seconds.resolution :=
      Seconds.nearest_mono (by norm_num [Seconds.resolution])
    _ ≤ clock + span := hbefore

end ExactTimes

/-! ### Isolation -/

/-- A chain's entry in a survey, beside the survey of this chain alone. A chain that the deadline
struck has the entry of one that was cancelled, and any other one the entry that it gets alone. -/
structure Isolated (s : Settings) (subject : Subject) (chain : Document) (clock : Seconds)
    (deadline : Binary64) (outside : Outside) (r : Result) (e : Endpoint) (entry : Entry) : Prop where
  struck : r.final.finished.lookup e.chain = none →
    entry = { Entry.cancelled e.chain deadline.text with spelling := spelling? chain }
  /-- Alone from the time on at which it gets its slot, and from the beginning if alone it then runs
  into its timeouts at the same waits. -/
  finished : r.final.finished.lookup e.chain ≠ none →
    ∃ t, ⟨t, e.chain, .acquired⟩ ∈ r.final.log ∧
      (alone s subject chain e t outside).map (·.entries) = .ok [entry] ∧
      (soloAnswered s subject e clock outside = soloAnswered s subject e t outside →
        (alone s subject chain e clock outside).map (·.entries) = .ok [entry])
  /-- Where all times are exact, it makes no difference that a chain waits for its slot. -/
  exact : ∀ g timeout span, ExactTimes g timeout span s clock deadline outside →
    r.final.finished.lookup e.chain ≠ none →
      (alone s subject chain e clock outside).map (·.entries) = .ok [entry]
  /-- With a slot for every chain, none waits for one, and the deadline strikes those that alone are
  not at their end clearly before it. -/
  roomy : (r.entries.length : Int) ≤ s.maxInFlight →
    (r.final.finished.lookup e.chain ≠ none →
      (alone s subject chain e clock outside).map (·.entries) = .ok [entry]) ∧
    (r.final.finished.lookup e.chain = none ↔
      (soloRun s subject e clock outside).answer = none ∨
        State.isBefore (soloRun s subject e clock outside).clock (.after clock deadline) = false)

section Run

variable {clock : Seconds} {deadline : Binary64} {outside : Outside} {e : Endpoint}

/-- A chain that is finished came to what it comes to alone, from when it got its slot. -/
theorem finished_alone (hchains : (s.chains.map (·.chain)).Nodup)
    (hurls : (s.chains.map (·.url)).Nodup) (h : targets s chain = .ok ids) (he : e ∈ s.chains)
    {p : Seconds → Prop} (hp : p clock)
    (hlasting : (jobs s .listing subject ids).length ≤ s.maxInFlight.toNat ∨
      Schedule.Lasting (nodeOf s) (.after clock deadline) outside (jobs s .listing subject ids) p)
    {a : Except Defect Entry}
    (ha : (schedule s clock deadline outside (jobs s .listing subject ids)).finished.lookup e.chain =
      some a) :
    ∃ t, p t ∧ ⟨t, e.chain, .acquired⟩ ∈
        (schedule s clock deadline outside (jobs s .listing subject ids)).log ∧
      ∃ ending, soloOutcome s subject e t outside = some ending ∧ ending.answer = a ∧
        State.isBefore ending.clock (.after clock deadline) = true := by
  obtain ⟨ending, ⟨job, hjob, hchain, t, ht, hlog, houtcome⟩, hanswer, hbefore⟩ :=
    Schedule.began_of_mem_finished (separate_jobs hchains hurls h) hp hlasting
      (Schedule.mem_of_lookup_eq_some ha)
  obtain ⟨id, _, d, hd, rfl⟩ := mem_jobs.mp hjob
  obtain rfl : id = e.chain := hchain
  obtain rfl : d = e := Option.some.inj (hd.symm.trans (Settings.endpoint?_eq_some hchains he))
  rw [nodeOf_eq hd] at houtcome
  exact ⟨t, ht, hlog, ending, houtcome, hanswer, hbefore⟩

/-- A finished chain's entry in a survey of many is its entry in a survey of its own. -/
theorem alone_of_finished (hslots : 1 ≤ s.maxInFlight) (hchains : (s.chains.map (·.chain)).Nodup)
    (h : targets s chain = .ok ids) (he : e ∈ s.chains) (hid : e.chain ∈ ids)
    {finished : List (Int × Except Defect Entry)} {a : Except Defect Entry}
    (ha : finished.lookup e.chain = some a) {t : Seconds}
    {ending : Activity.Ending (Except Defect Entry)}
    (hending : soloOutcome s subject e t outside = some ending) (hanswer : ending.answer = a)
    (text : String) :
    (alone s subject chain e t outside).map (·.entries) =
      .ok [{ entryFor text finished e.chain with spelling := spelling? chain }] := by
  rw [alone_eq hslots hchains h he hid hending, entryFor_of_lookup ha, hanswer]

theorem isolated_entry (hslots : 1 ≤ s.maxInFlight) (hchains : (s.chains.map (·.chain)).Nodup)
    (hurls : (s.chains.map (·.url)).Nodup) (h : targets s chain = .ok ids) (he : e ∈ s.chains)
    (hid : e.chain ∈ ids) {r : Result} (hlength : r.entries.length = ids.length)
    (hfinal : r.final = schedule s clock deadline outside (jobs s .listing subject ids)) :
    Isolated s subject chain clock deadline outside r e
      { entryFor deadline.text r.final.finished e.chain with spelling := spelling? chain } where
  struck := by
    intro hnone
    rw [entryFor, hnone]
  finished := by
    intro hsome
    obtain ⟨a, ha⟩ := Option.ne_none_iff_exists'.mp hsome
    obtain ⟨t, hle, hlog, ending, hending, hanswer, _⟩ :=
      finished_alone hchains hurls h he le_rfl (.inr (lasting_from clock _ _)) (hfinal ▸ ha)
    refine ⟨t, hfinal ▸ hlog, alone_of_finished hslots hchains h he hid ha hending hanswer _, ?_⟩
    intro hsame
    obtain ⟨first, hfirst, hsooner, _⟩ := soloOutcome_earlier hle hsame hending
    exact alone_of_finished hslots hchains h he hid ha hfirst (hsooner.trans hanswer) _
  exact := by
    intro g timeout span hx hsome
    obtain ⟨a, ha⟩ := Option.ne_none_iff_exists'.mp hsome
    obtain ⟨t, ⟨ht, hle, hspan⟩, _, ending, hending, hanswer, _⟩ :=
      finished_alone hchains hurls h he ⟨hx.start.1, le_rfl, by linarith [hx.term.2.2]⟩
        (.inr (lasting_exact hx)) (hfinal ▸ ha)
    rw [soloOutcome_later hx he ht hle hspan] at hending
    obtain ⟨first, hfirst, rfl⟩ := Option.map_eq_some_iff.mp hending
    exact alone_of_finished hslots hchains h he hid ha hfirst hanswer _
  roomy := by
    intro hroom
    rw [hlength] at hroom
    constructor
    · intro hsome
      obtain ⟨a, ha⟩ := Option.ne_none_iff_exists'.mp hsome
      have hjobs : (jobs s .listing subject ids).length ≤ ids.length :=
        List.length_filterMap_le _ _
      obtain ⟨t, rfl, _, ending, hending, hanswer, _⟩ :=
        finished_alone (p := (· = clock)) hchains hurls h he rfl (.inl (by omega)) (hfinal ▸ ha)
      exact alone_of_finished hslots hchains h he hid ha hending hanswer _
    · rw [hfinal, lookup_schedule hchains hurls h hroom he hid, soloOutcome_eq]
      cases (soloRun s subject e clock outside).answer with
      | none => simp
      | some a => simp [Option.filter]

/-- Every entry is of the chain that it is listed for. -/
theorem entryFor_chain (hchains : (s.chains.map (·.chain)).Nodup)
    (hurls : (s.chains.map (·.url)).Nodup) (h : targets s chain = .ok ids) (he : e ∈ s.chains)
    (text : String) :
    (entryFor text
      (schedule s clock deadline outside (jobs s .listing subject ids)).finished e.chain).chain =
        e.chain := by
  rw [entryFor]
  cases ha : (schedule s clock deadline outside
      (jobs s .listing subject ids)).finished.lookup e.chain with
  | none => rfl
  | some a =>
    cases a with
    | error d => rfl
    | ok entry =>
      obtain ⟨t, _, _, ending, hending, hanswer, _⟩ :=
        finished_alone (p := fun _ => True) hchains hurls h he trivial (.inr Schedule.lasting_true) ha
      exact (Investigation.investigate_all .listing (.ofSettings e s) subject
        fun _ => trivial).outcome hending entry hanswer

theorem map_chain_entries (hchains : (s.chains.map (·.chain)).Nodup)
    (hurls : (s.chains.map (·.url)).Nodup) (h : targets s chain = .ok ids) (text : String)
    (clock : Seconds) (deadline : Binary64) (outside : Outside) (subject : Subject) :
    (entriesOf text (spelling? chain) ids
      (schedule s clock deadline outside (jobs s .listing subject ids))).map (·.chain) = ids := by
  rw [entriesOf, List.map_map]
  conv_rhs => rw [← List.map_id ids]
  refine List.map_congr_left fun id hid => ?_
  obtain ⟨e, he, rfl⟩ := mem_chains_of_mem_targets h hid
  exact entryFor_chain hchains hurls h he text

end Run

/-- A survey refines surveys of one chain each. -/
theorem run_isolated (s : Settings) (hslots : 1 ≤ s.maxInFlight)
    (hchains : (s.chains.map (·.chain)).Nodup) (hurls : (s.chains.map (·.url)).Nodup)
    (subject : Subject) (chain : Document) (clock : Seconds) (deadline : Binary64)
    (outside : Outside) :
    (∃ f, targets s chain = .error f ∧
      run s .listing subject chain clock deadline outside = .error f) ∨
    ∃ r, run s .listing subject chain clock deadline outside = .ok r ∧
      targets s chain = .ok (r.entries.map (·.chain)) ∧
      (r.entries.map (·.chain)).Pairwise (· < ·) ∧
      ∀ entry ∈ r.entries, ∃ e ∈ s.chains, e.chain = entry.chain ∧
        Isolated s subject chain clock deadline outside r e entry := by
  cases htargets : targets s chain with
  | error f => exact .inl ⟨f, rfl, run_of_refused htargets⟩
  | ok ids =>
    right
    refine ⟨_, run_of_targets htargets (by omega : 0 ≤ s.maxInFlight), ?_⟩
    rw [map_chain_entries hchains hurls htargets]
    refine ⟨rfl, pairwise_targets hchains htargets, ?_⟩
    intro entry hentry
    obtain ⟨id, hid, rfl⟩ := List.mem_map.mp hentry
    obtain ⟨e, he, rfl⟩ := mem_chains_of_mem_targets htargets hid
    exact ⟨e, he, (entryFor_chain hchains hurls htargets he _).symm,
      isolated_entry hslots hchains hurls htargets he hid (List.length_map _) rfl⟩

/-! ### Where clocks are not exact -/

/-- A node that has no code at an address. -/
def noCode (delay : Seconds) : Node.Response :=
  ⟨delay, .answered 200 "" (.document (.object [("result", .text "0x")]))⟩

def lost (delay : Seconds) : Node.Response := ⟨delay, .unreachable "lost"⟩

def mainnet : Endpoint := ⟨1, "mainnet", "u1"⟩

def goerli : Endpoint := ⟨5, "goerli", "u5"⟩

/-- One slot for two chains, and a timeout of many hours. -/
def crowded : Settings where
  chains := [mainnet, goerli]
  maxInFlight := 1
  rpcRetries := 7
  rpcBackoff := .ofRatio false 1 (2 ^ 28)
  chainTimeout := .ofInt 8387584

/-- The step that a clock keeps while the second chain is at work. -/
def tick : Seconds := 1 / 2 ^ 29

/-- The first chain's node takes long, and the second one's keeps just within the timeout. -/
def slowNodes : Outside where
  nodes := [
    ("u1", [noCode 8387000]),
    ("u5", lost (8387584 - 545 / 2 * tick) ::
      (List.replicate 6 (lost (3 / 2 * tick)) ++ [noCode (8 * tick)]))]

/-- A node that answers within five seconds, but less than the resolution of clocks before them. -/
def lateNode : Outside where
  nodes := [("u1", [noCode (5 - 1 / 2 ^ 31)])]

theorem run_isolated_crowded :
    1 ≤ crowded.maxInFlight ∧ (crowded.chains.map (·.chain)).Nodup ∧
    (crowded.chains.map (·.url)).Nodup ∧
    ((∃ f, targets crowded .null = .error f ∧
        run crowded .listing ⟨"0x", none, none⟩ .null 0 (.ofInt 16777000) slowNodes = .error f) ∨
      ∃ r, run crowded .listing ⟨"0x", none, none⟩ .null 0 (.ofInt 16777000) slowNodes = .ok r ∧
        targets crowded .null = .ok (r.entries.map (·.chain)) ∧
        (r.entries.map (·.chain)).Pairwise (· < ·) ∧
        ∀ entry ∈ r.entries, ∃ e ∈ crowded.chains, e.chain = entry.chain ∧
          Isolated crowded ⟨"0x", none, none⟩ .null 0 (.ofInt 16777000) slowNodes r e entry) :=
  ⟨by decide, by decide, by decide,
    run_isolated crowded (by decide) (by decide) (by decide) ⟨"0x", none, none⟩ .null 0
      (.ofInt 16777000) slowNodes⟩

/-- A chain that alone is at its end before the deadline can be struck, and one that waits for its slot
can run into a timeout that it keeps within when it begins at once. -/
theorem clocks_not_exact :
    (∃ r, run { chains := [mainnet] } .listing ⟨"0x", none, none⟩ (.int 1) 0 (.ofInt 5) lateNode =
        .ok r ∧ r.final.finished.lookup 1 = none ∧
      (soloRun { chains := [mainnet] } ⟨"0x", none, none⟩ mainnet 0 lateNode).answer.isSome ∧
      (soloRun { chains := [mainnet] } ⟨"0x", none, none⟩ mainnet 0 lateNode).clock ≤ 5) ∧
    ∃ r, run crowded .listing ⟨"0x", none, none⟩ .null 0 (.ofInt 16777000) slowNodes = .ok r ∧
      (r.final.finished.lookup 5).isSome ∧
      ∀ entry ∈ r.entries, entry.chain = 5 →
        (alone crowded ⟨"0x", none, none⟩ .null goerli 0 slowNodes).map (·.entries) ≠
          .ok [entry] := by
  have htargets : targets crowded .null = .ok [1, 5] :=
    congrArg Except.ok (List.mergeSort_of_pairwise (by decide))
  refine ⟨⟨_, run_of_targets rfl (by decide), ?_⟩, _, run_of_targets htargets (by decide), ?_⟩
  · decide +kernel
  · refine ⟨by decide +kernel, ?_⟩
    intro entry hentry hchain heq
    have hlate : entry.error ≠ none := by
      clear heq
      revert entry
      decide +kernel
    have halone : ((alone crowded ⟨"0x", none, none⟩ .null goerli 0 slowNodes).map
        (·.entries)).toOption.map (·.map (·.error)) = some [none] := by
      decide +kernel
    rw [heq] at halone
    exact hlate (by simpa [Except.toOption] using halone)

end Attest.Chain.Survey
