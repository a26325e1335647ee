import Attest.Proofs.TransactionFaults

/-! # What a creation transaction can change

The question for the code comes first and knows nothing of a transaction. What a node tells of the
transaction shows on the creation side and in the error, unless it ends in a defect. -/

namespace Attest

namespace Activity

theorem leads_inSession_iff {x : Activity α} {turns : List Turn} {a : α} :
    x.inSession.Leads turns a ↔ x.Leads turns a := by
  constructor
  · intro h
    cases h with
    | mark h =>
      obtain ⟨first, rest, b, rfl, hx, hrest⟩ := leads_bind_iff.mp h
      cases hrest with
      | mark hdone =>
        obtain ⟨rfl, rfl⟩ := leads_done_iff.mp hdone
        rwa [List.append_nil]
  · intro h
    refine .mark (leads_bind_iff.mpr ⟨turns, [], a, (List.append_nil turns).symm, h, ?_⟩)
    exact .mark (.done a)

theorem map_map (x : Activity α) (f : α → β) (g : β → γ) :
    (x.map f).map g = x.map fun a => g (f a) :=
  bind_assoc x _ _

theorem map_inSession (x : Activity α) (f : α → β) :
    x.inSession.map f = (x.map f).inSession := by
  rw [inSession, inSession, map, map]
  refine congrArg (mark .opened) ?_
  rw [bind_assoc, bind_assoc]
  rfl

theorem outcome_inSession (clock : Seconds) (outside : Outside) (x : Activity α) :
    x.inSession.outcome clock outside = x.outcome clock outside := by
  refine (outcome_bind clock outside x _).trans ?_
  cases x.outcome clock outside <;> rfl

/-- What comes of an activity is what some turns lead to, that brought what the outside had. -/
theorem leads_of_outcome {start : Outside} {x : Activity α} {clock : Seconds} {outside : Outside}
    {e : Ending α} (hleft : outside.LeftOf start) (h : x.outcome clock outside = some e) :
    ∃ turns, x.Leads turns e.answer ∧ (∀ t ∈ turns, t.From start) ∧ e.outside.LeftOf start := by
  induction x generalizing clock outside with
  | done a =>
    cases h
    exact ⟨[], .done a, by simp, hleft⟩
  | mark m rest ih =>
    obtain ⟨turns, hleads, hfrom, hend⟩ := ih hleft h
    exact ⟨turns, .mark hleads, hfrom, hend⟩
  | time next ih =>
    obtain ⟨turns, hleads, hfrom, hend⟩ := ih clock hleft h
    exact ⟨turns, .time clock hleads, hfrom, hend⟩
  | wait w expiry next ih =>
    have hturn (answer : Option w.Answer) (ht : Turn.From start ⟨w, answer⟩) {t : Seconds}
        (h : (next answer).outcome t (outside.serve w).2 = some e) :
        ∃ turns, (wait w expiry next).Leads turns e.answer ∧ (∀ t ∈ turns, t.From start) ∧
          e.outside.LeftOf start := by
      obtain ⟨turns, hleads, hfrom, hend⟩ := ih answer (hleft.serve w) h
      exact ⟨_, .wait answer hleads, List.forall_mem_cons.mpr ⟨ht, hfrom⟩, hend⟩
    rw [outcome] at h
    split at h
    · cases h
    · exact hturn _ (hleft.turn w) h
    · exact hturn _ (Turn.from_none start w) h

end Activity

namespace Chain

/-! ### Entries -/

/-- How notes on one side of a comparison begin. -/
def Entry.isOn (side note : String) : Bool := (side ++ ": ").toList.isPrefixOf note.toList

/-- The notes on one side of the comparison. -/
def Entry.notesOn (e : Entry) (side : String) : List String := e.notes.filter (Entry.isOn side)

namespace Investigation

/-- Entries that agree in all that was found out by the code alone. -/
structure SameRuntime (e e₀ : Entry) : Prop where
  chain : e.chain = e₀.chain
  runtime : e.runtime = e₀.runtime
  metadata : e.metadata = e₀.metadata
  notes : e.notesOn "runtime" = e₀.notesOn "runtime"

/-- The creation side of the comparison, absent without an artifact. -/
def creationOf (artifact : Option Artifact) (input : Option Bytes) :
    Except Defect (Verdict × List String) :=
  artifact.elim (.ok (.absent, [])) fun a => Comparison.creationSide a input

/-- The runtime side of the comparison, absent without an artifact. -/
def runtimeOf (artifact : Option Artifact) (code : Code) : Except Defect (Verdict × List String) :=
  artifact.elim (.ok (.absent, [])) fun a => Comparison.runtimeSide a code

open Node Node.Fetcher in
/-- What the work on a chain comes to when it asks for a creation transaction, beside what it comes to
without one. -/
inductive Beside (url hash : String) (artifact : Option Artifact) (turns : List Turn) :
    Except Defect Entry → Except Defect Entry → Prop
  /-- What is wrong with the code or with what was built breaks both. -/
  | broken (d : Defect) : Beside url hash artifact turns (.error d) (.error d)
  /-- There is creation code, and it is compared. -/
  | compared {input : Bytes} {e e₀ : Entry} (htold : Tells url hash turns (.ok input))
      (hruntime : SameRuntime e e₀)
      (hcreation : creationOf artifact (some input) = .ok (e.creation, e.notesOn "creation"))
      (herror : e.error = e₀.error) : Beside url hash artifact turns (.ok e) (.ok e₀)
  /-- There is a fault, and it is told with the error. -/
  | faulty {f : Node.Fault} {e e₀ : Entry} (htold : Tells url hash turns (.error (.fault f)))
      (hruntime : SameRuntime e e₀) (hcreation : e.creation = .absent)
      (hnotes : e.notesOn "creation" = [])
      (herror : e.error = some ("; ".intercalate (e₀.error.toList ++ [f.describe]))) :
      Beside url hash artifact turns (.ok e) (.ok e₀)
  /-- There is a defect, and all that was found out is lost. -/
  | escaped {d : Defect} (htold : Tells url hash turns (.error (.defect d)))
      (hescapes : Escapes url hash turns d) (r₀ : Except Defect Entry) :
      Beside url hash artifact turns (.error d) r₀
  /-- The artifact breaks the comparison with creation code. -/
  | incomparable {input : Bytes} {d : Defect} (htold : Tells url hash turns (.ok input))
      (h : creationOf artifact (some input) = .error d) (r₀ : Except Defect Entry) :
      Beside url hash artifact turns (.error d) r₀

theorem creationOf_none (artifact : Option Artifact) :
    creationOf artifact none = .ok (.absent, []) := by
  cases artifact <;> rfl

/-- All that is found out by the code alone: the runtime side, and the metadata. -/
def codeSide (artifact : Option Artifact) (code : Code) :
    Except Defect ((Verdict × List String) × Option (List (String × String))) := do
  let runtime ← runtimeOf artifact code
  return (runtime, ← metadata code)

/-- The creation side is judged first, and then all that the code alone tells. -/
theorem assess_eq (chain : Int) (artifact : Option Artifact) (f : Findings) :
    assess chain artifact f = (do
      let creation ← creationOf artifact f.creationInput
      let told ← codeSide artifact f.code
      return (⟨creation.1, told.1.1, creation.2 ++ told.1.2⟩,
        { chain, creation := creation.1, runtime := told.1.1, error := errorText f,
          notes := creation.2 ++ told.1.2, metadata := told.2 })) := by
  cases artifact with
  | none => simp only [assess, Comparison.make, creationOf, codeSide, runtimeOf, Option.elim_none,
      bind_assoc, pure_bind]; rfl
  | some artifact => simp only [assess, Comparison.make, creationOf, codeSide, runtimeOf,
      Option.elim_some, bind_assoc, pure_bind]

/-! ### Notes -/

/-- Notes that are all on one side. -/
def AllOn (side : String) (notes : List String) : Prop := ∀ n ∈ notes, ∃ s, n = side ++ ": " ++ s

theorem isOn_self (side s : String) : Entry.isOn side (side ++ ": " ++ s) = true := by
  have happend : (side ++ ": " ++ s).toList = (side ++ ": ").toList ++ s.toList :=
    String.toList_append
  rw [Entry.isOn, List.isPrefixOf_iff_prefix, happend]
  exact List.prefix_append _ _

theorem AllOn.filter_self {side : String} {notes : List String} (h : AllOn side notes) :
    notes.filter (Entry.isOn side) = notes := by
  refine List.filter_eq_self.mpr fun n hn => ?_
  obtain ⟨s, rfl⟩ := h n hn
  exact isOn_self side s

theorem AllOn.filter_other {side other : String} {notes : List String} (h : AllOn other notes)
    (hside : ∀ s, Entry.isOn side (other ++ ": " ++ s) = false) :
    notes.filter (Entry.isOn side) = [] := by
  refine List.filter_eq_nil_iff.mpr fun n hn => ?_
  obtain ⟨s, rfl⟩ := h n hn
  rw [hside s]
  decide

theorem allOn_of_side {name : String} {r : Except Obstacle Verdict} {v : Verdict × List String}
    (h : Comparison.side name r = .ok v) : AllOn name v.2 := by
  cases r with
  | ok verdict =>
    cases h
    simp [AllOn]
  | error o =>
    cases o with
    | inconsistent cause =>
      cases h
      intro n hn
      exact ⟨cause.message, List.mem_singleton.mp hn⟩
    | defect d => cases h

theorem allOn_creation {artifact : Option Artifact} {input : Option Bytes}
    {v : Verdict × List String} (h : creationOf artifact input = .ok v) : AllOn "creation" v.2 := by
  cases artifact with
  | none =>
    cases h
    simp [AllOn]
  | some artifact =>
    cases input with
    | none =>
      cases h
      simp [AllOn]
    | some input =>
      obtain ⟨parameters, _, h⟩ := Except.bind_eq_ok_iff.mp h
      exact allOn_of_side h

theorem allOn_runtime {artifact : Option Artifact} {code : Code} {v : Verdict × List String}
    (h : runtimeOf artifact code = .ok v) : AllOn "runtime" v.2 := by
  cases artifact with
  | none =>
    cases h
    simp [AllOn]
  | some artifact =>
    cases code with
    | present code =>
      obtain ⟨immutables, _, h⟩ := Except.bind_eq_ok_iff.mp h
      exact allOn_of_side h
    | empty =>
      cases h
      simp [AllOn]
    | failed reason =>
      cases h
      simp [AllOn]

/-- Notes of different kinds do not get mixed up. -/
theorem filter_notes {creation runtime account : List String} (hcreation : AllOn "creation" creation)
    (hruntime : AllOn "runtime" runtime) (haccount : AllOn "decompilation" account) :
    (creation ++ runtime ++ account).filter (Entry.isOn "creation") = creation ∧
      (creation ++ runtime ++ account).filter (Entry.isOn "runtime") = runtime := by
  rw [List.filter_append, List.filter_append, List.filter_append, List.filter_append,
    hcreation.filter_self, hruntime.filter_self]
  constructor
  · rw [hruntime.filter_other fun _ => by simp [Entry.isOn, List.isPrefixOf],
      haccount.filter_other fun _ => by simp [Entry.isOn, List.isPrefixOf], List.append_nil,
      List.append_nil]
  · rw [hcreation.filter_other fun _ => by simp [Entry.isOn, List.isPrefixOf],
      haccount.filter_other fun _ => by simp [Entry.isOn, List.isPrefixOf], List.append_nil,
      List.nil_append]

theorem notes_of_account {e e' : Entry} (h : e' = e ∨ WithAccount e e') :
    ∃ account decompilation, AllOn "decompilation" account ∧
      e' = { e with notes := e.notes ++ account, decompilation } := by
  rcases h with rfl | h
  · exact ⟨[], e'.decompilation, by simp [AllOn], by rw [List.append_nil]⟩
  · cases h with
    | account d => exact ⟨[], some d, by simp [AllOn], by rw [List.append_nil]⟩
    | note f =>
      refine ⟨["decompilation: " ++ f.describe], e.decompilation, fun n hn => ?_, rfl⟩
      exact ⟨f.describe, List.mem_singleton.mp hn⟩

/-- What an entry tells of findings. -/
structure Reads (chain : Int) (found : Findings) (creation : Verdict × List String)
    (told : (Verdict × List String) × Option (List (String × String))) (e : Entry) : Prop where
  chain : e.chain = chain
  creation : (e.creation, e.notesOn "creation") = creation
  runtime : (e.runtime, e.notesOn "runtime") = told.1
  metadata : e.metadata = told.2
  error : e.error = errorText found

/-- What findings come to, with an engine that breaks nothing. -/
inductive Weighs (chain : Int) (artifact : Option Artifact) (found : Findings) :
    Except Defect Entry → Prop
  | incomparable {d : Defect} (h : creationOf artifact found.creationInput = .error d) :
      Weighs chain artifact found (.error d)
  | broken {creation : Verdict × List String} {d : Defect}
      (hcreation : creationOf artifact found.creationInput = .ok creation)
      (h : codeSide artifact found.code = .error d) : Weighs chain artifact found (.error d)
  | read {creation : Verdict × List String}
      {told : (Verdict × List String) × Option (List (String × String))} {e : Entry}
      (hcreation : creationOf artifact found.creationInput = .ok creation)
      (h : codeSide artifact found.code = .ok told) (hreads : Reads chain found creation told e) :
      Weighs chain artifact found (.ok e)

variable {name : Document} {engine : Engine} {chain : Int} {artifact : Option Artifact}
  {found : Findings} {outside : Outside} {turns : List Turn} {r : Except Defect Entry}

/-- With an account or without, an entry tells the same. -/
theorem reads_of_assess {c : Comparison} {e e' : Entry}
    (h : assess chain artifact found = .ok (c, e)) (haccount : e' = e ∨ WithAccount e e') :
    ∃ creation told, creationOf artifact found.creationInput = .ok creation ∧
      codeSide artifact found.code = .ok told ∧ Reads chain found creation told e' := by
  rw [assess_eq] at h
  obtain ⟨creation, hcreation, h⟩ := Except.bind_eq_ok_iff.mp h
  obtain ⟨told, htold, h⟩ := Except.bind_eq_ok_iff.mp h
  cases h
  refine ⟨creation, told, hcreation, htold, ?_⟩
  have hruntime : AllOn "runtime" told.1.2 := by
    obtain ⟨runtime, hruntime, hmetadata⟩ := Except.bind_eq_ok_iff.mp htold
    obtain ⟨_, _, hmetadata⟩ := Except.bind_eq_ok_iff.mp hmetadata
    cases hmetadata
    exact allOn_runtime hruntime
  obtain ⟨account, _, hnotes, rfl⟩ := notes_of_account haccount
  obtain ⟨hcreationNotes, hruntimeNotes⟩ := filter_notes (allOn_creation hcreation) hruntime hnotes
  exact ⟨rfl, Prod.ext rfl hcreationNotes, Prod.ext rfl hruntimeNotes, rfl, rfl⟩

/-- No step of the outside engine breaks the work. -/
def Harmless (engine : Engine) (outside : Outside) : Prop :=
  engine = .listing ∨ ∀ step ∈ outside.heimdall, ¬Engine.Spoils step

/-- What a judgement comes to, unless the engine breaks it. -/
theorem weighs_of_judge (hengine : Engine.ofName name = .ok engine)
    (hharmless : Harmless engine outside)
    (h : (judge engine chain artifact found).Leads turns r)
    (hfrom : ∀ t ∈ turns, t.From outside) : Weighs chain artifact found r := by
  cases settled_of_judge hengine h hfrom with
  | incomparable hassess =>
    rw [assess_eq] at hassess
    rcases Except.bind_eq_error_iff.mp hassess with hcreation | ⟨creation, hcreation, hassess⟩
    · exact .incomparable hcreation
    rcases Except.bind_eq_error_iff.mp hassess with hcode | ⟨told, _, hassess⟩
    · exact .broken hcreation hcode
    · cases hassess
  | plain hassess _ =>
    obtain ⟨creation, told, hcreation, htold, hreads⟩ := reads_of_assess hassess (.inl rfl)
    exact .read hcreation htold hreads
  | accounted hassess _ haccount =>
    obtain ⟨creation, told, hcreation, htold, hreads⟩ := reads_of_assess hassess (.inr haccount)
    exact .read hcreation htold hreads
  | spoilt hassess hneeds hspoils =>
    rcases hharmless with rfl | hharmless
    · rw [judge, hassess] at h
      dsimp only at h
      rw [if_pos hneeds] at h
      cases h
    · obtain ⟨step, hstep, hspoils⟩ := hspoils
      exact absurd hspoils (hharmless step hstep)

/-- Without creation code, only what the code alone tells can break the work. -/
theorem Weighs.without {code : Code} {error : Option String}
    (h : Weighs chain artifact ⟨code, none, error⟩ r) :
    (∃ d, codeSide artifact code = .error d ∧ r = .error d) ∨
      ∃ told e, codeSide artifact code = .ok told ∧ r = .ok e ∧
        Reads chain ⟨code, none, error⟩ (.absent, []) told e := by
  cases h with
  | incomparable h => cases (creationOf_none artifact).symm.trans h
  | broken _ h => exact .inl ⟨_, h, rfl⟩
  | read hcreation h hreads =>
    cases (creationOf_none artifact).symm.trans hcreation
    exact .inr ⟨_, _, h, rfl, hreads⟩

theorem Reads.sameRuntime {found found₀ : Findings} {creation creation₀ : Verdict × List String}
    {told : (Verdict × List String) × Option (List (String × String))} {e e₀ : Entry}
    (h : Reads chain found creation told e) (h₀ : Reads chain found₀ creation₀ told e₀) :
    SameRuntime e e₀ where
  chain := h.chain.trans h₀.chain.symm
  runtime := congrArg Prod.fst (h.runtime.trans h₀.runtime.symm)
  metadata := h.metadata.trans h₀.metadata.symm
  notes := congrArg Prod.snd (h.runtime.trans h₀.runtime.symm)

section Beside

variable {url hash : String} {code : Code} {r₀ : Except Defect Entry}

theorem beside_of_input {input : Bytes} (htold : Node.Fetcher.Tells url hash turns (.ok input))
    (h : Weighs chain artifact ⟨code, some input, none⟩ r)
    (h₀ : Weighs chain artifact ⟨code, none, none⟩ r₀) : Beside url hash artifact turns r r₀ := by
  cases h with
  | incomparable h => exact .incomparable htold h r₀
  -- the code alone tells the same on both sides, so that it breaks both or neither
  | broken _ h =>
    rcases h₀.without with ⟨d, h', rfl⟩ | ⟨_, _, h', _⟩
    · cases h.symm.trans h'
      exact .broken _
    · cases h.symm.trans h'
  | read hcreation h hreads =>
    rcases h₀.without with ⟨d, h', _⟩ | ⟨_, e₀, h', rfl, hreads₀⟩
    · cases h.symm.trans h'
    · cases h.symm.trans h'
      refine .compared htold (hreads.sameRuntime hreads₀) ?_ (hreads.error.trans hreads₀.error.symm)
      rw [hreads.creation]
      exact hcreation

theorem errorText_fault (code : Code) (text : String) :
    errorText ⟨code, none, some text⟩ =
      some ("; ".intercalate ((errorText ⟨code, none, none⟩).toList ++ [text])) := by
  cases code with
  | failed reason => rfl
  | empty => rfl
  | present bytes => rfl

theorem beside_of_fault {f : Node.Fault}
    (htold : Node.Fetcher.Tells url hash turns (.error (.fault f)))
    (h : Weighs chain artifact ⟨code, none, some f.describe⟩ r)
    (h₀ : Weighs chain artifact ⟨code, none, none⟩ r₀) : Beside url hash artifact turns r r₀ := by
  rcases h.without with ⟨d, hcode, rfl⟩ | ⟨told, e, hcode, rfl, hreads⟩
  · rcases h₀.without with ⟨d₀, hcode₀, rfl⟩ | ⟨_, _, hcode₀, _⟩
    · cases hcode.symm.trans hcode₀
      exact .broken _
    · cases hcode.symm.trans hcode₀
  · rcases h₀.without with ⟨d₀, hcode₀, _⟩ | ⟨_, e₀, hcode₀, rfl, hreads₀⟩
    · cases hcode.symm.trans hcode₀
    · cases hcode.symm.trans hcode₀
      refine .faulty htold (hreads.sameRuntime hreads₀) (congrArg Prod.fst hreads.creation)
        (congrArg Prod.snd hreads.creation) ?_
      rw [hreads.error, hreads₀.error]
      exact errorText_fault code f.describe

end Beside

/-! ### Courses -/

/-- What follows when the code is known, or known to be lost. -/
def afterCode (engine : Engine) (f : Node.Fetcher) (s : Subject) :
    Except Defect Code → Activity (Except Defect Entry)
  | .error d => .done (.error d)
  | .ok code => (findCreation f s.creationTransaction).bind fun r =>
      match r with
      | .error d => .done (.error d)
      | .ok (input, error) => judge engine f.endpoint.chain s.artifact ⟨code, input, error⟩

/-- The findings, beside the code that was asked for first. -/
def findBeside (f : Node.Fetcher) (s : Subject) :
    Activity (Except Defect Code × Except Defect Findings) :=
  (findCode f s).bind fun code =>
    match code with
    | .error d => .done (code, .error d)
    | .ok c => (findCreation f s.creationTransaction).bind fun r =>
        match r with
        | .error d => .done (code, .error d)
        | .ok (input, error) => .done (code, .ok ⟨c, input, error⟩)

/-- The work on one chain, with the code that was found. -/
def withCode (engine : Engine) (f : Node.Fetcher) (s : Subject) :
    Activity (Except Defect Code × Except Defect Entry) :=
  (findBeside f s).inSession.bind fun found =>
    match found.2 with
    | .error d => .done (found.1, .error d)
    | .ok findings => (judge engine f.endpoint.chain s.artifact findings).map fun r => (found.1, r)

theorem map_snd_findBeside (f : Node.Fetcher) (s : Subject) :
    (findBeside f s).map Prod.snd = find f s := by
  rw [findBeside, Activity.map, Activity.bind_assoc]
  refine congrArg (Activity.bind _) (funext fun code => ?_)
  cases code with
  | error d => rfl
  | ok code =>
    refine (Activity.bind_assoc _ _ _).trans (congrArg (Activity.bind _) (funext fun r => ?_))
    rcases r with d | ⟨input, error⟩ <;> rfl

theorem map_snd_withCode (f : Node.Fetcher) (s : Subject) :
    (withCode engine f s).map Prod.snd = investigate engine f s := by
  rw [withCode, Activity.map, Activity.bind_assoc]
  refine Eq.trans ?_ (congrArg (fun x => Activity.bind (Activity.inSession x) _)
    (map_snd_findBeside f s))
  rw [← Activity.map_inSession, Activity.map, Activity.bind_assoc]
  refine congrArg (Activity.bind _) (funext fun found => ?_)
  obtain ⟨code, found⟩ := found
  cases found with
  | error d => rfl
  | ok found => exact (Activity.bind_assoc _ _ _).trans (Activity.bind_done _)

/-- What follows when the code is known begins after the question for it. -/
theorem leads_withCode {f : Node.Fetcher} {s : Subject} {code : Except Defect Code}
    (h : (withCode engine f s).Leads turns (code, r)) :
    ∃ asked rest, turns = asked ++ rest ∧ (afterCode engine f s code).Leads rest r := by
  obtain ⟨finding, judging, found, rfl, hfind, hjudge⟩ := Activity.leads_bind_iff.mp h
  obtain ⟨asked, rest, code', rfl, _, hrest⟩ :=
    Activity.leads_bind_iff.mp (Activity.leads_inSession_iff.mp hfind)
  refine ⟨asked, rest ++ judging, List.append_assoc .., ?_⟩
  cases code' with
  | error d =>
    obtain ⟨rfl, rfl⟩ := Activity.leads_done_iff.mp hrest
    obtain ⟨rfl, hresult⟩ := Activity.leads_done_iff.mp hjudge
    cases hresult
    exact .done _
  | ok c =>
    obtain ⟨told, rest, answer, rfl, htold, hrest⟩ := Activity.leads_bind_iff.mp hrest
    rcases answer with d | ⟨input, error⟩
    · obtain ⟨rfl, rfl⟩ := Activity.leads_done_iff.mp hrest
      obtain ⟨rfl, hresult⟩ := Activity.leads_done_iff.mp hjudge
      cases hresult
      exact Activity.leads_bind_iff.mpr
        ⟨told, [], _, by rw [List.append_nil, List.append_nil], htold, .done _⟩
    · obtain ⟨rfl, rfl⟩ := Activity.leads_done_iff.mp hrest
      obtain ⟨judging, last, judged, rfl, hjudge, hdone⟩ := Activity.leads_bind_iff.mp hjudge
      obtain ⟨rfl, hresult⟩ := Activity.leads_done_iff.mp hdone
      cases hresult
      exact Activity.leads_bind_iff.mpr
        ⟨told, judging, _, by rw [List.append_nil, List.append_nil], htold, hjudge⟩

theorem outcome_investigate (f : Node.Fetcher) (s : Subject) (clock : Seconds) (outside : Outside) :
    (investigate engine f s).outcome clock outside =
      ((findCode f s).outcome clock outside).bind fun e =>
        (afterCode engine f s e.answer).outcome e.clock e.outside := by
  refine (Activity.outcome_bind _ _ _ _).trans ?_
  rw [Activity.outcome_inSession]
  refine (congrArg (Option.bind · _) (Activity.outcome_bind _ _ _ _)).trans ?_
  rw [Option.bind_assoc]
  refine congrArg (Option.bind _) (funext fun code => ?_)
  obtain ⟨answer, clock, outside⟩ := code
  cases answer with
  | error d => rfl
  | ok code =>
    refine (congrArg (Option.bind · _) (Activity.outcome_bind _ _ _ _)).trans ?_
    rw [Option.bind_assoc]
    refine Eq.trans ?_ (Activity.outcome_bind _ _ _ _).symm
    refine congrArg (Option.bind _) (funext fun told => ?_)
    obtain ⟨answer, clock, outside⟩ := told
    rcases answer with d | ⟨input, error⟩ <;> rfl

/-- What asking for a creation transaction comes to. -/
theorem tells_of_findCreation {f : Node.Fetcher} {hash : String} {told : List Turn}
    {r : Except Defect (Option Bytes × Option String)}
    (h : (findCreation f (some hash)).Leads told r) :
    ∃ a, Node.Fetcher.Tells f.endpoint.url hash told a ∧
      r = record (fun input => (some input, none)) (fun error => (none, some error)) a := by
  obtain ⟨first, rest, a, rfl, hcreation, hdone⟩ := Activity.leads_bind_iff.mp h
  obtain ⟨rfl, rfl⟩ := Activity.leads_done_iff.mp hdone
  rw [List.append_nil]
  exact ⟨a, Node.Fetcher.tells_of_creationInput hcreation, rfl⟩

/-- What follows on the same code, once with a creation transaction and once without one. -/
theorem beside_of_afterCode (hengine : Engine.ofName name = .ok engine) {outside outside₀ : Outside}
    (hharmless : Harmless engine outside) (hharmless₀ : Harmless engine outside₀)
    {f : Node.Fetcher} {s : Subject} {hash : String} (hhash : s.creationTransaction = some hash)
    {asked rest rest₀ : List Turn} {code : Except Defect Code} {r r₀ : Except Defect Entry}
    (h : (afterCode engine f s code).Leads rest r) (hfrom : ∀ t ∈ rest, t.From outside)
    (h₀ : (afterCode engine f { s with creationTransaction := none } code).Leads rest₀ r₀)
    (hfrom₀ : ∀ t ∈ rest₀, t.From outside₀) :
    Beside f.endpoint.url hash s.artifact (asked ++ rest) r r₀ := by
  cases code with
  | error d =>
    obtain ⟨_, rfl⟩ := Activity.leads_done_iff.mp h
    obtain ⟨_, rfl⟩ := Activity.leads_done_iff.mp h₀
    exact .broken d
  | ok code =>
    -- without a transaction nothing is asked any more, and the code is judged by itself
    have hweighs₀ : Weighs f.endpoint.chain s.artifact ⟨code, none, none⟩ r₀ :=
      weighs_of_judge hengine hharmless₀ h₀ hfrom₀
    obtain ⟨told, judging, answer, rfl, htold, hjudge⟩ := Activity.leads_bind_iff.mp h
    rw [hhash] at htold
    obtain ⟨a, htells, rfl⟩ := tells_of_findCreation htold
    have htells := htells.mono
      (List.Subset.trans (List.subset_append_left told judging) (List.subset_append_right asked _))
    have hfrom (t) (ht : t ∈ judging) : t.From outside := hfrom t (List.mem_append_right told ht)
    cases a with
    | ok input => exact beside_of_input htells (weighs_of_judge hengine hharmless hjudge hfrom) hweighs₀
    | error problem =>
      cases problem with
      | fault fault =>
        exact beside_of_fault htells (weighs_of_judge hengine hharmless hjudge hfrom) hweighs₀
      | defect d =>
        obtain ⟨_, rfl⟩ := Activity.leads_done_iff.mp hjudge
        exact .escaped htells htells.escapes r₀

/-- Two histories of a chain in which the same code was found, one of them with a creation transaction. -/
theorem beside_of_leads (hengine : Engine.ofName name = .ok engine) {outside outside₀ : Outside}
    (hharmless : Harmless engine outside) (hharmless₀ : Harmless engine outside₀)
    {f : Node.Fetcher} {s : Subject} {hash : String} (hhash : s.creationTransaction = some hash)
    {turns turns₀ : List Turn} {code : Except Defect Code} {r r₀ : Except Defect Entry}
    (h : (withCode engine f s).Leads turns (code, r)) (hfrom : ∀ t ∈ turns, t.From outside)
    (h₀ : (withCode engine f { s with creationTransaction := none }).Leads turns₀ (code, r₀))
    (hfrom₀ : ∀ t ∈ turns₀, t.From outside₀) : Beside f.endpoint.url hash s.artifact turns r r₀ := by
  obtain ⟨asked, rest, rfl, hrest⟩ := leads_withCode h
  obtain ⟨asked₀, rest₀, rfl, hrest₀⟩ := leads_withCode h₀
  exact beside_of_afterCode hengine hharmless hharmless₀ hhash hrest
    (fun t ht => hfrom t (List.mem_append_right asked ht)) hrest₀
    (fun t ht => hfrom₀ t (List.mem_append_right asked₀ ht))

/-- The listing engine is done at once. -/
theorem exists_outcome_judge (chain : Int) (artifact : Option Artifact) (found : Findings)
    (clock : Seconds) (outside : Outside) :
    ∃ e, (judge .listing chain artifact found).outcome clock outside = some e := by
  rw [judge]
  split
  · exact ⟨_, rfl⟩
  · split <;> exact ⟨_, rfl⟩

/-- Where the work on a chain comes to an end, it does without the creation transaction too. -/
theorem beside_of_outcome {f : Node.Fetcher} {s : Subject} {hash : String}
    (hhash : s.creationTransaction = some hash) {clock : Seconds} {outside : Outside}
    {e : Activity.Ending (Except Defect Entry)}
    (h : (investigate .listing f s).outcome clock outside = some e) :
    ∃ e₀ turns,
      (investigate .listing f { s with creationTransaction := none }).outcome clock outside = some e₀ ∧
      (∀ t ∈ turns, t.From outside) ∧
      Beside f.endpoint.url hash s.artifact turns e.answer e₀.answer := by
  rw [outcome_investigate] at h
  obtain ⟨code, hcode, h⟩ := Option.bind_eq_some_iff.mp h
  obtain ⟨e₀, h₀⟩ : ∃ e₀, (afterCode .listing f { s with creationTransaction := none } code.answer).outcome
      code.clock code.outside = some e₀ := by
    obtain ⟨answer, clock, outside⟩ := code
    cases answer with
    | error d => exact ⟨_, rfl⟩
    | ok code => exact exists_outcome_judge _ _ _ _ _
  obtain ⟨asked, _, hfromAsked, hleft⟩ := Activity.leads_of_outcome (.refl outside) hcode
  obtain ⟨rest, hrest, hfrom, _⟩ := Activity.leads_of_outcome hleft h
  obtain ⟨rest₀, hrest₀, hfrom₀, _⟩ := Activity.leads_of_outcome hleft h₀
  refine ⟨e₀, asked ++ rest, ?_, List.forall_mem_append.mpr ⟨hfromAsked, hfrom⟩, ?_⟩
  · rw [outcome_investigate]
    exact Option.bind_eq_some_iff.mpr ⟨code, hcode, h₀⟩
  · have hengine : Engine.ofName (.text "evmdasm") = .ok .listing := rfl
    exact beside_of_afterCode hengine (.inl rfl) (.inl rfl) hhash hrest hfrom hrest₀ hfrom₀

end Investigation

/-! ### Surveys -/

namespace Survey

open Investigation

variable {s : Settings} {name : Document} {engine : Engine} {subject : Subject} {ids : List Int}
  {clock : Seconds} {deadline : Binary64} {outside : Outside} {chain : Document}

/-- A survey that keeps the code that was found on each chain, and remembers the turns. -/
def withCodes (s : Settings) (engine : Engine) (subject : Subject) (ids : List Int)
    (clock : Seconds) (deadline : Binary64) (outside : Outside) :
    Schedule.State ((Except Defect Code × Except Defect Entry) × List Turn) :=
  schedule s clock deadline outside <| ids.filterMap fun id =>
    (s.endpoint? id).map fun e =>
      ⟨id, (Investigation.withCode engine (.ofSettings e s) subject).remembered []⟩

theorem lookup_withCodes (id : Int) :
    (schedule s clock deadline outside (jobs s engine subject ids)).finished.lookup id =
      ((withCodes s engine subject ids clock deadline outside).finished.lookup id).map
        fun known => known.1.2 := by
  refine lookup_of_work (fun e => ?_) id
  let work := Investigation.withCode engine (.ofSettings e s) subject
  calc
    (work.remembered []).map (fun known => known.1.2) =
        ((work.remembered []).map Prod.fst).map Prod.snd := (Activity.map_map _ _ _).symm
    _ = work.map Prod.snd := congrArg _ (Activity.map_fst_remembered [] work)
    _ = investigate engine (.ofSettings e s) subject := map_snd_withCode _ _

/-- What is kept of a chain came of its work. -/
theorem leads_of_withCodes {id : Int} {code : Except Defect Code} {r : Except Defect Entry}
    {turns : List Turn}
    (h : (withCodes s engine subject ids clock deadline outside).finished.lookup id =
      some ((code, r), turns)) :
    ∃ e, s.endpoint? id = some e ∧
      (Investigation.withCode engine (.ofSettings e s) subject).Leads turns (code, r) ∧
      ∀ t ∈ turns, t.From outside := by
  have hjobs : (ids.filterMap fun id => (s.endpoint? id).map fun e =>
      (⟨id, (Investigation.withCode engine (.ofSettings e s) subject).remembered []⟩ :
        Schedule.Job _)) = (ids.filterMap fun id => (s.endpoint? id).map fun e =>
      (⟨id, Investigation.withCode engine (.ofSettings e s) subject⟩ :
        Schedule.Job _)).map Schedule.Job.remembered := by
    rw [List.map_filterMap]
    refine congrArg (List.filterMap · ids) (funext fun id => ?_)
    rw [Option.map_map]
    rfl
  rw [withCodes, hjobs] at h
  obtain ⟨job, hjob, rfl, hleads, hfrom⟩ :=
    Schedule.leads_of_finished (Schedule.mem_of_lookup_eq_some h)
  obtain ⟨id, _, hjob⟩ := List.mem_filterMap.mp hjob
  obtain ⟨e, he, rfl⟩ := Option.map_eq_some_iff.mp hjob
  exact ⟨e, he, hleads, hfrom⟩

/-- A chain's entry in a survey that keeps more of it. -/
theorem entryOf_mem (text : String) {id : Int} (hid : id ∈ ids) {code : Except Defect Code}
    {r : Except Defect Entry} {turns : List Turn}
    (h : (withCodes s engine subject ids clock deadline outside).finished.lookup id =
      some ((code, r), turns)) :
    entryOf chain id r ∈ entriesOf text (spelling? chain) ids
      (schedule s clock deadline outside (jobs s engine subject ids)) := by
  refine List.mem_map.mpr ⟨id, hid, entryFor_of_lookup ?_ text⟩
  rw [lookup_withCodes, h]
  rfl

/-- A creation transaction spares the runtime side. Whatever the node tells of it, a chain whose code is
found to be the same has the runtime verdict, the metadata and the notes on the runtime side that it has
without the transaction: what is wrong with the transaction shows in the error and in the verdict on the
creation side. Only a reply that breaks, a mined transaction with a recipient that is neither null nor a
text, and an artifact that cannot be compared with creation code lose what was found out. With the engine
that lists instructions, the chain comes to its end without the transaction whenever it does with it. -/
theorem transaction_spares_runtime (hengine : Engine.ofName name = .ok engine) {hash : String}
    (hhash : subject.creationTransaction = some hash) (htargets : targets s chain = .ok ids) :
    (0 ≤ s.maxInFlight →
      ∀ (clock clock₀ : Seconds) (deadline deadline₀ : Binary64) (outside outside₀ : Outside),
        Harmless engine outside → Harmless engine outside₀ →
        ∃ result result₀,
          run s engine subject chain clock deadline outside = .ok result ∧
          run s engine { subject with creationTransaction := none } chain clock₀ deadline₀ outside₀ =
            .ok result₀ ∧
          ∀ id ∈ ids, ∀ code r r₀ turns turns₀,
            (withCodes s engine subject ids clock deadline outside).finished.lookup id =
              some ((code, r), turns) →
            (withCodes s engine { subject with creationTransaction := none } ids clock₀ deadline₀
              outside₀).finished.lookup id = some ((code, r₀), turns₀) →
            Beside (nodeOf s id) hash subject.artifact turns r r₀ ∧ (∀ t ∈ turns, t.From outside) ∧
              entryOf chain id r ∈ result.entries ∧ entryOf chain id r₀ ∈ result₀.entries) ∧
    (1 ≤ s.maxInFlight → (s.chains.map (·.chain)).Nodup → (s.chains.map (·.url)).Nodup →
      ∀ (clock : Seconds) (deadline : Binary64) (outside : Outside),
        ∃ result, run s .listing subject chain clock deadline outside = .ok result ∧
          ∀ e ∈ s.chains, e.chain ∈ ids → ∀ r, result.final.finished.lookup e.chain = some r →
            ∃ t r₀ turns, ⟨t, e.chain, .acquired⟩ ∈ result.final.log ∧
              (alone s { subject with creationTransaction := none } chain e t outside).map (·.entries) =
                .ok [entryOf chain e.chain r₀] ∧
              Beside e.url hash subject.artifact turns r r₀ ∧
              (∀ u ∈ turns, u.From (outside.only e.url)) ∧ entryOf chain e.chain r ∈ result.entries) := by
  constructor
  · intro hslots clock clock₀ deadline deadline₀ outside outside₀ hharmless hharmless₀
    refine ⟨_, _, run_of_targets htargets hslots, run_of_targets htargets hslots, ?_⟩
    intro id hid code r r₀ turns turns₀ h h₀
    obtain ⟨e, he, hleads, hfrom⟩ := leads_of_withCodes h
    obtain ⟨e₀, he₀, hleads₀, hfrom₀⟩ := leads_of_withCodes h₀
    obtain rfl : e = e₀ := Option.some.inj (he.symm.trans he₀)
    refine ⟨?_, hfrom, entryOf_mem _ hid h, entryOf_mem _ hid h₀⟩
    rw [nodeOf_eq he]
    exact beside_of_leads hengine hharmless hharmless₀ hhash hleads hfrom hleads₀ hfrom₀
  · intro hslots hchains hurls clock deadline outside
    refine ⟨_, run_of_targets htargets (by omega), ?_⟩
    intro e he hid r hr
    obtain ⟨t, _, hlog, ending, hending, rfl, _⟩ :=
      finished_alone (p := fun _ => True) hchains hurls htargets he trivial
        (.inr Schedule.lasting_true) hr
    obtain ⟨ending₀, turns, hending₀, hfrom, hbeside⟩ := beside_of_outcome hhash hending
    refine ⟨t, ending₀.answer, turns, hlog, ?_, hbeside, hfrom, ?_⟩
    · exact alone_eq hslots hchains htargets he hid hending₀
    · exact List.mem_map.mpr ⟨e.chain, hid, entryFor_of_lookup hr _⟩

open CommandLine (mainnetOnly otherSubject)

/-- A node that has the code of an artifact, and the transaction that deployed it. -/
def deployed (recipient : Document) : Outside where
  nodes := [("u1", [
    ⟨0, .answered 200 "" (.document (.object [("result", .text "0x60")]))⟩,
    ⟨0, .answered 200 "" (.document (.object [("result", .object [("blockNumber", .text "0x1"),
      ("input", .text "0x60"), ("to", recipient)])]))⟩])]

def deployedSubject : Subject := { otherSubject with creationTransaction := some "0x1" }

theorem lookup_deployed (transaction : Option String)
    (h : transaction = none ∨ transaction = some "0x1") :
    ∃ r turns, (withCodes mainnetOnly .listing { otherSubject with creationTransaction := transaction }
      [1] 0 (.ofInt 300) (deployed .null)).finished.lookup 1 =
        some ((.ok (.present [0x60]), r), turns) := by
  have hcode : (((withCodes mainnetOnly .listing
      { otherSubject with creationTransaction := transaction } [1] 0 (.ofInt 300)
      (deployed .null)).finished.lookup 1).any fun known =>
        known.1.1.toOption == some (.present [0x60])) = true := by
    rcases h with rfl | rfl <;> decide +kernel
  obtain ⟨⟨⟨code, r⟩, turns⟩, hlookup, hcode⟩ := (Option.any_eq_true _ _).mp hcode
  obtain rfl : code = .ok (.present [0x60]) := Except.eq_ok_of_toOption (eq_of_beq hcode)
  exact ⟨r, turns, hlookup⟩

theorem transaction_spares_runtime_deployed :
    Engine.ofName (.text "evmdasm") = .ok .listing ∧
    deployedSubject.creationTransaction = some "0x1" ∧
    targets mainnetOnly (.int 1) = .ok [1] ∧
    (∃ r r₀ turns turns₀,
      (withCodes mainnetOnly .listing deployedSubject [1] 0 (.ofInt 300)
        (deployed .null)).finished.lookup 1 = some ((.ok (.present [0x60]), r), turns) ∧
      (withCodes mainnetOnly .listing { deployedSubject with creationTransaction := none } [1] 0
        (.ofInt 300) (deployed .null)).finished.lookup 1 =
          some ((.ok (.present [0x60]), r₀), turns₀) ∧
      Beside "u1" "0x1" deployedSubject.artifact turns r r₀) ∧
    (∃ result, run mainnetOnly .listing deployedSubject (.int 1) 0 (.ofInt 300) (deployed .null) =
        .ok result ∧
      ∃ r, result.final.finished.lookup 1 = some r ∧
        ∃ t r₀, (alone mainnetOnly { deployedSubject with creationTransaction := none } (.int 1)
          ⟨1, "mainnet", "u1"⟩ t (deployed .null)).map (·.entries) = .ok [entryOf (.int 1) 1 r₀]) := by
  have hengine : Engine.ofName (.text "evmdasm") = .ok .listing := rfl
  have hhash : deployedSubject.creationTransaction = some "0x1" := rfl
  have htargets : targets mainnetOnly (.int 1) = .ok [1] := rfl
  obtain ⟨hmany, halone⟩ := transaction_spares_runtime hengine hhash htargets
  obtain ⟨r, turns, h⟩ := lookup_deployed (some "0x1") (.inr rfl)
  obtain ⟨r₀, turns₀, h₀⟩ := lookup_deployed none (.inl rfl)
  refine ⟨hengine, hhash, htargets, ⟨r, r₀, turns, turns₀, h, h₀, ?_⟩, ?_⟩
  · obtain ⟨_, _, _, _, hbeside⟩ := hmany (by decide) 0 0 (.ofInt 300) (.ofInt 300) (deployed .null)
      (deployed .null) (.inl rfl) (.inl rfl)
    exact (hbeside 1 (by decide) _ r r₀ turns turns₀ h h₀).1
  · obtain ⟨result, hrun, hentries⟩ :=
      halone (by decide) (by decide) (by decide) 0 (.ofInt 300) (deployed .null)
    have hfinal : result.final = schedule mainnetOnly 0 (.ofInt 300) (deployed .null)
        (jobs mainnetOnly .listing deployedSubject [1]) := by
      cases (run_of_targets htargets (by decide)).symm.trans hrun
      rfl
    have hlookup : result.final.finished.lookup 1 = some r := by
      rw [hfinal, lookup_withCodes]
      exact congrArg (Option.map _) h
    obtain ⟨t, r₀, _, _, hr₀, _⟩ :=
      hentries ⟨1, "mainnet", "u1"⟩ (by decide) (by decide) r hlookup
    exact ⟨result, hrun, r, hlookup, t, r₀, hr₀⟩

/-- A number for a recipient takes the place of a runtime verdict that was there. -/
theorem number_loses_verdict :
    ∃ result result₀,
      run mainnetOnly .listing deployedSubject (.int 1) 0 (.ofInt 300) (deployed (.int 5)) = .ok result ∧
      run mainnetOnly .listing { deployedSubject with creationTransaction := none } (.int 1) 0
        (.ofInt 300) (deployed (.int 5)) = .ok result₀ ∧
      result.entries.map (fun e => (e.runtime, e.error)) =
        [(.absent, some "AttributeError: 'int' object has no attribute 'lower'")] ∧
      result₀.entries.map (fun e => (e.runtime, e.error)) = [(.exact, none)] := by
  obtain ⟨result, hresult, hentries⟩ := (Option.any_eq_true _ _).mp
    (by decide +kernel : ((run mainnetOnly .listing deployedSubject (.int 1) 0 (.ofInt 300)
      (deployed (.int 5))).toOption.any fun result => result.entries.map (fun e => (e.runtime, e.error)) ==
        [(.absent, some "AttributeError: 'int' object has no attribute 'lower'")]) = true)
  obtain ⟨result₀, hresult₀, hentries₀⟩ := (Option.any_eq_true _ _).mp
    (by decide +kernel : ((run mainnetOnly .listing { deployedSubject with creationTransaction := none }
      (.int 1) 0 (.ofInt 300) (deployed (.int 5))).toOption.any fun result =>
        result.entries.map (fun e => (e.runtime, e.error)) == [(.exact, none)]) = true)
  exact ⟨result, result₀, Except.eq_ok_of_toOption hresult, Except.eq_ok_of_toOption hresult₀,
    eq_of_beq hentries, eq_of_beq hentries₀⟩

end Survey

end Chain

end Attest
