import Attest.Proofs.FinalAnswers

/-! What an entry says of the runtime code is what the node's final answer to the question for the code
says, and nothing else that the node was asked counts. -/

namespace Attest

/-! ### Engines -/

namespace Engine

variable {name : Document} {engine : Engine}

/-- An engine that asks nodes for nothing, whatever code it is given. -/
def AsksNoNode (engine : Engine) : Prop :=
  ∀ code, (engine.decompile code).Tells fun _ es => es = []

theorem eq_of_ofName (h : ofName name = .ok engine) : engine = listing ∨ engine = heimdall := by
  rw [ofName] at h
  cases hfind : [listing, heimdall].find? fun e => Document.isText e.name name with
  | none =>
    rw [hfind] at h
    cases h
  | some e =>
    rw [hfind] at h
    cases h
    have hmem := List.mem_of_find?_eq_some hfind
    rwa [List.mem_cons, List.mem_singleton] at hmem

theorem asksNoNode_ofName (h : ofName name = .ok engine) : engine.AsksNoNode := by
  intro code
  rcases eq_of_ofName h with rfl | rfl
  · rfl
  · intro answer
    cases answer <;> rfl

end Engine

namespace Chain

/-! ### Comparisons -/

theorem Code.ofBytes_eq_present_iff {bytes o : Bytes} :
    ofBytes bytes = present o ↔ bytes = o ∧ o ≠ [] := by
  cases bytes with
  | nil =>
    constructor
    · exact fun h => nomatch h
    · rintro ⟨rfl, h⟩
      exact absurd rfl h
  | cons b bytes =>
    constructor
    · intro h
      cases h
      exact ⟨rfl, List.cons_ne_nil b bytes⟩
    · rintro ⟨rfl, _⟩
      rfl

namespace Comparison

variable {artifact : Artifact} {code : Code}

/-- The runtime side matches when there is code, and it matches what was built. -/
theorem runtimeSide_isMatch_iff {side : Verdict × List String}
    (h : runtimeSide artifact code = .ok side) :
    side.1.isMatch = true ↔ ∃ o m v, code = .present o ∧ artifact.immutableMap = .ok m ∧
      Matching.runtime artifact.runtimeCode o m = .ok v ∧ v.isMatch = true := by
  cases code with
  | empty =>
    cases h
    simp [Verdict.isMatch]
  | failed reason =>
    cases h
    simp [Verdict.isMatch]
  | present o =>
    obtain ⟨m, hm, hside⟩ := Except.bind_eq_ok_iff.mp h
    cases hruntime : Matching.runtime artifact.runtimeCode o m with
    | ok v =>
      rw [hruntime] at hside
      cases hside
      constructor
      · exact fun hv => ⟨o, m, v, rfl, hm, hruntime, hv⟩
      · rintro ⟨o', m', v', ho, hm', hruntime', hv⟩
        cases ho
        obtain rfl : m = m' := Except.ok.inj (hm.symm.trans hm')
        obtain rfl : v = v' := Except.ok.inj (hruntime.symm.trans hruntime')
        exact hv
    | error obstacle =>
      rw [hruntime] at hside
      constructor
      · intro hv
        cases obstacle with
        | inconsistent cause =>
          cases hside
          cases hv
        | defect d => cases hside
      · rintro ⟨o', m', v', ho, hm', hruntime', hv⟩
        cases ho
        obtain rfl : m = m' := Except.ok.inj (hm.symm.trans hm')
        rw [hruntime] at hruntime'
        cases hruntime'

theorem make_sides {input : Option Bytes} {c : Comparison}
    (h : make code input (some artifact) = .ok c) :
    (∃ notes, creationSide artifact input = .ok (c.creation, notes)) ∧
      ∃ notes, runtimeSide artifact code = .ok (c.runtime, notes) := by
  obtain ⟨creation, hcreation, h⟩ := Except.bind_eq_ok_iff.mp h
  obtain ⟨runtime, hruntime, h⟩ := Except.bind_eq_ok_iff.mp h
  cases h
  exact ⟨⟨creation.2, hcreation⟩, runtime.2, hruntime⟩

end Comparison

/-! ### Entries -/

/-- The code that a node finally answered with matches what was built. -/
def CodeMatches (artifact : Artifact) (url : String) (exchanges : List Exchange) : Prop :=
  ∃ o m v, Node.finalCode url exchanges = some o ∧ o ≠ [] ∧ artifact.immutableMap = .ok m ∧
    Matching.runtime artifact.runtimeCode o m = .ok v ∧ v.isMatch = true

namespace Investigation

/-- Code that was found is the final answer, if that is code at all. -/
def Finds (url : String) (code : Code) (es : List Exchange) : Prop :=
  ∀ o, code = .present o ↔ Node.finalCode url es = some o ∧ o ≠ []

theorem Informs.finds {s : Subject} {url : String} {found : Findings} {es : List Exchange}
    (h : Informs url s found es) : Finds url found.code es := by
  intro o
  rcases h.code with ⟨o', hfinal, hcode⟩ | ⟨hfinal, reason, hcode⟩
  · rw [hcode, hfinal, Code.ofBytes_eq_present_iff]
    exact and_congr_left fun _ => Option.some_inj.symm
  · rw [hcode, hfinal]
    constructor
    · exact fun h => nomatch h
    · rintro ⟨h, _⟩
      cases h

/-! ### Judgements -/

/-- An entry is what findings say, with no more put in it than an account of code that matched nothing. -/
def Judges (chain : Int) (artifact : Option Artifact) (found : Findings) (e : Entry) : Prop :=
  ∃ c assessed, assess chain artifact found = .ok (c, assessed) ∧
    (e = assessed ∨ found.code.needsDecompiling c.creation c.runtime = true ∧
      ∃ decompilation notes, e = { assessed with decompilation, notes })

theorem addAccount_eq_ok {e e' : Entry} {r : Except Engine.Problem Decompilation}
    (h : addAccount e r = .ok e') : ∃ decompilation notes, e' = { e with decompilation, notes } := by
  cases r with
  | ok d =>
    cases h
    exact ⟨_, _, rfl⟩
  | error problem =>
    cases problem with
    | fault fault =>
      cases h
      exact ⟨_, _, rfl⟩
    | defect d => cases h

variable {engine : Engine}

theorem judge_tells (hengine : engine.AsksNoNode) (chain : Int) (artifact : Option Artifact)
    (found : Findings) :
    (judge engine chain artifact found).Tells fun r es =>
      es = [] ∧ ∀ e, r = .ok e → Judges chain artifact found e := by
  rw [judge]
  cases hassess : assess chain artifact found with
  | error d =>
    refine ⟨rfl, fun e he => ?_⟩
    cases he
  | ok assessed =>
    obtain ⟨c, assessed⟩ := assessed
    dsimp only
    split
    · rename_i hneeds
      refine (hengine found.code.bytes).bind fun r es hes => ?_
      obtain rfl := hes
      exact ⟨rfl, fun e he => ⟨c, assessed, hassess, .inr ⟨hneeds, addAccount_eq_ok he⟩⟩⟩
    · refine ⟨rfl, fun e he => ?_⟩
      cases he
      exact ⟨c, _, hassess, .inl rfl⟩

/-- The entry of a chain judges what the node of the chain finally answered. -/
theorem investigate_judges (hengine : engine.AsksNoNode) (f : Node.Fetcher) (s : Subject) :
    (investigate engine f s).Tells fun r es => ∀ e, r = .ok e →
      ∃ found, Informs f.endpoint.url s found es ∧
        Judges f.endpoint.chain s.artifact found e := by
  refine (find_inSession_informs f s).bind fun r es h => ?_
  cases r with
  | error d =>
    intro e he
    cases he
  | ok found =>
    refine (judge_tells hengine f.endpoint.chain s.artifact found).imp fun r es' hjudges e he => ?_
    obtain ⟨rfl, hjudges⟩ := hjudges
    rw [List.append_nil]
    exact ⟨found, h found rfl, hjudges e he⟩

/-! ### Verdicts on the runtime code -/

variable {artifact : Artifact} {chain : Int} {url : String} {found : Findings}
  {es : List Exchange} {e : Entry}

/-- What an entry has to do with the final answer for the code. -/
structure Accounts (artifact : Artifact) (chain : Int) (url : String) (e : Entry)
    (es : List Exchange) : Prop where
  chain : e.chain = chain
  runtime : e.runtime.isMatch = true ↔ CodeMatches artifact url es
  /-- Nothing is decompiled that matches. -/
  decompilation : e.runtime.isMatch = true → e.decompilation = none

theorem assess_accounts (hfinds : Finds url found.code es) {c : Comparison}
    (h : assess chain (some artifact) found = .ok (c, e)) :
    Accounts artifact chain url e es ∧ e.runtime = c.runtime := by
  obtain ⟨c', hmake, h⟩ := Except.bind_eq_ok_iff.mp h
  obtain ⟨fields, _, h⟩ := Except.bind_eq_ok_iff.mp h
  cases h
  obtain ⟨_, _, hside⟩ := Comparison.make_sides hmake
  refine ⟨⟨rfl, ?_, fun _ => rfl⟩, rfl⟩
  refine (Comparison.runtimeSide_isMatch_iff hside).trans ?_
  constructor
  · rintro ⟨o, m, v, hcode, hm, hruntime, hv⟩
    obtain ⟨hfinal, hne⟩ := (hfinds o).mp hcode
    exact ⟨o, m, v, hfinal, hne, hm, hruntime, hv⟩
  · rintro ⟨o, m, v, hfinal, hne, hm, hruntime, hv⟩
    exact ⟨o, m, v, (hfinds o).mpr ⟨hfinal, hne⟩, hm, hruntime, hv⟩

theorem not_isMatch_of_needsDecompiling {code : Code} {creation runtime : Verdict}
    (h : code.needsDecompiling creation runtime = true) : runtime.isMatch ≠ true := by
  cases code with
  | present o =>
    rw [Code.needsDecompiling, Bool.and_eq_true, Bool.not_eq_true', Bool.not_eq_true'] at h
    rw [h.2]
    exact Bool.false_ne_true
  | empty => cases h
  | failed reason => cases h

theorem Judges.accounts (h : Judges chain (some artifact) found e)
    (hfinds : Finds url found.code es) : Accounts artifact chain url e es := by
  obtain ⟨c, assessed, hassess, hadded⟩ := h
  obtain ⟨haccounts, hruntime⟩ := assess_accounts hfinds hassess
  rcases hadded with rfl | ⟨hneeds, _, _, rfl⟩
  · exact haccounts
  · have hmismatch : assessed.runtime.isMatch ≠ true := by
      rw [hruntime]
      exact not_isMatch_of_needsDecompiling hneeds
    exact ⟨haccounts.chain, haccounts.runtime, fun h => absurd h hmismatch⟩

/-- An entry's runtime verdict is a match exactly when the final answer for the code matches. -/
theorem investigate_tells (hengine : engine.AsksNoNode) (f : Node.Fetcher) {s : Subject}
    (hartifact : s.artifact = some artifact) :
    (investigate engine f s).Tells fun r es =>
      ∀ e, r = .ok e → Accounts artifact f.endpoint.chain f.endpoint.url e es := by
  refine (investigate_judges hengine f s).imp fun r es h e he => ?_
  obtain ⟨found, hinforms, hjudges⟩ := h e he
  rw [hartifact] at hjudges
  exact hjudges.accounts hinforms.finds

end Investigation

end Chain

end Attest
