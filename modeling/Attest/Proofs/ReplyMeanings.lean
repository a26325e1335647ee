import Attest.Proofs.TransactionFaults

/-! # What replies mean

Whatever is wrong with a reply, a call of a node ends in a fault. There are exactly two exceptions: a body
that is nested too deeply, and a reported error whose code is a list or an object. -/

namespace Attest.Node

/-- Whether a reply is looked into. A connection that failed has nothing to be looked into, and the
body of an answer that tells of a failure does not matter. -/
def Reply.isRead : Reply → Bool
  | .answered status _ _ => decide (status < 400)
  | .unreachable _ => false
  | .broken _ => true

/-- An answer with a result: an object that reports no error. -/
inductive Reply.Returns : Reply → Document → Prop
  | result {status : Int} {reason : String} {body : Body} {ms : Members} {result : Document}
      (hstatus : status < 400) (hbody : body.read? = .ok (some (.object ms)))
      (herror : ((Members.get? ms "error").getD .null).isGiven = false)
      (hresult : Members.get? ms "result" = some result) :
      Returns (.answered status reason body) result

variable {url method : String} {reply : Reply} {result : Document}

/-! ### Results -/

theorem resultIn_eq_ok_iff {doc? : Option Document} :
    resultIn method doc? = .ok result ↔ ∃ ms, doc? = some (.object ms) ∧
      ((Members.get? ms "error").getD .null).isGiven = false ∧
        Members.get? ms "result" = some result := by
  cases doc? with
  | none => simp [resultIn]
  | some doc =>
    cases doc with
    | object ms =>
      simp only [resultIn, Option.some.injEq, Document.object.injEq, exists_eq_left']
      by_cases hgiven : ((Members.get? ms "error").getD .null).isGiven = true
      · rw [if_pos hgiven]
        cases isTransient ((Members.get? ms "error").getD .null) with
        | ok t => simp [hgiven]
        | error d => simp [hgiven]
      · rw [if_neg hgiven]
        cases Members.get? ms "result" with
        | none => simp
        | some d => simp [hgiven]
    | _ => simp [resultIn]

section

variable {status : Int} {reason : String} {body : Body}

theorem classify_of_read? {doc? : Option Document} (h : status < 400) (hbody : body.read? = .ok doc?) :
    classify url method (.answered status reason body) = resultIn method doc? := by
  have hserver : ¬(status = 429 ∨ 500 ≤ status) := by omega
  rw [classify, if_neg hserver, if_neg (by omega), hbody]

theorem classify_of_read?_error {d : Defect} (h : status < 400) (hbody : body.read? = .error d) :
    classify url method (.answered status reason body) = .error (.defect d) := by
  have hserver : ¬(status = 429 ∨ 500 ≤ status) := by omega
  rw [classify, if_neg hserver, if_neg (by omega), hbody]

end

/-- An answer that tells of a failure is a fault, whatever its body is. -/
theorem classify_of_not_isRead (h : reply.isRead = false) :
    ∃ f, classify url method reply = .error (.fault (.call f)) := by
  cases reply with
  | unreachable message => exact ⟨_, rfl⟩
  | broken d => cases h
  | answered status reason body =>
    have hstatus : 400 ≤ status := by simpa [Reply.isRead] using h
    by_cases hserver : status = 429 ∨ 500 ≤ status
    · exact ⟨_, by rw [classify, if_pos hserver]⟩
    · exact ⟨_, by rw [classify, if_neg hserver, if_pos hstatus]⟩

theorem classify_eq_ok_iff : classify url method reply = .ok result ↔ reply.Returns result := by
  constructor
  · intro h
    cases hread : reply.isRead with
    | false =>
      obtain ⟨f, hfault⟩ := classify_of_not_isRead hread
      cases h.symm.trans hfault
    | true =>
      cases reply with
      | unreachable message => cases hread
      | broken d => cases h
      | answered status reason body =>
        have hstatus : status < 400 := by simpa [Reply.isRead] using hread
        cases hbody : body.read? with
        | error d => cases h.symm.trans (classify_of_read?_error hstatus hbody)
        | ok doc? =>
          rw [classify_of_read? hstatus hbody] at h
          obtain ⟨ms, rfl, herror, hresult⟩ := resultIn_eq_ok_iff.mp h
          exact .result hstatus hbody herror hresult
  · rintro ⟨hstatus, hbody, herror, hresult⟩
    rw [classify_of_read? hstatus hbody]
    exact resultIn_eq_ok_iff.mpr ⟨_, rfl, herror, hresult⟩

/-! ### Defects -/

/-- The code of a reported error is looked up among others, which no list and no object can be. -/
theorem resultIn_of_nested_code {ms es : Members} {code : Document}
    (herror : Members.get? ms "error" = some (.object es)) (hcode : Members.get? es "code" = some code)
    (h : (∃ xs, code = .list xs) ∨ ∃ cs, code = .object cs) :
    ∃ d, resultIn method (some (.object ms)) = .error (.defect d) := by
  have hgiven : (Document.object es).isGiven = true := by
    cases es with
    | nil => cases hcode
    | cons e es => rfl
  have hdefect : ∃ d, isTransient (.object es) = .error d := by
    rcases h with ⟨xs, rfl⟩ | ⟨cs, rfl⟩
    · exact ⟨_, by simp only [isTransient, hcode]; rfl⟩
    · exact ⟨_, by simp only [isTransient, hcode]; rfl⟩
  obtain ⟨d, hdefect⟩ := hdefect
  exact ⟨d, by simp only [resultIn, herror, Option.getD_some, hgiven, hdefect, if_true]⟩

theorem Reply.Breaks.classify_eq (h : reply.Breaks) (hread : reply.isRead = true) :
    ∃ d, classify url method reply = .error (.defect d) := by
  cases h with
  | broken d => exact ⟨d, rfl⟩
  | @tooDeep status reason s activity h =>
    have hbody : (Body.raw s).read? = .error (.tooDeep activity) := by
      rw [Body.read?, Json.read?, h]
      rfl
    exact ⟨_, classify_of_read?_error (of_decide_eq_true hread) hbody⟩
  | errorCode hbody herror hcode h =>
    rw [classify_of_read? (of_decide_eq_true hread) hbody]
    exact resultIn_of_nested_code herror hcode h

theorem classify_eq_defect_iff :
    (∃ d, classify url method reply = .error (.defect d)) ↔
      reply.Breaks ∧ reply.isRead = true := by
  constructor
  · rintro ⟨d, h⟩
    refine ⟨breaks_of_classify h, ?_⟩
    by_contra hread
    obtain ⟨f, hfault⟩ := classify_of_not_isRead (Bool.not_eq_true _ ▸ hread)
    cases h.symm.trans hfault
  · rintro ⟨hbreaks, hread⟩
    exact hbreaks.classify_eq hread

/-! ### Faults -/

theorem call_of_resultIn {doc? : Option Document} {f : Fault}
    (h : resultIn method doc? = .error (.fault f)) : ∃ c, f = .call c := by
  cases doc? with
  | none =>
    cases h
    exact ⟨_, rfl⟩
  | some doc =>
    cases doc with
    | object ms =>
      simp only [resultIn] at h
      split at h
      · split at h
        · cases h
        · cases h
          exact ⟨_, rfl⟩
      · split at h
        · cases h
        · cases h
          exact ⟨_, rfl⟩
    | _ =>
      cases h
      exact ⟨_, rfl⟩

/-- Faults of other kinds are not told by a single reply. -/
theorem call_of_classify {f : Fault} (h : classify url method reply = .error (.fault f)) :
    ∃ c, f = .call c := by
  cases hread : reply.isRead with
  | false =>
    obtain ⟨c, hfault⟩ : ∃ c, classify url method reply = .error (.fault (.call c)) :=
      classify_of_not_isRead hread
    cases h.symm.trans hfault
    exact ⟨c, rfl⟩
  | true =>
    cases reply with
    | unreachable message => cases hread
    | broken d => cases h
    | answered status reason body =>
      cases hbody : body.read? with
      | error d =>
        cases h.symm.trans (classify_of_read?_error (of_decide_eq_true hread) hbody)
      | ok doc? =>
        rw [classify_of_read? (of_decide_eq_true hread) hbody] at h
        exact call_of_resultIn h

/-- A call of a node gives the result in the answer, or a fault of the call, or it breaks. It gives the
result of an object that reports no error, and nothing else; it breaks on replies that are looked into
and break, and on no other. -/
theorem reply_meanings (url method : String) (reply : Reply) :
    (∀ result, classify url method reply = .ok result ↔ reply.Returns result) ∧
      ((∃ d, classify url method reply = .error (.defect d)) ↔
        reply.Breaks ∧ reply.isRead = true) ∧
      ((∃ f, classify url method reply = .error (.fault (.call f))) ↔
        (¬∃ result, reply.Returns result) ∧ ¬(reply.Breaks ∧ reply.isRead = true)) := by
  refine ⟨fun _ => classify_eq_ok_iff, classify_eq_defect_iff, ?_⟩
  have hok (result : Document) : reply.Returns result ↔ classify url method reply = .ok result :=
    classify_eq_ok_iff.symm
  have hdefect : reply.Breaks ∧ reply.isRead = true ↔
      ∃ d, classify url method reply = .error (.defect d) :=
    classify_eq_defect_iff.symm
  simp only [hok, hdefect]
  cases h : classify url method reply with
  | ok result => simp
  | error p =>
    cases p with
    | defect d => simp
    | fault f =>
      obtain ⟨c, rfl⟩ := call_of_classify h
      simp

/-- A node's own report of an error breaks the call when the error's code is a list. -/
theorem nested_code_breaks_call :
    classify "u" "eth_getCode" (.answered 200 "" (.document (.object [
      ("error", .object [("code", .list [.int 1]), ("message", .text "execution reverted")])]))) =
      .error (.defect (.wrongKind "unhashable type: 'list'")) := by
  rfl

end Attest.Node
