import Attest.Chain.Investigation
import Attest.Proofs.Outcome
import Attest.Proofs.Transcript
import Mathlib.Data.List.Basic

/-! # What a node answers in the end

Of all that a node is asked and tells, its final answer to each question is what counts. What is found of
a subject is what these answers say; where there is none, an error is recorded. -/

namespace Attest

/-! ## Final answers -/

namespace Node

/-- The last reply to a method, none if patience came to its end before it. -/
def lastReply (method : String) (exchanges : List Exchange) : Option Reply :=
  (exchanges.filter (·.call.method == method)).getLast?.bind (·.reply)

/-- The result that the final answer to a method holds, if it holds one. -/
def finalResult (url method : String) (exchanges : List Exchange) : Option Document :=
  (lastReply method exchanges).bind fun reply => (classify url method reply).toOption

/-- The code that a node finally answered with. -/
def finalCode (url : String) (exchanges : List Exchange) : Option Bytes :=
  (finalResult url "eth_getCode" exchanges).bind fun d => (Fetcher.decode "code" d).toOption

/-- The transaction that a node finally answered with. -/
def finalTransaction (url hash : String) (exchanges : List Exchange) : Option Fetcher.Transaction :=
  (finalResult url "eth_getTransactionByHash" exchanges).bind fun d =>
    (Fetcher.readTransaction hash d).toOption

/-- The creation code in the transaction that a node finally answered with, if it is mined. -/
def finalCreation (url hash : String) (exchanges : List Exchange) : Option Bytes :=
  (finalTransaction url hash exchanges).bind fun t => (Fetcher.creationInputOf hash t).toOption

variable {url hash method : String} {es es' : List Exchange}

theorem method_ne {method' : String} (h : ∀ e ∈ es, e.call.method = method)
    (hne : method ≠ method') : ∀ e ∈ es, e.call.method ≠ method' := by
  intro e he
  rw [h e he]
  exact hne

theorem filter_method_eq_nil (h : ∀ e ∈ es, e.call.method ≠ method) :
    es.filter (·.call.method == method) = [] := by
  rw [List.filter_eq_nil_iff]
  intro e he heq
  exact h e he (beq_iff_eq.mp heq)

theorem lastReply_append_left (h : ∀ e ∈ es, e.call.method ≠ method) :
    lastReply method (es ++ es') = lastReply method es' := by
  rw [lastReply, lastReply, List.filter_append, filter_method_eq_nil h, List.nil_append]

theorem lastReply_append_right (h : ∀ e ∈ es', e.call.method ≠ method) :
    lastReply method (es ++ es') = lastReply method es := by
  rw [lastReply, lastReply, List.filter_append, filter_method_eq_nil h, List.append_nil]

theorem lastReply_of_forall (h : ∀ e ∈ es, e.call.method = method) :
    lastReply method es = es.getLast?.bind (·.reply) := by
  have hself : es.filter (·.call.method == method) = es := by
    rw [List.filter_eq_self]
    intro e he
    exact beq_iff_eq.mpr (h e he)
  rw [lastReply, hself]

theorem finalCode_append_right (h : ∀ e ∈ es', e.call.method ≠ "eth_getCode") :
    finalCode url (es ++ es') = finalCode url es := by
  rw [finalCode, finalResult, lastReply_append_right h]
  rfl

theorem finalCreation_append_left
    (h : ∀ e ∈ es, e.call.method ≠ "eth_getTransactionByHash") :
    finalCreation url hash (es ++ es') = finalCreation url hash es' := by
  rw [finalCreation, finalTransaction, finalResult, lastReply_append_left h]
  rfl

theorem finalCreation_eq_some_iff {code : Bytes} :
    finalCreation url hash es = some code ↔
      ∃ t, finalTransaction url hash es = some t ∧ t.block ≠ none ∧
        extractCreationCode t.recipient t.input = .ok code := by
  rw [finalCreation, Option.bind_eq_some_iff]
  refine exists_congr fun t => and_congr_right fun _ => ?_
  rw [Fetcher.creationInputOf]
  cases t.block with
  | none => simp [Except.toOption]
  | some n =>
    cases extractCreationCode t.recipient t.input with
    | error d => simp [Except.toOption]
    | ok bytes => simp [Except.toOption]

/-! ## Questions -/

namespace Fetcher

/-- What comes of a question is what the last reply to it says, and nothing else is asked. -/
structure Settles (url : String) (call : Call) (r : Except Problem Document)
    (es : List Exchange) : Prop where
  calls : ∀ e ∈ es, e.call = call
  asked : es ≠ []
  result : r.toOption = (es.getLast?.bind (·.reply)).bind fun reply =>
    (classify url call.method reply).toOption

/-- One more attempt before others changes nothing about this. -/
theorem attempt_succ_tells {url : String} {call : Call} {timedOut : Problem} {expiry : Expiry}
    {attempts : Nat} (hrest : attempts ≠ 0 → ∀ pause,
      (attempt url call timedOut expiry attempts pause).Tells (Settles url call))
    (pause : Binary64) :
    (attempt url call timedOut expiry (attempts + 1) pause).Tells (Settles url call) := by
  have hone (reply : Option Reply) (r : Except Problem Document)
      (hr : r.toOption = reply.bind fun reply => (classify url call.method reply).toOption) :
      Settles url call r [⟨call, reply⟩] :=
    ⟨fun e he => by rw [List.mem_singleton.mp he], List.cons_ne_nil _ _, hr⟩
  intro reply
  cases reply with
  | none => exact hone none _ rfl
  | some reply =>
    dsimp only
    cases hclassify : classify url call.method reply with
    | ok d => exact hone (some reply) _ (congrArg Except.toOption hclassify).symm
    | error problem =>
      have hfailed : (classify url call.method reply).toOption = none := by rw [hclassify]; rfl
      dsimp only
      split
      · exact hone (some reply) _ hfailed.symm
      · rename_i hagain
        intro rested
        cases rested with
        | none => exact hone (some reply) _ hfailed.symm
        | some _ =>
          have hmore : attempts ≠ 0 := by
            rintro rfl
            simp at hagain
          refine (hrest hmore pause.double).imp fun r es hes => ?_
          refine ⟨?_, List.cons_ne_nil _ _, ?_⟩
          · intro e he
            obtain rfl | he := List.mem_cons.mp he
            · rfl
            · exact hes.calls e he
          · change r.toOption = ((⟨call, some reply⟩ :: es).getLast?.bind (·.reply)).bind _
            rw [List.getLast?_cons_of_ne_nil hes.asked]
            exact hes.result

theorem attempt_tells (url : String) (call : Call) (timedOut : Problem) (expiry : Expiry)
    (attempts : Nat) (pause : Binary64) :
    (attempt url call timedOut expiry (attempts + 1) pause).Tells (Settles url call) := by
  induction attempts generalizing pause with
  | zero => exact attempt_succ_tells (fun h => absurd rfl h) pause
  | succ attempts ih => exact attempt_succ_tells (fun _ => ih) pause

/-- With no attempts or no time at all, nothing is asked, and there is no answer or an empty one. -/
theorem ask_tells (f : Fetcher) (call : Call) :
    (f.ask call).run.Tells fun r es => Settles f.endpoint.url call r es ∨
      es = [] ∧ ∀ d, r = .ok d → d = .null := by
  rw [ask, ExceptT.run_mk]
  split
  · exact .inr ⟨rfl, fun d hd => nomatch hd⟩
  · intro now
    cases (f.retries + 1).toNat with
    | zero =>
      refine .inr ⟨rfl, fun d hd => ?_⟩
      cases hd
      rfl
    | succ attempts => exact (attempt_tells _ _ _ _ _ _).imp fun r es h => .inl h

/-- What is read in the answer to a question is what is read in the final result. -/
theorem ask_then_tells {β : Type} (f : Fetcher) (call : Call) {g : Document → Except Problem β}
    (hnull : (g .null).toOption = none) :
    (f.ask call >>= fun d => Asking.ofExcept (g d)).run.Tells fun r es =>
      (∀ e ∈ es, e.call.method = call.method) ∧
        r.toOption = (finalResult f.endpoint.url call.method es).bind fun d => (g d).toOption := by
  rw [ExceptT.run_bind]
  refine (ask_tells f _).bind fun r es h => ?_
  have hcalls : ∀ e ∈ es, e.call.method = call.method := by
    intro e he
    rcases h with h | ⟨rfl, _⟩
    · rw [h.calls e he]
    · cases he
  have hread : (r.toOption.bind fun d => (g d).toOption) =
      (finalResult f.endpoint.url call.method es).bind fun d => (g d).toOption := by
    rcases h with h | ⟨rfl, hd⟩
    · rw [h.result, finalResult, lastReply_of_forall hcalls]
    · cases r with
      | error p => rfl
      | ok d =>
        obtain rfl := hd d rfl
        exact hnull
  rw [← List.append_nil es] at hcalls hread
  cases r with
  | error p => exact ⟨hcalls, hread⟩
  | ok d => exact ⟨hcalls, hread⟩

theorem code_tells (f : Fetcher) (address : String) :
    (f.code address).run.Tells fun r es =>
      (∀ e ∈ es, e.call.method = "eth_getCode") ∧ r.toOption = finalCode f.endpoint.url es :=
  f.ask_then_tells ⟨"eth_getCode", .list [.text address, .text "latest"]⟩ rfl

theorem transaction_tells (f : Fetcher) (hash : String) :
    (f.transaction hash).run.Tells fun r es =>
      (∀ e ∈ es, e.call.method = "eth_getTransactionByHash") ∧
        r.toOption = finalTransaction f.endpoint.url hash es :=
  f.ask_then_tells ⟨"eth_getTransactionByHash", .list [.text hash]⟩ rfl

theorem creationInput_tells (f : Fetcher) (hash : String) :
    (f.creationInput hash).run.Tells fun r es =>
      (∀ e ∈ es, e.call.method = "eth_getTransactionByHash") ∧
        r.toOption = finalCreation f.endpoint.url hash es := by
  rw [creationInput, ExceptT.run_bind]
  refine (transaction_tells f hash).bind fun r es h => ?_
  obtain ⟨hcalls, hread⟩ := h
  have hcode : (r.toOption.bind fun t => (creationInputOf hash t).toOption) =
      finalCreation f.endpoint.url hash es := by
    rw [hread, finalCreation]
  rw [← List.append_nil es] at hcalls hcode
  cases r with
  | error p => exact ⟨hcalls, hcode⟩
  | ok t => exact ⟨hcalls, hcode⟩

end Fetcher

end Node

/-! ## Findings -/

namespace Chain.Investigation

/-- What is found follows from the final answers: code and creation code as they were answered, and an
error in the place of each that was not. -/
structure Informs (url : String) (s : Subject) (found : Findings) (es : List Exchange) : Prop where
  code : (∃ o, Node.finalCode url es = some o ∧ found.code = .ofBytes o) ∨
    (Node.finalCode url es = none ∧ ∃ reason, found.code = .failed reason)
  creation : ∀ hash, s.creationTransaction = some hash →
    (∃ i, Node.finalCreation url hash es = some i ∧ found.creationInput = some i ∧
        found.creationError = none) ∨
      (Node.finalCreation url hash es = none ∧ ∃ error, found.creationError = some error)
  untold : s.creationTransaction = none → found.creationError = none

theorem record_eq_ok {α β : Type} {found : α → β} {failed : String → β}
    {r : Except Node.Problem α} {b : β} (h : record found failed r = .ok b) :
    (∃ a, r.toOption = some a ∧ b = found a) ∨ (r.toOption = none ∧ ∃ text, b = failed text) := by
  cases r with
  | ok a =>
    cases h
    exact .inl ⟨a, rfl, rfl⟩
  | error p =>
    cases p with
    | fault f =>
      cases h
      exact .inr ⟨rfl, _, rfl⟩
    | defect d => cases h

variable (f : Node.Fetcher) (s : Subject)

theorem findCode_informs :
    (findCode f s).Tells fun r es => (∀ e ∈ es, e.call.method = "eth_getCode") ∧
      ∀ code, r = .ok code → (∃ o, Node.finalCode f.endpoint.url es = some o ∧ code = .ofBytes o) ∨
        (Node.finalCode f.endpoint.url es = none ∧ ∃ reason, code = .failed reason) := by
  refine (Node.Fetcher.code_tells f s.address).map fun r es h => ?_
  obtain ⟨hcalls, hcode⟩ := h
  refine ⟨hcalls, fun code hr => ?_⟩
  rw [← hcode]
  exact record_eq_ok hr

theorem findCreation_informs (transaction : Option String) :
    (findCreation f transaction).Tells fun r es =>
      (∀ e ∈ es, e.call.method = "eth_getTransactionByHash") ∧
        ∀ input error, r = .ok (input, error) → (transaction = none → error = none) ∧
          ∀ hash, transaction = some hash →
            (∃ i, Node.finalCreation f.endpoint.url hash es = some i ∧ input = some i ∧
                error = none) ∨
              (Node.finalCreation f.endpoint.url hash es = none ∧ ∃ text, error = some text) := by
  cases transaction with
  | none =>
    refine ⟨fun e he => absurd he List.not_mem_nil, fun input error hr => ?_⟩
    cases hr
    refine ⟨fun _ => rfl, fun hash h => ?_⟩
    cases h
  | some hash =>
    refine (Node.Fetcher.creationInput_tells f hash).map fun r es h => ?_
    obtain ⟨hcalls, hcode⟩ := h
    refine ⟨hcalls, fun input error hr => ⟨fun h => ?_, fun other h => ?_⟩⟩
    · cases h
    · cases h
      rw [← hcode]
      rcases record_eq_ok hr with ⟨i, hi, hpair⟩ | ⟨hnone, text, hpair⟩
      · cases hpair
        exact .inl ⟨i, hi, rfl, rfl⟩
      · cases hpair
        exact .inr ⟨hnone, text, rfl⟩

theorem find_informs :
    (find f s).Tells fun r es => ∀ found, r = .ok found → Informs f.endpoint.url s found es := by
  refine (findCode_informs f s).bind fun r es h => ?_
  obtain ⟨hcalls, hcode⟩ := h
  cases r with
  | error d =>
    intro found hr
    cases hr
  | ok code =>
    refine (findCreation_informs f s.creationTransaction).bind fun r es' h => ?_
    obtain ⟨hcalls', hcreation⟩ := h
    cases r with
    | error d =>
      intro found hr
      cases hr
    | ok creation =>
      intro found hr
      cases hr
      obtain ⟨huntold, htold⟩ := hcreation _ _ rfl
      rw [List.append_nil]
      refine ⟨?_, fun hash hhash => ?_, huntold⟩
      · rw [Node.finalCode_append_right (Node.method_ne hcalls' (by decide))]
        exact hcode code rfl
      · rw [Node.finalCreation_append_left (Node.method_ne hcalls (by decide))]
        exact htold hash hhash

theorem find_inSession_informs :
    (find f s).inSession.Tells fun r es => ∀ found, r = .ok found →
      Informs f.endpoint.url s found es := by
  refine (find_informs f s).bind fun r es h => ?_
  rw [← List.append_nil es] at h
  exact h

end Chain.Investigation

end Attest
