import Attest.Proofs.EngineAccounts

/-! # What can be wrong with a creation transaction

Most of what a node may say of a transaction is creation code or a fault. Some replies break, and so
does a mined transaction whose recipient is neither null nor a text. -/

namespace Attest.Node

/-! ### Replies -/

/-- A reply that no fault is made of. -/
inductive Reply.Breaks : Reply → Prop
  | broken (d : Defect) : Breaks (.broken d)
  /-- The body is nested too deeply to be read. -/
  | tooDeep {status : Int} {reason s activity : String} (h : Json.read s = .error (.tooDeep activity)) :
      Breaks (.answered status reason (.raw s))
  /-- The node reports an error whose code is a list or an object. -/
  | errorCode {status : Int} {reason : String} {body : Body} {ms es : Members} {code : Document}
      (hbody : body.read? = .ok (some (.object ms))) (herror : Members.get? ms "error" = some (.object es))
      (hcode : Members.get? es "code" = some code)
      (h : (∃ xs, code = .list xs) ∨ ∃ cs, code = .object cs) : Breaks (.answered status reason body)

theorem kind_of_asKey {d : Document} {e : Defect} (h : d.asKey = .error e) :
    (∃ xs, d = .list xs) ∨ ∃ ms, d = .object ms := by
  cases d with
  | list xs => exact .inl ⟨xs, rfl⟩
  | object ms => exact .inr ⟨ms, rfl⟩
  | _ => cases h

theorem code_of_isTransient {error : Document} {d : Defect} (h : isTransient error = .error d) :
    ∃ es code, error = .object es ∧ Members.get? es "code" = some code ∧
      ((∃ xs, code = .list xs) ∨ ∃ cs, code = .object cs) := by
  cases error with
  | object es =>
    rcases Except.bind_eq_error_iff.mp h with h | ⟨transient, _, h⟩
    · rcases Except.bind_eq_error_iff.mp h with hkey | ⟨key, _, h⟩
      · cases hcode : Members.get? es "code" with
        | none =>
          rw [hcode] at hkey
          cases hkey
        | some code =>
          rw [hcode] at hkey
          exact ⟨es, code, rfl, hcode, kind_of_asKey hkey⟩
      · cases key <;> cases h
    · cases transient <;> cases h
  | _ => cases h

theorem breaks_of_resultIn {method : String} {status : Int} {reason : String} {body : Body}
    {doc? : Option Document} {d : Defect} (hbody : body.read? = .ok doc?)
    (h : resultIn method doc? = .error (.defect d)) : (Reply.answered status reason body).Breaks := by
  rcases doc? with _ | doc
  · cases h
  cases doc with
  | object ms =>
    simp only [resultIn] at h
    split at h
    · cases htransient : isTransient ((Members.get? ms "error").getD .null) with
      | ok t =>
        rw [htransient] at h
        cases h
      | error d' =>
        obtain ⟨es, code, herror, hcode, hkind⟩ := code_of_isTransient htransient
        cases hget : Members.get? ms "error" with
        | none =>
          rw [hget] at herror
          cases herror
        | some error =>
          rw [hget] at herror
          obtain rfl : error = .object es := herror
          exact .errorCode hbody hget hcode hkind
    · split at h
      · cases h
      · cases h
  | _ => cases h

/-- Only a reply that breaks comes to a defect. -/
theorem breaks_of_classify {url method : String} {reply : Reply} {d : Defect}
    (h : classify url method reply = .error (.defect d)) : reply.Breaks := by
  cases reply with
  | unreachable message => cases h
  | broken d => exact .broken d
  | answered status reason body =>
    rw [classify] at h
    split_ifs at h
    · cases h
    · cases h
    · cases hbody : body.read? with
      | error d' =>
        cases body with
        | document doc => cases hbody
        | raw s =>
          rcases Except.bind_eq_error_iff.mp hbody with hread | ⟨_, _, hread⟩
          · obtain ⟨activity, rfl⟩ := Json.tooDeep_of_read hread
            exact .tooDeep hread
          · cases hread
      | ok doc? =>
        rw [hbody] at h
        exact breaks_of_resultIn hbody h

namespace Fetcher

/-! ### Questions -/

/-- What a question came to: nothing where it was never put, a fault, or what a reply to it means. -/
def CameTo (url : String) (call : Call) (turns : List Turn) (r : Except Problem Document) : Prop :=
  r = .ok .null ∨ (∃ f, r = .error (.fault f)) ∨
    ∃ reply, ⟨.post url call, some reply⟩ ∈ turns ∧ classify url call.method reply = r

theorem CameTo.mono {url : String} {call : Call} {turns turns' : List Turn}
    {r : Except Problem Document} (h : CameTo url call turns r) (hsub : turns ⊆ turns') :
    CameTo url call turns' r := by
  refine h.imp_right (Or.imp_right ?_)
  rintro ⟨reply, hturn, hclassify⟩
  exact ⟨reply, hsub hturn, hclassify⟩

theorem eq_of_settled {a r : Except Problem Document} {turns : List Turn}
    (h : (settled a).Leads turns r) : turns = [] ∧ r = a := by
  cases h with
  | mark h => exact Activity.leads_done_iff.mp h

theorem cameTo_of_attempt {url : String} {call : Call} {timedOut : CallFault} {expiry : Expiry}
    {attempts : Nat} {pause : Binary64} {turns : List Turn} {r : Except Problem Document}
    (h : (attempt url call (failed timedOut) expiry attempts pause).Leads turns r) :
    CameTo url call turns r := by
  -- a retry starts with fewer attempts and a longer pause; its reply is among the later turns
  induction attempts generalizing pause turns with
  | zero =>
    obtain ⟨_, rfl⟩ := eq_of_settled h
    exact .inl rfl
  | succ attempts ih =>
    cases h with
    | @wait _ _ _ answer turns _ h =>
      cases answer with
      | none =>
        obtain ⟨_, rfl⟩ := Activity.leads_done_iff.mp h
        exact .inr (.inl ⟨_, rfl⟩)
      | some reply =>
        dsimp only at h
        cases hclassify : classify url call.method reply with
        | ok d =>
          rw [hclassify] at h
          obtain ⟨_, rfl⟩ := eq_of_settled h
          exact .inr (.inr ⟨reply, List.mem_cons_self, hclassify⟩)
        | error p =>
          rw [hclassify] at h
          dsimp only at h
          split at h
          · obtain ⟨_, rfl⟩ := eq_of_settled h
            exact .inr (.inr ⟨reply, List.mem_cons_self, hclassify⟩)
          · cases h with
            | @wait _ _ _ rested turns _ h =>
              cases rested with
              | none =>
                obtain ⟨_, rfl⟩ := Activity.leads_done_iff.mp h
                exact .inr (.inl ⟨_, rfl⟩)
              | some rested =>
                exact (ih h).mono fun _ ht =>
                  List.mem_cons_of_mem _ (List.mem_cons_of_mem _ ht)

theorem cameTo_of_ask {f : Fetcher} {call : Call} {turns : List Turn} {r : Except Problem Document}
    (h : (f.ask call).run.Leads turns r) : CameTo f.endpoint.url call turns r := by
  rw [ask, ExceptT.run_mk] at h
  split at h
  · obtain ⟨_, rfl⟩ := Activity.leads_done_iff.mp h
    exact .inr (.inl ⟨_, rfl⟩)
  · cases h with
    | time now h => exact cameTo_of_attempt h

theorem leads_then {x : Asking α} {g : α → Except Problem β} {turns : List Turn}
    {r : Except Problem β} (h : (x >>= fun a => Asking.ofExcept (g a)).run.Leads turns r) :
    ∃ a, x.run.Leads turns a ∧ r = a >>= g := by
  rw [ExceptT.run_bind] at h
  obtain ⟨first, rest, a, rfl, hx, hrest⟩ := Activity.leads_bind_iff.mp h
  cases a with
  | error p =>
    obtain ⟨rfl, rfl⟩ := Activity.leads_done_iff.mp hrest
    exact ⟨_, by rwa [List.append_nil], rfl⟩
  | ok a =>
    obtain ⟨rfl, rfl⟩ := Activity.leads_done_iff.mp hrest
    exact ⟨_, by rwa [List.append_nil], rfl⟩

/-! ### Transactions -/

theorem fault_of_decode {what : String} {d : Document} {p : Problem} (h : decode what d = .error p) :
    ∃ f, p = .fault f := by
  cases d with
  | text s =>
    rw [decode] at h
    split at h
    · cases h
    · exact ⟨_, (Except.error.inj h).symm⟩
  | _ => exact ⟨_, (Except.error.inj h).symm⟩

theorem fault_of_blockNumber {d : Document} {p : Problem} (h : blockNumber d = .error p) :
    ∃ f, p = .fault f := by
  rw [blockNumber] at h
  split_ifs at h
  cases d with
  | text s =>
    dsimp only at h
    cases hnumber : Numeral.hexInt? s with
    | none =>
      rw [hnumber] at h
      exact ⟨_, (Except.error.inj h).symm⟩
    | some n =>
      rw [hnumber] at h
      cases h
  | _ => exact ⟨_, (Except.error.inj h).symm⟩

/-- Whatever is wrong with a transaction itself, a fault is made of it. -/
theorem fault_of_readTransaction {hash : String} {d : Document} {p : Problem}
    (h : readTransaction hash d = .error p) : ∃ f, p = .fault f := by
  cases d with
  | object ms =>
    rcases Except.bind_eq_error_iff.mp h with h | ⟨block, _, h⟩
    · exact fault_of_blockNumber h
    rcases Except.bind_eq_error_iff.mp h with h | ⟨input, _, h⟩
    · exact fault_of_decode h
    · cases h
  | _ => exact ⟨_, (Except.error.inj h).symm⟩

/-- No creation code is made of a recipient that is neither null nor a text, and no fault. -/
theorem recipient_of_creationInputOf {hash : String} {t : Transaction} {d : Defect}
    (h : creationInputOf hash t = .error (.defect d)) :
    t.block ≠ none ∧ t.recipient ≠ .null ∧ (∀ s, t.recipient ≠ .text s) ∧
      d = .lacksMember t.recipient.kind "lower" := by
  rw [creationInputOf] at h
  split at h
  · cases h
  · rename_i hblock
    refine ⟨fun hnone => hblock (by rw [hnone]; rfl), ?_⟩
    cases hextract : extractCreationCode t.recipient t.input with
    | ok input =>
      rw [hextract] at h
      cases h
    | error d' =>
      rw [hextract] at h
      cases h
      cases hrecipient : t.recipient with
      | null =>
        rw [hrecipient] at hextract
        cases hextract
      | text s =>
        rw [hrecipient] at hextract
        cases hextract
      | _ =>
        rw [hrecipient] at hextract
        exact ⟨by simp, by simp, (Except.error.inj hextract).symm⟩

/-- The question for a transaction. -/
def transactionCall (hash : String) : Call := ⟨"eth_getTransactionByHash", .list [.text hash]⟩

/-- What a node told of a creation transaction: creation code, a fault, or a defect. -/
def Tells (url hash : String) (turns : List Turn) (r : Except Problem Bytes) : Prop :=
  ∃ answer, CameTo url (transactionCall hash) turns answer ∧
    r = (answer >>= readTransaction hash) >>= creationInputOf hash

theorem Tells.mono {url hash : String} {turns turns' : List Turn} {r : Except Problem Bytes}
    (h : Tells url hash turns r) (hsub : turns ⊆ turns') : Tells url hash turns' r :=
  h.imp fun _ h => ⟨h.1.mono hsub, h.2⟩

/-- How the question for a transaction ends in a defect: a reply breaks, or the transaction was mined
and has a recipient that is neither null nor a text. -/
inductive Escapes (url hash : String) (turns : List Turn) : Defect → Prop
  | reply {reply : Reply} {d : Defect}
      (hturn : ⟨.post url (transactionCall hash), some reply⟩ ∈ turns)
      (h : classify url (transactionCall hash).method reply = .error (.defect d))
      (hbreaks : reply.Breaks) : Escapes url hash turns d
  | recipient {reply : Reply} {answer : Document} {t : Transaction}
      (hturn : ⟨.post url (transactionCall hash), some reply⟩ ∈ turns)
      (hanswer : classify url (transactionCall hash).method reply = .ok answer)
      (hread : readTransaction hash answer = .ok t) (hmined : t.block ≠ none)
      (hnull : t.recipient ≠ .null) (htext : ∀ s, t.recipient ≠ .text s) :
      Escapes url hash turns (.lacksMember t.recipient.kind "lower")

theorem Tells.escapes {url hash : String} {turns : List Turn} {d : Defect}
    (h : Tells url hash turns (.error (.defect d))) : Escapes url hash turns d := by
  obtain ⟨answer, hanswer, h⟩ := h
  rcases Except.bind_eq_error_iff.mp h.symm with h | ⟨t, ht, hcreation⟩
  · rcases Except.bind_eq_error_iff.mp h with rfl | ⟨doc, _, hread⟩
    · rcases hanswer with h | ⟨f, h⟩ | ⟨reply, hturn, h⟩
      · cases h
      · cases h
      · exact .reply hturn h (breaks_of_classify h)
    · obtain ⟨f, hf⟩ := fault_of_readTransaction hread
      cases hf
  · obtain ⟨doc, rfl, hread⟩ := Except.bind_eq_ok_iff.mp ht
    obtain ⟨hmined, hnull, htext, rfl⟩ := recipient_of_creationInputOf hcreation
    rcases hanswer with h | ⟨f, h⟩ | ⟨reply, hturn, h⟩
    · cases h
      cases hread
    · cases h
    · exact .recipient hturn h hread hmined hnull htext

theorem tells_of_creationInput {f : Fetcher} {hash : String} {turns : List Turn}
    {r : Except Problem Bytes} (h : (f.creationInput hash).run.Leads turns r) :
    Tells f.endpoint.url hash turns r := by
  obtain ⟨transaction, htransaction, rfl⟩ := leads_then h
  obtain ⟨answer, hanswer, rfl⟩ := leads_then htransaction
  exact ⟨answer, cameTo_of_ask hanswer, rfl⟩

end Fetcher

end Attest.Node
