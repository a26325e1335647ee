import Attest.Activity
import Attest.Bytes.Hex
import Attest.Node.Classification
import Attest.Node.Deployment
import Attest.Settings

/-! Asking a node about a chain: with retries after faults that may pass, and with one timeout over all
of them. -/

namespace Attest.Node

structure Fetcher where
  endpoint : Endpoint
  retries : Int
  /-- The first pause; each further one is twice as long. -/
  backoff : Binary64
  timeout : Binary64

namespace Fetcher

def ofSettings (endpoint : Endpoint) (s : Settings) : Fetcher :=
  ⟨endpoint, s.rpcRetries, s.rpcBackoff, s.chainTimeout⟩

/-- An activity that may end in a problem. -/
abbrev Asking (α : Type) := ExceptT Problem Activity α

/-- What needs no waiting. -/
def Asking.ofExcept (r : Except Problem α) : Asking α := ExceptT.mk (.done r)

def failed (f : CallFault) : Problem := .fault (.call f)

/-- The answer to a question that is settled. -/
def settled (r : Except Problem Document) : Activity (Except Problem Document) :=
  .mark .settled (.done r)

/-- Asks up to `attempts` times. No attempts at all give no answer and no fault. -/
def attempt (url : String) (call : Call) (timedOut : Problem) (expiry : Expiry) :
    (attempts : Nat) → (pause : Binary64) → Activity (Except Problem Document)
  | 0, _ => settled (.ok .null)
  | attempts + 1, pause =>
      .wait (.post url call) expiry fun reply =>
        match (reply : Option Reply) with
        | none => .done (.error timedOut)
        | some reply =>
            match classify url call.method reply with
            | .ok d => settled (.ok d)
            | .error p =>
                if !p.transient || attempts == 0 then settled (.error p)
                else
                  .wait (.pause pause) expiry fun rested =>
                    match (rested : Option Unit) with
                    | none => .done (.error timedOut)
                    | some () => attempt url call timedOut expiry attempts pause.double

/-- Asks with retries, all within the timeout. -/
def ask (f : Fetcher) (call : Call) : Asking Document :=
  let timedOut := failed (.timedOut call.method f.timeout.text)
  ExceptT.mk <|
    if f.timeout.isOver then .done (.error timedOut)
    else
      .time fun now =>
        attempt f.endpoint.url call timedOut (.after now f.timeout) (f.retries + 1).toNat f.backoff

/-- How much of a malformed text is shown. -/
def shownLength : Nat := 20

/-- The bytes of an answer in hexadecimal. -/
def decode (what : String) : Document → Except Problem Bytes
  | .text s =>
      match Hex.decode s with
      | .ok bs => .ok bs
      | .error _ =>
          let shown := String.ofList (s.toList.take shownLength)
          .error (failed (.malformed what (Text.quoted shown ++ "...")))
  | d => .error (failed (.malformed what d.literal))

/-- The code at an address, empty when there is none. -/
def code (f : Fetcher) (address : String) : Asking Bytes := do
  let answer ← f.ask ⟨"eth_getCode", .list [.text address, .text "latest"]⟩
  Asking.ofExcept (decode "code" answer)

/-- What is known of a transaction; one without a block is not mined yet. -/
structure Transaction where
  input : Bytes
  block : Option Int
  recipient : Document

/-- The number of a block, none when there is no block. -/
def blockNumber (d : Document) : Except Problem (Option Int) :=
  if !d.isGiven then .ok none
  else
    let fault := failed (.malformed "block number" d.literal)
    match d with
    | .text s => (Numeral.hexInt? s).elim (.error fault) fun n => .ok (some n)
    | _ => .error fault

def readTransaction (hash : String) : Document → Except Problem Transaction
  | .null => .error (.fault (.unknownTransaction hash))
  | .object ms => do
      let block ← blockNumber ((Members.get? ms "blockNumber").getD .null)
      let input ← decode "transaction input" ((Members.get? ms "input").getD (.text "0x"))
      return ⟨input, block, (Members.get? ms "to").getD .null⟩
  | d => .error (failed (.malformed "transaction" d.literal))

def transaction (f : Fetcher) (hash : String) : Asking Transaction := do
  let answer ← f.ask ⟨"eth_getTransactionByHash", .list [.text hash]⟩
  Asking.ofExcept (readTransaction hash answer)

/-- The creation code that a transaction deployed. -/
def creationInputOf (hash : String) (t : Transaction) : Except Problem Bytes :=
  if t.block.isNone then .error (.fault (.pendingTransaction hash))
  else (extractCreationCode t.recipient t.input).mapError .defect

/-- The creation code, with the constructor's arguments, that a transaction sent. -/
def creationInput (f : Fetcher) (hash : String) : Asking Bytes := do
  Asking.ofExcept (creationInputOf hash (← f.transaction hash))

end Fetcher

end Attest.Node
