import Attest.Number.Numeral
import Attest.Text.Quoted

/-! Settings: which chains are asked where, and the limits on time and effort. -/

namespace Attest

/-- A chain and the address of a node that serves it. -/
structure Endpoint where
  chain : Int
  name : String
  url : String
  deriving DecidableEq, Repr

/-- A chain that can be configured, and the variable that holds its node's address. -/
structure SupportedChain where
  id : Int
  name : String
  urlVariable : String

def supportedChains : List SupportedChain := [
  ⟨1, "mainnet", "MAINNET_RPC_URL"⟩,
  ⟨5, "goerli", "GOERLI_RPC_URL"⟩,
  ⟨10, "optimism", "OPTIMISM_RPC_URL"⟩,
  ⟨100, "gnosis", "GNOSIS_CHAIN_RPC_URL"⟩,
  ⟨137, "polygon", "POLYGON_RPC_URL"⟩,
  ⟨42161, "arbitrum-one", "ARBITRUM_ONE_RPC_URL"⟩,
  ⟨43114, "avalanche", "AVALANCHE_RPC_URL"⟩,
  ⟨11155111, "sepolia", "SEPOLIA_RPC_URL"⟩]

def SupportedChain.find? (id : Int) : Option SupportedChain :=
  supportedChains.find? (·.id == id)

/-- Durations are in seconds. -/
structure Settings where
  chains : List Endpoint := []
  maxInFlight : Int := 4
  rpcTimeout : Binary64 := .ofInt 10
  rpcRetries : Int := 3
  rpcBackoff : Binary64 := .ofRatio false 1 2
  chainTimeout : Binary64 := .ofInt 60
  deadline : Binary64 := .ofInt 300
  buildTool : String := "forge"

/-- Why settings are refused. -/
inductive SettingsFault where
  | unsupportedChain (id : Int)
  | buildTool (given : String)
  | notANumber (name given : String)
  | outOfRange (name given : String)
  deriving DecidableEq, Repr

def SettingsFault.message : SettingsFault → String
  | unsupportedChain id => s!"Unsupported chain id {id}"
  | buildTool given => s!"COVERIFY_BUILD_TOOL must be 'forge' or 'solc', got {Text.quoted given}"
  | notANumber name given => s!"{name} must be a number, got {Text.quoted given}"
  | outOfRange name given => s!"{name} out of range: {Text.quoted given}"

/-- Variables and their values. -/
abbrev Environment := List (String × String)

/-- The store of secrets, which may refuse to answer. -/
inductive Keyring where
  | entries (secrets : List (String × String))
  | locked

/-- Where settings come from. -/
structure Surroundings where
  environment : Environment := []
  keyring : Keyring := .entries []

namespace Surroundings

def value? (s : Surroundings) (name : String) : Option String := s.environment.lookup name

/-- A value that is there and not empty. -/
def nonempty (value : Option String) : Option String := value.filter (!·.isEmpty)

/-- A secret from the environment, else from the keyring. -/
def secret? (s : Surroundings) (name : String) : Option String :=
  (nonempty (s.value? name)).or <|
    match s.keyring with
    | .entries secrets => nonempty (secrets.lookup name)
    | .locked => none

end Surroundings

namespace Settings

def endpoint? (s : Settings) (chain : Int) : Option Endpoint :=
  s.chains.find? (·.chain == chain)

/-- Puts an endpoint in the place of the one of its chain, or at the end. -/
def putEndpoint : List Endpoint → Endpoint → List Endpoint
  | [], e => [e]
  | d :: ds, e => if d.chain = e.chain then e :: ds else d :: putEndpoint ds e

/-- One endpoint a chain: the first place and the last address. -/
def resolve (es : List Endpoint) : List Endpoint := es.foldl putEndpoint []

/-- The endpoint of a chain, none if no address is known. -/
def endpointOf (s : Surroundings) (id : Int) : Except SettingsFault (Option Endpoint) :=
  match SupportedChain.find? id with
  | none => .error (.unsupportedChain id)
  | some c => .ok ((s.secret? c.urlVariable).map fun url => ⟨c.id, c.name, url⟩)

def endpoints (s : Surroundings) (wanted : List Int) : Except SettingsFault (List Endpoint) := do
  return resolve ((← wanted.mapM (endpointOf s)).filterMap id)

/-- A kind of number that a variable may hold. -/
structure Quantity (α : Type) where
  read? : String → Option α
  negative : α → Bool
  zero : α → Bool

def count : Quantity Int := ⟨Numeral.int?, fun i => decide (i < 0), fun i => i == 0⟩

/-- A number that is neither below zero nor zero; what is no number at all passes. -/
def duration : Quantity Binary64 where
  read? := Numeral.double?
  negative := Binary64.isNegative
  zero := Binary64.isZero

/-- The number in a variable, or the stand-in when it is not set or empty. -/
def number (s : Surroundings) (q : Quantity α) (name : String) (standIn : α) (zeroAllowed : Bool) :
    Except SettingsFault α :=
  match Surroundings.nonempty (s.value? name) with
  | none => .ok standIn
  | some raw =>
      match q.read? raw with
      | none => .error (.notANumber name raw)
      | some v =>
          if q.negative v || (q.zero v && !zeroAllowed) then .error (.outOfRange name raw) else .ok v

def buildTools : List String := ["forge", "solc"]

def buildToolOf (s : Surroundings) : Except SettingsFault String :=
  let tool := (s.value? "COVERIFY_BUILD_TOOL").getD "forge"
  if buildTools.contains tool then .ok tool else .error (.buildTool tool)

/-- Settings for the wanted chains, or for all that are supported. The first fault in the order of
the fields counts. -/
def load (s : Surroundings) (wanted : Option (List Int)) : Except SettingsFault Settings := do
  let chains ← endpoints s (wanted.getD (supportedChains.map (·.id)))
  let buildTool ← buildToolOf s
  let standard : Settings := {}
  let maxInFlight ← number s count "COVERIFY_MAX_IN_FLIGHT" standard.maxInFlight false
  let rpcTimeout ← number s duration "COVERIFY_RPC_TIMEOUT" standard.rpcTimeout false
  let rpcRetries ← number s count "COVERIFY_RPC_RETRIES" standard.rpcRetries true
  let rpcBackoff ← number s duration "COVERIFY_RPC_BACKOFF" standard.rpcBackoff false
  let chainTimeout ← number s duration "COVERIFY_CHAIN_TIMEOUT" standard.chainTimeout false
  let deadline ← number s duration "COVERIFY_DEADLINE" standard.deadline false
  return {
    chains, maxInFlight, rpcTimeout, rpcRetries, rpcBackoff, chainTimeout, deadline, buildTool }

end Settings

end Attest
