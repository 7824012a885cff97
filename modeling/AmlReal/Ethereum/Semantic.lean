import Mathlib.Data.List.Sort
import Mathlib.Data.List.Dedup
import Mathlib.Algebra.Order.Field.Rat
import AmlReal.Foundations.Totals
import AmlReal.Ethereum.Movements

/-! # Semantic events

`ethereum/semantic.rs`: the logs of a transaction read as swaps, changes of
liquidity, mixer calls and bridge transfers, and the summary row of the
transaction. Keccak-256 and SHA-256 are parameters; `evidence_json` is the
record it is printed from, and a confidence the rational it stands for. -/

namespace AmlReal.Ethereum.Semantic
open AmlReal.Foundations AmlReal.Foundations.EntryList AmlReal.Foundations.FixedWidth
open AmlReal.Foundations.Totals AmlReal.Ethereum.Movements

def DETECTOR : String := "ethereum_semantic_decoder"
def DETECTOR_VERSION : String := "ethereum_semantic_v3_exact_flows"

/-! ## Event signatures -/

inductive EventSignature where
  | swapV2
  | swapV3
  | curveSwap
  | curveUnderlyingSwap
  | balancerSwap
  | uniswapV2Mint
  | uniswapV2Burn
  | uniswapV3Mint
  | uniswapV3Burn
  | tornadoDeposit
  | tornadoWithdrawal
  | opErc20BridgeInitiated
  | opErc20BridgeFinalized
  | opEthBridgeInitiated
  | opEthBridgeFinalized
  | opErc20DepositInitiated
  | opEthDepositInitiated
  | opErc20WithdrawalFinalized
  | opEthWithdrawalFinalized
  deriving DecidableEq

def EventSignature.text : EventSignature → String
  | .swapV2 => "Swap(address,uint256,uint256,uint256,uint256,address)"
  | .swapV3 => "Swap(address,address,int256,int256,uint160,uint128,int24)"
  | .curveSwap => "TokenExchange(address,int128,uint256,int128,uint256)"
  | .curveUnderlyingSwap => "TokenExchangeUnderlying(address,int128,uint256,int128,uint256)"
  | .balancerSwap => "Swap(bytes32,address,address,uint256,uint256)"
  | .uniswapV2Mint => "Mint(address,uint256,uint256)"
  | .uniswapV2Burn => "Burn(address,uint256,uint256,address)"
  | .uniswapV3Mint => "Mint(address,address,int24,int24,uint128,uint256,uint256)"
  | .uniswapV3Burn => "Burn(address,int24,int24,uint128,uint256,uint256)"
  | .tornadoDeposit => "Deposit(bytes32,uint32,uint256)"
  | .tornadoWithdrawal => "Withdrawal(address,bytes32,address,uint256)"
  | .opErc20BridgeInitiated =>
    "ERC20BridgeInitiated(address,address,address,address,uint256,bytes)"
  | .opErc20BridgeFinalized =>
    "ERC20BridgeFinalized(address,address,address,address,uint256,bytes)"
  | .opEthBridgeInitiated => "ETHBridgeInitiated(address,address,uint256,bytes)"
  | .opEthBridgeFinalized => "ETHBridgeFinalized(address,address,uint256,bytes)"
  | .opErc20DepositInitiated =>
    "ERC20DepositInitiated(address,address,address,address,uint256,bytes)"
  | .opEthDepositInitiated => "ETHDepositInitiated(address,address,uint256,bytes)"
  | .opErc20WithdrawalFinalized =>
    "ERC20WithdrawalFinalized(address,address,address,address,uint256,bytes)"
  | .opEthWithdrawalFinalized => "ETHWithdrawalFinalized(address,address,uint256,bytes)"

/-- The two hash functions; no two of the event signatures share a digest, and
a digest is not empty. -/
structure Digests where
  keccak256 : String → B256
  stableHash : String → String
  distinct : ∀ e f : EventSignature, keccak256 e.text = keccak256 f.text → e = f
  nonempty : ∀ text, stableHash text ≠ ""

def Digests.signature (d : Digests) (e : EventSignature) : B256 := d.keccak256 e.text

@[simp] theorem Digests.signature_inj (d : Digests) {e f : EventSignature} :
    d.signature e = d.signature f ↔ e = f :=
  ⟨d.distinct e f, fun h => by rw [h]⟩

/-! ## Rows -/

structure ProtocolContractRow where
  contractAddress : String
  protocol : String
  protocolType : String
  contractRole : String
  remoteNetworkId : String
  remoteContractAddress : String
  decoder : String
  source : String
  confidence : ℚ
  enabled : Nat
  deriving DecidableEq

inductive EventType where
  | swap
  | bridgeTransfer
  | liquidityAdd
  | liquidityRemove
  | mixerDeposit
  | mixerWithdrawal
  deriving DecidableEq

def EventType.text : EventType → String
  | .swap => "swap"
  | .bridgeTransfer => "bridge_transfer"
  | .liquidityAdd => "liquidity_add"
  | .liquidityRemove => "liquidity_remove"
  | .mixerDeposit => "mixer_deposit"
  | .mixerWithdrawal => "mixer_withdrawal"

inductive Family where
  | uniswapV2Compatible
  | uniswapV3Compatible
  | curveTokenExchange
  | curveUnderlyingExchange
  | balancerVault
  deriving DecidableEq

def Family.text : Family → String
  | .uniswapV2Compatible => "uniswap_v2_compatible"
  | .uniswapV3Compatible => "uniswap_v3_compatible"
  | .curveTokenExchange => "curve_token_exchange"
  | .curveUnderlyingExchange => "curve_underlying_exchange"
  | .balancerVault => "balancer_vault"

structure MovementEvidence where
  logIndex : Nat
  assetId : String
  fromAddress : String
  toAddress : String
  amount : String
  tokenContract : String
  deriving DecidableEq

inductive Evidence where
  | swap (eventSignature : String) (eventFamily : Family) (emitter : String) (logIndex : Nat)
    (flowCorrelation : List MovementEvidence) (registeredProtocol : Bool)
  | bridge (eventSignature emitter : String) (logIndex : Nat) (fromAddress toAddress : String)
    (amount registrySource contractRole remoteContract : String)
    (correlationKeyIsProbabilistic : Bool)
  | liquidity (eventSignature : String) (eventFamily : Family) (emitter : String)
    (logIndex : Nat) (flowDirection : String) (flowCount : Nat) (registeredProtocol : Bool)
  | mixer (eventSignature emitter : String) (logIndex : Nat) (topics : List String)
    (flowDirection : String) (flowCount : Nat) (registrySource contractRole : String)
  deriving DecidableEq

structure SemanticAmlEventRow where
  eventId : String
  networkId : String
  txHash : String
  blockNumber : Nat
  blockTimestampUnixMs : Nat
  eventIndex : Nat
  eventType : EventType
  subjectAddress : String
  protocol : String
  protocolContract : String
  counterpartyAddress : String
  assetIn : String
  assetOut : String
  remoteNetworkId : String
  remoteAsset : String
  bridgeDirection : String
  correlationKey : String
  amountIn : String
  amountOut : String
  detector : String
  detectorVersion : String
  confidence : ℚ
  evidence : Evidence
  deriving DecidableEq

structure TransactionFeatureRow where
  featureId : String
  networkId : String
  txHash : String
  blockNumber : Nat
  blockTimestampUnixMs : Nat
  transactionType : String
  transactionSubtype : String
  protocol : String
  methodId : String
  isSwap : Bool
  isBridge : Bool
  isMixer : Bool
  isMint : Bool
  isBurn : Bool
  isLiquidityAdd : Bool
  isLiquidityRemove : Bool
  isContractCall : Bool
  uniqueAssets : Nat
  participants : Nat
  classificationConfidence : ℚ
  detector : String
  detectorVersion : String
  evidenceRefs : List String
  deriving DecidableEq

structure SemanticTransaction where
  networkId : String
  blockNumber : Nat
  blockTimestampUnixMs : Nat
  txHash : B256
  sender : Address
  destination : Option Address
  inputSelector : String
  logs : List Log
  movements : List ObservedMovement
  relationships : List AddressRelationshipRow

structure SemanticDecodeResult where
  transactionFeatures : List TransactionFeatureRow
  events : List SemanticAmlEventRow

/-! ## The registry -/

structure SemanticDecoderRegistry where
  contracts : List (Address × ProtocolContractRow)

/-- The enabled rows by address, the last one of an address; `fromStr` parses
an address. -/
def SemanticDecoderRegistry.fromContracts (fromStr : String → Option Address)
    (rows : List ProtocolContractRow) : SemanticDecoderRegistry :=
  ⟨((rows.filter fun row => row.enabled = 1).filterMap fun row =>
      (fromStr row.contractAddress).map fun address => (address, row)).foldl
    (fun contracts entry => put contracts entry.1 entry.2) []⟩

def SemanticDecoderRegistry.contract (registry : SemanticDecoderRegistry) (address : Address) :
    Option ProtocolContractRow := get registry.contracts address

/-! ## Identifiers -/

def evmAsset (networkId standard : String) (address : Address) : String :=
  networkId ++ "/" ++ (standard ++ ":" ++ addressText address)

section
variable (d : Digests)

def semanticEventId (networkId : String) (txHash : B256) (logIndex : Nat) (eventType : EventType)
    (emitter : Address) : String :=
  d.stableHash ("|".intercalate [networkId, hashText txHash, logIndex.repr, eventType.text,
    addressText emitter, DETECTOR_VERSION])

/-- The two ends of a transfer in the order of their texts. -/
def sortedEndpoints (left right : String) : List String :=
  if left ≤ right then [left, right] else [right, left]

def bridgeCorrelationKey (protocol localNetwork remoteNetwork localAsset remoteAsset : String)
    (fromAddress toAddress : Address) (amount : U256) : String :=
  d.stableHash ("|".intercalate ([protocol] ++
    sortedEndpoints (localNetwork ++ "|" ++ localAsset) (remoteNetwork ++ "|" ++ remoteAsset) ++
    [addressText fromAddress, addressText toAddress, amount.toNat.repr]))

/-! ## Families of events -/

def isAny (topic : B256) (candidates : List EventSignature) : Bool :=
  candidates.any fun candidate => topic = d.signature candidate

def liquidityFamily (topic0 : B256) : Option (EventType × Family) :=
  if topic0 = d.signature .uniswapV2Mint then some (.liquidityAdd, .uniswapV2Compatible)
  else if topic0 = d.signature .uniswapV2Burn then some (.liquidityRemove, .uniswapV2Compatible)
  else if topic0 = d.signature .uniswapV3Mint then some (.liquidityAdd, .uniswapV3Compatible)
  else if topic0 = d.signature .uniswapV3Burn then some (.liquidityRemove, .uniswapV3Compatible)
  else none

def swapFamily (topic0 : B256) : Option Family :=
  if topic0 = d.signature .swapV2 then some .uniswapV2Compatible
  else if topic0 = d.signature .swapV3 then some .uniswapV3Compatible
  else if topic0 = d.signature .curveSwap then some .curveTokenExchange
  else if topic0 = d.signature .curveUnderlyingSwap then some .curveUnderlyingExchange
  else if topic0 = d.signature .balancerSwap then some .balancerVault
  else none

end

/-! ## Flows -/

/-- Totals are kept in a `U512`. -/
def flowWidth : Nat := 2 ^ 512

/-- The asset and the amount that go in, and those that come out. -/
abbrev PoolFlows := (String × String) × (String × String)

def decodeBalancerAssets (networkId : String) (log : Log) : Option PoolFlows := do
  let tokenIn ← topicAddress (← log.topics[2]?)
  let tokenOut ← topicAddress (← log.topics[3]?)
  let amountIn ← word log.data 0
  let amountOut ← word log.data 1
  some ((evmAsset networkId "erc20" tokenIn, (wordValue amountIn).toNat.repr),
    (evmAsset networkId "erc20" tokenOut, (wordValue amountOut).toNat.repr))

def movementAmount (movement : ObservedMovement) : String × Nat :=
  (movement.assetId, movement.amount.toNat)

/-- The movements into the pool, or out of it. -/
def poolMovements (movements : List ObservedMovement) (pool : Address) (inbound : Bool) :
    List ObservedMovement :=
  movements.filter fun m =>
    if inbound then m.toAddress = pool ∧ m.fromAddress ≠ pool
    else m.fromAddress = pool ∧ m.toAddress ≠ pool

def poolTotals (movements : List ObservedMovement) (pool : Address) (inbound : Bool) :
    List (String × Nat) :=
  totals flowWidth ((poolMovements movements pool inbound).map movementAmount)

def inferPoolFlows (movements : List ObservedMovement) (pool : Address) : Option PoolFlows :=
  match poolTotals movements pool true, poolTotals movements pool false with
  | [(assetIn, amountIn)], [(assetOut, amountOut)] =>
    some ((assetIn, amountIn.repr), (assetOut, amountOut.repr))
  | _, _ => none

def relationshipAmount (relationship : AddressRelationshipRow) : String × Nat :=
  (relationship.assetId, relationship.amount)

/-- The fungible transfers into the pool, or out of it. -/
def directionalRelationships (relationships : List AddressRelationshipRow) (pool : Address)
    (inbound : Bool) : List AddressRelationshipRow :=
  relationships.filter fun r =>
    (if inbound then r.toAddress = addressText pool ∧ r.fromAddress ≠ addressText pool
      else r.fromAddress = addressText pool ∧ r.toAddress ≠ addressText pool) ∧ r.tokenId = ""

def directionalTotals (relationships : List AddressRelationshipRow) (pool : Address)
    (inbound : Bool) : List (String × Nat) :=
  (totals flowWidth
    ((directionalRelationships relationships pool inbound).map relationshipAmount)).insertionSort
      fun left right => left.1 ≤ right.1

/-- The assets, their amounts and how many there are. -/
def directionalRelationshipFlows (relationships : List AddressRelationshipRow) (pool : Address)
    (inbound : Bool) : String × String × Nat :=
  let totals := directionalTotals relationships pool inbound
  (",".intercalate (totals.map Prod.fst), ",".intercalate (totals.map fun e => e.2.repr),
    totals.length)

/-! ## Decoders -/

section
variable (d : Digests) (registry : SemanticDecoderRegistry) (t : SemanticTransaction)

/-- The registered row of a contract that trades. -/
def registeredDex (pool : Address) : Option ProtocolContractRow :=
  (registry.contract pool).filter fun contract => contract.protocolType = "dex"

def dexConfidence (registered : Option ProtocolContractRow) (flowConfidence : ℚ) : ℚ :=
  registered.elim flowConfidence fun contract => max contract.confidence flowConfidence

def topicText (log : Log) : String := hashText (log.topic0.getD 0)

def movementEvidence (movement : ObservedMovement) : MovementEvidence where
  logIndex := movement.logIndex
  assetId := movement.assetId
  fromAddress := addressText movement.fromAddress
  toAddress := addressText movement.toAddress
  amount := movement.amount.toNat.repr
  tokenContract := addressText movement.contract

/-- The flows a swap reports, and how sure they are. -/
def swapFlows (log : Log) (family : Family) : PoolFlows × ℚ :=
  match (if family = .balancerVault then decodeBalancerAssets t.networkId log else none) with
  | some flows => (flows, 0.95)
  | none =>
    match inferPoolFlows t.movements log.address with
    | some flows => (flows, 0.86)
    | none => ((("", ""), ("", "")), 0.72)

def decodeSwap (log : Log) (logIndex : Nat) (family : Family) : SemanticAmlEventRow :=
  let pool := log.address
  let registered := registeredDex registry pool
  let flows := (swapFlows t log family).1
  { eventId := semanticEventId d t.networkId t.txHash logIndex .swap pool
    networkId := t.networkId
    txHash := hashText t.txHash
    blockNumber := t.blockNumber
    blockTimestampUnixMs := t.blockTimestampUnixMs
    eventIndex := logIndex
    eventType := .swap
    subjectAddress := addressText t.sender
    protocol := registered.elim family.text ProtocolContractRow.protocol
    protocolContract := addressText pool
    counterpartyAddress := addressText pool
    assetIn := flows.1.1
    assetOut := flows.2.1
    remoteNetworkId := ""
    remoteAsset := ""
    bridgeDirection := ""
    correlationKey := ""
    amountIn := flows.1.2
    amountOut := flows.2.2
    detector := DETECTOR
    detectorVersion := DETECTOR_VERSION
    confidence := dexConfidence registered (swapFlows t log family).2
    evidence := .swap (topicText log) family (addressText pool) logIndex
      ((t.movements.filter fun m => m.fromAddress = pool ∨ m.toAddress = pool).map
        movementEvidence) registered.isSome }

/-- The columns of one side, empty where the event is of the other. -/
def onSide (side : Bool) (text : String) : String := if side then text else ""

def decodeLiquidity (log : Log) (logIndex : Nat) (eventType : EventType) (family : Family) :
    SemanticAmlEventRow :=
  let pool := log.address
  let registered := registeredDex registry pool
  let inbound := eventType = .liquidityAdd
  let (assets, amounts, flowCount) := directionalRelationshipFlows t.relationships pool inbound
  { eventId := semanticEventId d t.networkId t.txHash logIndex eventType pool
    networkId := t.networkId
    txHash := hashText t.txHash
    blockNumber := t.blockNumber
    blockTimestampUnixMs := t.blockTimestampUnixMs
    eventIndex := logIndex
    eventType := eventType
    subjectAddress := addressText t.sender
    protocol := registered.elim family.text ProtocolContractRow.protocol
    protocolContract := addressText pool
    counterpartyAddress := addressText pool
    assetIn := onSide inbound assets
    assetOut := onSide (!inbound) assets
    remoteNetworkId := ""
    remoteAsset := ""
    bridgeDirection := ""
    correlationKey := ""
    amountIn := onSide inbound amounts
    amountOut := onSide (!inbound) amounts
    detector := DETECTOR
    detectorVersion := DETECTOR_VERSION
    confidence := dexConfidence registered (if flowCount > 0 then 0.88 else 0.72)
    evidence := .liquidity (topicText log) family (addressText pool) logIndex
      (if inbound then "into_pool" else "out_of_pool") flowCount registered.isSome }

/-- What kind of call a mixer log is of, and whose. -/
def mixerCall (log : Log) (topic0 : B256) : Option (EventType × Address) :=
  if topic0 = d.signature .tornadoDeposit then some (.mixerDeposit, t.sender)
  else if topic0 = d.signature .tornadoWithdrawal then
    some (.mixerWithdrawal, (log.topics[1]?.bind topicAddress).getD t.sender)
  else none

def mixerCorrelationKey (log : Log) (contract : ProtocolContractRow) (eventType : EventType) :
    String :=
  d.stableHash (contract.protocol ++ "|" ++ eventType.text ++ "|" ++
    log.topics[1]?.elim (hashText t.txHash) hashText)

def mixerEvent (log : Log) (logIndex : Nat) (topic0 : B256) (contract : ProtocolContractRow)
    (eventType : EventType) (subject : Address) : SemanticAmlEventRow :=
  let inbound := eventType = .mixerDeposit
  let pool := log.address
  let (assets, amounts, flowCount) := directionalRelationshipFlows t.relationships pool inbound
  { eventId := semanticEventId d t.networkId t.txHash logIndex eventType pool
    networkId := t.networkId
    txHash := hashText t.txHash
    blockNumber := t.blockNumber
    blockTimestampUnixMs := t.blockTimestampUnixMs
    eventIndex := logIndex
    eventType := eventType
    subjectAddress := addressText subject
    protocol := contract.protocol
    protocolContract := addressText pool
    counterpartyAddress := addressText pool
    assetIn := onSide inbound assets
    assetOut := onSide (!inbound) assets
    remoteNetworkId := ""
    remoteAsset := ""
    bridgeDirection := ""
    correlationKey := mixerCorrelationKey d t log contract eventType
    amountIn := onSide inbound amounts
    amountOut := onSide (!inbound) amounts
    detector := DETECTOR
    detectorVersion := DETECTOR_VERSION
    confidence := if flowCount > 0 then contract.confidence else min contract.confidence 0.82
    evidence := .mixer (hashText topic0) (addressText pool) logIndex (log.topics.map hashText)
      (if inbound then "into_mixer" else "out_of_mixer") flowCount contract.source
      contract.contractRole }

def decodeTornadoMixer (log : Log) (logIndex : Nat) (contract : ProtocolContractRow) :
    Option SemanticAmlEventRow := do
  let topic0 ← log.topic0
  let (eventType, subject) ← mixerCall d t log topic0
  some (mixerEvent d t log logIndex topic0 contract eventType subject)

inductive Direction where
  | outbound
  | inbound
  deriving DecidableEq

def Direction.text : Direction → String
  | .outbound => "outbound"
  | .inbound => "inbound"

def bridgeDirection (topic0 : B256) : Option Direction :=
  if isAny d topic0 [.opErc20BridgeInitiated, .opEthBridgeInitiated, .opErc20DepositInitiated,
      .opEthDepositInitiated] then some .outbound
  else if isAny d topic0 [.opErc20BridgeFinalized, .opEthBridgeFinalized,
      .opErc20WithdrawalFinalized, .opEthWithdrawalFinalized] then some .inbound
  else none

/-- What a bridge log says was transferred. -/
structure BridgeFields where
  fromAddress : Address
  toAddress : Address
  localAsset : String
  remoteAsset : String
  amount : U256

def erc20BridgeFields (log : Log) (contract : ProtocolContractRow) : Option BridgeFields := do
  let localToken ← topicAddress (← log.topics[1]?)
  let remoteToken ← topicAddress (← log.topics[2]?)
  let fromAddress ← topicAddress (← log.topics[3]?)
  let toAddress ← wordAddress (← word log.data 0)
  let amount ← word log.data 1
  some ⟨fromAddress, toAddress, evmAsset t.networkId "erc20" localToken,
    evmAsset contract.remoteNetworkId "erc20" remoteToken, wordValue amount⟩

def ethBridgeFields (log : Log) (contract : ProtocolContractRow) : Option BridgeFields := do
  let fromAddress ← topicAddress (← log.topics[1]?)
  let toAddress ← topicAddress (← log.topics[2]?)
  let amount ← word log.data 0
  some ⟨fromAddress, toAddress, t.networkId ++ "/native:eth",
    contract.remoteNetworkId ++ "/native:eth", wordValue amount⟩

def bridgeFields (log : Log) (topic0 : B256) (contract : ProtocolContractRow) :
    Option BridgeFields :=
  if isAny d topic0 [.opErc20BridgeInitiated, .opErc20BridgeFinalized, .opErc20DepositInitiated,
      .opErc20WithdrawalFinalized] then erc20BridgeFields t log contract
  else ethBridgeFields t log contract

def bridgeEvent (log : Log) (logIndex : Nat) (topic0 : B256) (contract : ProtocolContractRow)
    (direction : Direction) (fields : BridgeFields) : SemanticAmlEventRow :=
  let outbound := direction = .outbound
  { eventId := semanticEventId d t.networkId t.txHash logIndex .bridgeTransfer log.address
    networkId := t.networkId
    txHash := hashText t.txHash
    blockNumber := t.blockNumber
    blockTimestampUnixMs := t.blockTimestampUnixMs
    eventIndex := logIndex
    eventType := .bridgeTransfer
    subjectAddress := addressText (if outbound then fields.fromAddress else fields.toAddress)
    protocol := contract.protocol
    protocolContract := addressText log.address
    counterpartyAddress := addressText (if outbound then fields.toAddress else fields.fromAddress)
    assetIn := onSide outbound fields.localAsset
    assetOut := onSide (!outbound) fields.localAsset
    remoteNetworkId := contract.remoteNetworkId
    remoteAsset := fields.remoteAsset
    bridgeDirection := direction.text
    correlationKey := bridgeCorrelationKey d contract.protocol t.networkId
      contract.remoteNetworkId fields.localAsset fields.remoteAsset fields.fromAddress
      fields.toAddress fields.amount
    amountIn := onSide outbound fields.amount.toNat.repr
    amountOut := onSide (!outbound) fields.amount.toNat.repr
    detector := DETECTOR
    detectorVersion := DETECTOR_VERSION
    confidence := contract.confidence
    evidence := .bridge (hashText topic0) (addressText log.address) logIndex
      (addressText fields.fromAddress) (addressText fields.toAddress) fields.amount.toNat.repr
      contract.source contract.contractRole contract.remoteContractAddress true }

def decodeOpBridge (log : Log) (logIndex : Nat) (contract : ProtocolContractRow) :
    Option SemanticAmlEventRow := do
  let topic0 ← log.topic0
  let direction ← bridgeDirection d topic0
  let fields ← bridgeFields d t log topic0 contract
  if fields.amount = 0 then none
  else some (bridgeEvent d t log logIndex topic0 contract direction fields)

/-! ## The transaction -/

def sortedJoin (values : List String) : String :=
  ",".intercalate (values.dedup.insertionSort (· ≤ ·))

def hasEvent (events : List SemanticAmlEventRow) (eventType : EventType) : Bool :=
  events.any fun event => event.eventType = eventType

/-- `u16::try_from(..).unwrap_or(u16::MAX)` -/
def countU16 (values : List String) : Nat := min values.dedup.length 65535

def transactionType (events : List SemanticAmlEventRow) : String :=
  if events.any fun event => event.eventType.text.startsWith "mixer_" then "mixer"
  else if hasEvent events .bridgeTransfer then "bridge"
  else if hasEvent events .liquidityAdd || hasEvent events .liquidityRemove then "liquidity"
  else if hasEvent events .swap then "swap"
  else "contract_call"

def transactionFeature (events : List SemanticAmlEventRow) : TransactionFeatureRow where
  featureId := d.stableHash (t.networkId ++ "|" ++ hashText t.txHash ++ "|" ++ DETECTOR_VERSION)
  networkId := t.networkId
  txHash := hashText t.txHash
  blockNumber := t.blockNumber
  blockTimestampUnixMs := t.blockTimestampUnixMs
  transactionType := transactionType events
  transactionSubtype := sortedJoin (events.map fun event => event.eventType.text)
  protocol := sortedJoin (events.map SemanticAmlEventRow.protocol)
  methodId := t.inputSelector
  isSwap := hasEvent events .swap
  isBridge := hasEvent events .bridgeTransfer
  isMixer := events.any fun event => event.eventType.text.startsWith "mixer_"
  isMint := t.relationships.any fun r => r.transferType.endsWith "_mint"
  isBurn := t.relationships.any fun r => r.transferType.endsWith "_burn"
  isLiquidityAdd := hasEvent events .liquidityAdd
  isLiquidityRemove := hasEvent events .liquidityRemove
  isContractCall := t.destination.isSome && t.inputSelector ≠ ""
  uniqueAssets := countU16 (t.relationships.map AddressRelationshipRow.assetId)
  participants := countU16 (t.relationships.flatMap fun r => [r.fromAddress, r.toAddress])
  classificationConfidence := (events.map SemanticAmlEventRow.confidence).foldl max 0
  detector := DETECTOR
  detectorVersion := DETECTOR_VERSION
  evidenceRefs := events.map SemanticAmlEventRow.eventId

/-- The index of a log, or its position where it does not fit. -/
def logIndexOf (item : Log × Nat) : Nat :=
  match item.1.logIndex with
  | some index => if index < 2 ^ 32 then index else item.2 % 2 ^ 32
  | none => item.2 % 2 ^ 32

/-- What the registered decoder of the emitter makes of the log. -/
def decodeRegistered (log : Log) (logIndex : Nat) : Option SemanticAmlEventRow :=
  match registry.contract log.address with
  | none => none
  | some contract =>
    (if contract.protocolType = "bridge" ∧ contract.decoder = "op_standard_bridge_v1" then
      decodeOpBridge d t log logIndex contract else none).or
    (if contract.protocolType = "mixer" ∧ contract.decoder = "tornado_cash_v1" then
      decodeTornadoMixer d t log logIndex contract else none)

/-- What the first topic says, whoever the emitter is. -/
def decodeTopic (log : Log) (logIndex : Nat) (topic0 : B256) : Option SemanticAmlEventRow :=
  match liquidityFamily d topic0 with
  | some (eventType, family) => some (decodeLiquidity d registry t log logIndex eventType family)
  | none => (swapFamily d topic0).map (decodeSwap d registry t log logIndex)

/-- The body of the loop over the logs. -/
def decodeLog (item : Log × Nat) : Option SemanticAmlEventRow :=
  match item.1.topic0 with
  | none => none
  | some topic0 =>
    (decodeRegistered d registry t item.1 (logIndexOf item)).or
      (decodeTopic d registry t item.1 (logIndexOf item) topic0)

def decodeTransaction : SemanticDecodeResult :=
  let events := t.logs.zipIdx.filterMap (decodeLog d registry t)
  { transactionFeatures := if events = [] then [] else [transactionFeature d t events]
    events := events }

variable {d registry t} {log : Log} {position : Nat}

theorem decodeLog_none (h : log.topic0 = none) : decodeLog d registry t (log, position) = none := by
  simp only [decodeLog, h]

theorem decodeLog_eq {topic0 : B256} (h : log.topic0 = some topic0) :
    decodeLog d registry t (log, position) =
      (decodeRegistered d registry t log (logIndexOf (log, position))).or
        (decodeTopic d registry t log (logIndexOf (log, position)) topic0) := by
  simp only [decodeLog, h]

end

end AmlReal.Ethereum.Semantic
