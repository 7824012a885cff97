import AmlReal.Foundations.JoinedText
import AmlReal.Ethereum.AbiLogs
import AmlReal.Ethereum.ExtractedTransfers

/-! # Flows of semantic events

An event of a pool reports all that the transaction moved into the pool, or out
of it, and not only its own part. So a flow is reported once for every log of
the pool that reads it, and a swap takes the movements of an NFT as an amount. -/

namespace AmlReal.Ethereum.SemanticFlows
open AmlReal.Foundations AmlReal.Foundations.Checks AmlReal.Foundations.EntryList
open AmlReal.Foundations.FixedWidth AmlReal.Foundations.JoinedText AmlReal.Foundations.Totals
open AmlReal.Ethereum.Movements AmlReal.Ethereum.Semantic AmlReal.Ethereum.AbiLogs
open AmlReal.Ethereum.ExtractedTransfers

/-! ## Reading the columns of an event -/

def columns (text : String) : List String := (text.toList.splitOn ',').map String.ofList

def decimal (text : String) : Nat := Nat.ofDigitChars 10 text.toList 0

/-- The assets and amounts that a pair of columns lists. -/
def listed (assets amounts : String) : List (String × Nat) :=
  if assets = "" then [] else (columns assets).zip ((columns amounts).map decimal)

theorem columns_intercalate {xs : List String} (hne : xs ≠ []) (h : ∀ s ∈ xs, ',' ∉ s.toList) :
    columns (",".intercalate xs) = xs := by
  unfold columns
  rw [String.toList_intercalate, show ",".toList = [','] by decide,
    List.splitOn_intercalate ',' (by simpa using h) (by simpa using hne), List.map_map]
  exact (List.map_congr_left fun s _ => String.ofList_toList).trans (List.map_id xs)

theorem decimal_repr (n : Nat) : decimal n.repr = n := by
  rw [decimal, Nat.toList_repr, Nat.ofDigitChars_toDigits (by omega) (by omega)]

theorem intercalate_ne {x : String} {xs : List String} (hx : x ≠ "") :
    ",".intercalate (x :: xs) ≠ "" := by
  cases xs with
  | nil => rwa [String.intercalate_singleton]
  | cons y ys =>
    rw [String.intercalate_cons_cons]
    intro h
    have hlist := congrArg String.toList h
    rw [String.toList_append, String.toList_append] at hlist
    have hnil := (List.append_eq_nil_iff.mp (List.append_eq_nil_iff.mp hlist).1).2
    exact absurd hnil (by decide)

theorem listed_intercalate (flows : List (String × Nat))
    (h : ∀ f ∈ flows, f.1 ≠ "" ∧ ',' ∉ f.1.toList) :
    listed (",".intercalate (flows.map Prod.fst)) (",".intercalate (flows.map fun f => f.2.repr)) =
      flows := by
  unfold listed
  cases flows with
  | nil => rfl
  | cons f rest =>
    have hne : ",".intercalate ((f :: rest).map Prod.fst) ≠ "" :=
      intercalate_ne (h f (List.mem_cons_self ..)).1
    have hassets : ∀ s ∈ (f :: rest).map Prod.fst, ',' ∉ s.toList := by
      intro s hs
      obtain ⟨g, hg, rfl⟩ := List.mem_map.mp hs
      exact (h g hg).2
    have hamounts : ∀ s ∈ (f :: rest).map (fun f => f.2.repr), ',' ∉ s.toList := by
      intro s hs
      obtain ⟨g, _, rfl⟩ := List.mem_map.mp hs
      exact notMem_repr (by decide) g.2
    rw [if_neg hne, columns_intercalate (by simp) hassets, columns_intercalate (by simp) hamounts,
      List.map_map, List.zip_map']
    exact (List.map_congr_left fun g _ => by simp [decimal_repr]).trans (List.map_id _)

theorem listed_single {asset : String} (n : Nat) (h : asset ≠ "" ∧ ',' ∉ asset.toList) :
    listed asset n.repr = [(asset, n)] :=
  listed_intercalate [(asset, n)] fun f hf => List.mem_singleton.mp hf ▸ h

/-! ## What is attributed and what is moved -/

/-- What an event says went into its contract, or out of it. -/
def eventFlows (event : SemanticAmlEventRow) (inbound : Bool) : List (String × Nat) :=
  if inbound then listed event.assetIn event.amountIn else listed event.assetOut event.amountOut

def ofBalancerVault : Evidence → Bool
  | .swap _ family _ _ _ _ => family = .balancerVault
  | _ => false

/-- Swap, liquidity and mixer events, those of the Balancer vault apart. -/
def counted (event : SemanticAmlEventRow) : Bool :=
  event.eventType ≠ .bridgeTransfer && !ofBalancerVault event.evidence

def eventAmount (event : SemanticAmlEventRow) (asset : String) (inbound : Bool) : Nat :=
  if counted event then amountUnder (eventFlows event inbound) asset else 0

/-- What the events of a contract attribute to it. -/
def attributed (events : List SemanticAmlEventRow) (pool : Address) (asset : String)
    (inbound : Bool) : Nat :=
  ((events.filter fun event => event.protocolContract = addressText pool).map
    fun event => eventAmount event asset inbound).sum

/-- The transfer enters the contract from outside, or leaves it. -/
def crosses (r : AddressRelationshipRow) (pool : Address) (inbound : Bool) : Bool :=
  if inbound then r.toAddress = addressText pool ∧ r.fromAddress ≠ addressText pool
  else r.fromAddress = addressText pool ∧ r.toAddress ≠ addressText pool

/-- What the transaction moved of a fungible asset. -/
def moved (relationships : List AddressRelationshipRow) (pool : Address) (asset : String)
    (inbound : Bool) : Nat :=
  (relationships.map fun r =>
    if crosses r pool inbound ∧ r.tokenId = "" ∧ r.assetId = asset then r.amount else 0).sum

section
variable (d : Digests) (registry : SemanticDecoderRegistry) (t : SemanticTransaction)

def Fungible (asset : String) : Prop :=
  ∀ r ∈ t.relationships, r.assetId = asset → r.tokenId = ""

structure Conserved : Prop where
  ids : (t.logs.zipIdx.map logIndexOf).Nodup →
    ((decodeTransaction d registry t).events.map SemanticAmlEventRow.eventId).Nodup
  bounded : ∀ pool asset inbound, Fungible t asset →
    attributed (decodeTransaction d registry t).events pool asset inbound ≤
      moved t.relationships pool asset inbound
  fungible : ∀ event ∈ (decodeTransaction d registry t).events, counted event →
    ∀ inbound, ∀ flow ∈ eventFlows event inbound, Fungible t flow.1
  fits : ∀ pool inbound,
    Fits flowWidth ((poolMovements t.movements pool inbound).map movementAmount) ∧
    Fits flowWidth ((directionalRelationships t.relationships pool inbound).map relationshipAmount)

/-! ## Which logs read a flow -/

inductive Kind where
  | swap (family : Family)
  | liquidity (eventType : EventType) (family : Family)
  | mixer (eventType : EventType)
  | bridge
  deriving DecidableEq

def kindOf : EventSignature → Kind
  | .swapV2 => .swap .uniswapV2Compatible
  | .swapV3 => .swap .uniswapV3Compatible
  | .curveSwap => .swap .curveTokenExchange
  | .curveUnderlyingSwap => .swap .curveUnderlyingExchange
  | .balancerSwap => .swap .balancerVault
  | .uniswapV2Mint => .liquidity .liquidityAdd .uniswapV2Compatible
  | .uniswapV2Burn => .liquidity .liquidityRemove .uniswapV2Compatible
  | .uniswapV3Mint => .liquidity .liquidityAdd .uniswapV3Compatible
  | .uniswapV3Burn => .liquidity .liquidityRemove .uniswapV3Compatible
  | .tornadoDeposit => .mixer .mixerDeposit
  | .tornadoWithdrawal => .mixer .mixerWithdrawal
  | _ => .bridge

/-- What the first topic of a log announces. -/
def logKind (log : Log) : Option Kind :=
  (eventSignatures.find? fun e => log.topic0 = some (d.signature e)).map kindOf

/-- All of the movements are of one asset, and there is one. -/
def OneAsset (movements : List ObservedMovement) : Prop :=
  movements ≠ [] ∧ ∀ m ∈ movements, ∀ m' ∈ movements, m.assetId = m'.assetId

instance (movements : List ObservedMovement) : Decidable (OneAsset movements) :=
  inferInstanceAs (Decidable (_ ∧ _))

/-- One token asset goes into the pool and one comes out. -/
def SwapsWhole (pool : Address) : Prop :=
  OneAsset (poolMovements t.movements pool true) ∧ OneAsset (poolMovements t.movements pool false)

instance (pool : Address) : Decidable (SwapsWhole t pool) := inferInstanceAs (Decidable (_ ∧ _))

def isMixer (pool : Address) : Bool :=
  (registry.contract pool).any fun contract =>
    contract.protocolType = "mixer" && contract.decoder = "tornado_cash_v1"

/-- The event of the log reports what is moved of an asset into its emitter, or
out of it. -/
def reads (log : Log) (asset : String) (inbound : Bool) : Bool :=
  match logKind d log with
  | some (.swap family) => family ≠ .balancerVault ∧ SwapsWhole t log.address ∧
      ∃ m ∈ poolMovements t.movements log.address inbound, m.assetId = asset
  | some (.liquidity eventType _) => (eventType = .liquidityAdd : Bool) = inbound
  | some (.mixer eventType) =>
    isMixer registry log.address ∧ (eventType = .mixerDeposit : Bool) = inbound
  | _ => false

/-- No flow is read twice, and no swap reads the flow of an NFT. -/
structure ReadOnce : Prop where
  single : ∀ pool asset inbound, Fungible t asset → 0 < moved t.relationships pool asset inbound →
    (t.logs.filter fun log => log.address = pool ∧ reads d registry t log asset inbound).length ≤ 1
  fungible : ∀ log ∈ t.logs, ∀ family, logKind d log = some (.swap family) →
    family ≠ .balancerVault → SwapsWhole t log.address →
    ∀ inbound, ∀ m ∈ poolMovements t.movements log.address inbound, Fungible t m.assetId

end

/-! ## Transactions as they are extracted -/

/-- A transaction with what the extraction found in it. -/
structure ExtractedTransaction where
  context : BlockContext
  configured : String
  network : networkFromStr configured = some context.network
  input : TransactionInput
  inputSelector : String
  trace : Option TransactionTrace
  transfers : Transfers
  extracted : extractTransfers context input trace = .ok transfers
  /-- A vector holds fewer rows than the address space has bytes. -/
  relationships_length : transfers.relationships.length < 2 ^ 64

/-- What the extraction hands to the semantic decoder. -/
def ExtractedTransaction.transaction (x : ExtractedTransaction) : SemanticTransaction where
  networkId := x.configured
  blockNumber := x.context.blockNumber
  blockTimestampUnixMs := x.context.blockTimestampUnixMs
  txHash := x.input.txHash
  sender := x.input.sender
  destination := x.input.destination
  inputSelector := x.inputSelector
  logs := x.input.logs
  movements := x.transfers.movements
  relationships := x.transfers.relationships

end AmlReal.Ethereum.SemanticFlows
