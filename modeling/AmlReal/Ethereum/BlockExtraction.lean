import AmlReal.Foundations.EntryList
import AmlReal.Ethereum.Semantic

/-! # Extraction of a block

`extract_block` of `ethereum/extractor.rs`: the block, its receipts and its
traces matched by transaction hash, and the rows they are written to. The order
of the discovered tokens is that of their first movement; the source keeps them
in a map without one. -/

namespace AmlReal.Ethereum.BlockExtraction
open AmlReal.Foundations.Checks AmlReal.Foundations.EntryList
open AmlReal.Ethereum.Movements AmlReal.Ethereum.Semantic

/-! ## What the node returns -/

structure AppConfig where
  ethNetworkId : String
  ethRpcProvider : String

structure Transaction where
  txHash : B256
  transactionIndex : Option Nat
  sender : Address
  toAddress : Option Address
  nonce : Nat
  transactionType : Option Nat
  value : U256
  input : List Byte
  gasLimit : Nat
  maxFeePerGas : Nat
  maxPriorityFeePerGas : Option Nat
  deriving DecidableEq

structure TransactionReceipt where
  transactionHash : B256
  blockNumber : Option Nat
  blockHash : Option B256
  transactionIndex : Option Nat
  status : Bool
  contractAddress : Option Address
  gasUsed : Nat
  effectiveGasPrice : Nat
  blobGasUsed : Option Nat
  blobGasPrice : Option Nat
  logs : List Log
  deriving DecidableEq

/-- A withdrawal of a validator, its amount in Gwei. -/
structure Withdrawal where
  index : Nat
  address : Address
  amount : Nat
  deriving DecidableEq

def Withdrawal.amountWei (withdrawal : Withdrawal) : U256 :=
  BitVec.ofNat 256 (withdrawal.amount * 10 ^ 9)

structure Block where
  number : Nat
  hash : B256
  parentHash : B256
  timestamp : Nat
  /-- None where the node lists hashes only. -/
  transactions : Option (List Transaction)
  withdrawals : Option (List Withdrawal)

/-! ## Rows -/

structure IngestedBlockRow where
  networkId : String
  blockNumber : Nat
  blockHash : String
  parentHash : String
  blockTimestampUnixMs : Nat
  transactionCount : Nat
  ingestionStatus : String
  receiptDataComplete : Nat
  traceDataComplete : Nat
  rpcProvider : String
  errorMessage : String
  indexedAtUnixMs : Nat
  deriving DecidableEq

structure TransactionRow where
  networkId : String
  txHash : String
  blockHash : String
  blockNumber : Nat
  blockTimestampUnixMs : Nat
  transactionIndex : Nat
  fromAddress : String
  toAddress : String
  contractAddress : String
  nonce : Nat
  transactionType : Nat
  value : Nat
  inputSelector : String
  inputData : String
  status : Nat
  statusKnown : Nat
  gasLimit : Nat
  gasUsed : Nat
  effectiveGasPrice : Nat
  feePaid : Nat
  maxFeePerGas : Nat
  maxPriorityFeePerGas : Nat
  blobGasUsed : Nat
  blobGasPrice : Nat
  deriving DecidableEq

structure EvmLogRow where
  eventId : String
  networkId : String
  blockHash : String
  blockNumber : Nat
  blockTimestampUnixMs : Nat
  txHash : String
  transactionIndex : Nat
  logIndex : Nat
  contractAddress : String
  topic0 : String
  topics : List String
  data : String
  deriving DecidableEq

structure TokenMetadataDiscoveryRow where
  networkId : String
  tokenAddress : String
  tokenStandard : String
  discoveredBlock : Nat
  discoveredAtUnixMs : Nat
  deriving DecidableEq

structure TokenMetadataJobRow where
  networkId : String
  tokenAddress : String
  tokenStandard : String
  discoveredBlock : Nat
  status : String
  attemptCount : Nat
  lastError : String
  updatedAtUnixMs : Nat
  deriving DecidableEq

structure ExtractedBlock where
  block : IngestedBlockRow
  transactions : List TransactionRow
  logs : List EvmLogRow
  relationships : List AddressRelationshipRow
  transactionFeatures : List TransactionFeatureRow
  semanticEvents : List SemanticAmlEventRow
  tokenDiscoveries : List TokenMetadataDiscoveryRow
  tokenJobs : List TokenMetadataJobRow
  deriving DecidableEq

def hexBytes (bytes : List Byte) : String :=
  "0x" ++ String.ofList (bytes.flatMap fun b =>
    [Nat.digitChar (b.toNat / 16), Nat.digitChar (b.toNat % 16)])

/-- The first four bytes of the input, where there are as many. -/
def inputSelector (input : List Byte) : String :=
  if 4 ≤ input.length then hexBytes (input.take 4) else ""

def addressOrEmpty (address : Option Address) : String := address.elim "" addressText

/-! ## Transactions -/

/-- The digests of the transfer events. -/
def transferTopics (d : Digests) : TransferTopics where
  ERC_TRANSFER_EVENT := d.keccak256 "Transfer(address,address,uint256)"
  ERC1155_TRANSFER_SINGLE_EVENT :=
    d.keccak256 "TransferSingle(address,address,address,uint256,uint256)"
  ERC1155_TRANSFER_BATCH_EVENT :=
    d.keccak256 "TransferBatch(address,address,address,uint256[],uint256[])"

abbrev DiscoveredTokens := List (String × TokenStandard)

/-- A token counts as ERC-1155 as soon as one of its movements is. -/
def discover (tokens : DiscoveredTokens) (movement : TokenMovement) : DiscoveredTokens :=
  let tokenAddress := addressText movement.contract
  match get tokens tokenAddress with
  | some _ => if movement.standard = .erc1155 then put tokens tokenAddress .erc1155 else tokens
  | none => put tokens tokenAddress movement.standard

/-- What the loop over the transactions has filled so far. -/
structure Extraction where
  receiptsByHash : List (B256 × TransactionReceipt)
  transactions : List TransactionRow
  logs : List EvmLogRow
  relationships : List AddressRelationshipRow
  transactionFeatures : List TransactionFeatureRow
  semanticEvents : List SemanticAmlEventRow
  discoveredTokens : DiscoveredTokens

def Extraction.start (receiptsByHash : List (B256 × TransactionReceipt)) : Extraction :=
  ⟨receiptsByHash, [], [], [], [], [], []⟩

section
variable (d : Digests) (config : AppConfig) (c : BlockContext)

def validateReceipt (transactionIndex : Option Nat) (receipt : TransactionReceipt) :
    Except String Unit := do
  ensure (receipt.blockNumber = some c.blockNumber)
    s!"receipt {hashText receipt.transactionHash} belongs to a different block number"
  ensure (receipt.blockHash = some c.blockHash)
    s!"receipt {hashText receipt.transactionHash} belongs to a different block hash"
  ensure (receipt.transactionIndex = transactionIndex)
    s!"receipt {hashText receipt.transactionHash} transaction index mismatch"

def transactionInput (tx : Transaction) (receipt : TransactionReceipt) (transactionIndex : Nat) :
    TransactionInput where
  txHash := tx.txHash
  transactionIndex := transactionIndex
  sender := tx.sender
  destination := tx.toAddress.or receipt.contractAddress
  value := tx.value
  status := receipt.status
  logs := receipt.logs

def transactionRow (tx : Transaction) (receipt : TransactionReceipt) (transactionIndex : Nat) :
    TransactionRow where
  networkId := config.ethNetworkId
  txHash := hashText tx.txHash
  blockHash := hashText c.blockHash
  blockNumber := c.blockNumber
  blockTimestampUnixMs := c.blockTimestampUnixMs
  transactionIndex := transactionIndex
  fromAddress := addressText tx.sender
  toAddress := addressOrEmpty tx.toAddress
  contractAddress := addressOrEmpty receipt.contractAddress
  nonce := tx.nonce
  transactionType := tx.transactionType.getD 0
  value := tx.value.toNat
  inputSelector := inputSelector tx.input
  inputData := hexBytes tx.input
  status := if receipt.status then 1 else 0
  statusKnown := 1
  gasLimit := tx.gasLimit
  gasUsed := receipt.gasUsed
  effectiveGasPrice := receipt.effectiveGasPrice
  feePaid := receipt.gasUsed * receipt.effectiveGasPrice
  maxFeePerGas := tx.maxFeePerGas
  maxPriorityFeePerGas := tx.maxPriorityFeePerGas.getD 0
  blobGasUsed := receipt.blobGasUsed.getD 0
  blobGasPrice := receipt.blobGasPrice.getD 0

/-- The index of a log in the block, or its position in the receipt. -/
def logIndexAt (item : Log × Nat) : Nat := item.1.logIndex.getD item.2

def logRow (tx : Transaction) (transactionIndex : Nat) (item : Log × Nat) : EvmLogRow where
  eventId := d.stableHash (config.ethNetworkId ++ "|" ++ hashText tx.txHash ++ "|" ++
    (logIndexAt item).repr)
  networkId := config.ethNetworkId
  blockHash := hashText c.blockHash
  blockNumber := c.blockNumber
  blockTimestampUnixMs := c.blockTimestampUnixMs
  txHash := hashText tx.txHash
  transactionIndex := transactionIndex
  logIndex := logIndexAt item
  contractAddress := addressText item.1.address
  topic0 := item.1.topic0.elim "" hashText
  topics := item.1.topics.map hashText
  data := hexBytes item.1.data

def semanticTransaction (tx : Transaction) (receipt : TransactionReceipt) (transfers : Transfers) :
    SemanticTransaction where
  networkId := config.ethNetworkId
  blockNumber := c.blockNumber
  blockTimestampUnixMs := c.blockTimestampUnixMs
  txHash := tx.txHash
  sender := tx.sender
  destination := tx.toAddress.or receipt.contractAddress
  inputSelector := inputSelector tx.input
  logs := receipt.logs
  movements := transfers.movements
  relationships := transfers.relationships

variable (registry : SemanticDecoderRegistry)

/-- What a transaction adds to the rows of the block. -/
def Extraction.add (acc : Extraction) (tx : Transaction) (receipt : TransactionReceipt)
    (transactionIndex : Nat) (transfers : Transfers) : Extraction :=
  let decoded := decodeTransaction d registry (semanticTransaction config c tx receipt transfers)
  { receiptsByHash := remove acc.receiptsByHash tx.txHash
    transactions := acc.transactions ++ [transactionRow config c tx receipt transactionIndex]
    logs := acc.logs ++ receipt.logs.zipIdx.map (logRow d config c tx transactionIndex)
    relationships := acc.relationships ++ transfers.relationships
    transactionFeatures := acc.transactionFeatures ++ decoded.transactionFeatures
    semanticEvents := acc.semanticEvents ++ decoded.events
    discoveredTokens :=
      (receipt.logs.flatMap (tokenMovements c.topics)).foldl discover acc.discoveredTokens }

/-- The body of the loop over the transactions. -/
def extractTransaction (tracesByHash : B256 → Option TransactionTrace) (acc : Extraction)
    (tx : Transaction) : Except String Extraction := do
  let receipt ← context (get acc.receiptsByHash tx.txHash)
    s!"receipt missing for transaction {hashText tx.txHash}"
  validateReceipt c tx.transactionIndex receipt
  let transactionIndex ← toU32 (tx.transactionIndex.getD 0) "transaction index"
  let transfers ← extractTransfers c (transactionInput tx receipt transactionIndex)
    (tracesByHash tx.txHash)
  pure (acc.add d config c registry tx receipt transactionIndex transfers)

/-! ## Withdrawals -/

def withdrawalRow (withdrawal : Withdrawal) : AddressRelationshipRow :=
  relationshipRow c ⟨none, 2 ^ 32 - 1, withdrawal.index, 0, []⟩ 0 withdrawal.address
    (nativeEth c.network) none withdrawal.amountWei "validator_withdrawal"

/-- A withdrawal of nothing is no canonical transfer. -/
def withdrawalRelationship (withdrawal : Withdrawal) : Except String AddressRelationshipRow := do
  let _ ← toU32 withdrawal.index "withdrawal index"
  ensure (withdrawal.amountWei ≠ 0) "zero-value movements are not canonical transfer facts"
  pure (withdrawalRow c withdrawal)

/-! ## The block -/

def tokenDiscovery (token : String × TokenStandard) : TokenMetadataDiscoveryRow where
  networkId := config.ethNetworkId
  tokenAddress := token.1
  tokenStandard := token.2.asStr
  discoveredBlock := c.blockNumber
  discoveredAtUnixMs := c.blockTimestampUnixMs

def tokenJob (indexedAtUnixMs : Nat) (token : String × TokenStandard) : TokenMetadataJobRow where
  networkId := config.ethNetworkId
  tokenAddress := token.1
  tokenStandard := token.2.asStr
  discoveredBlock := c.blockNumber
  status := "pending"
  attemptCount := 0
  lastError := ""
  updatedAtUnixMs := indexedAtUnixMs

end

/-- The receipts of the block under the hashes of their transactions. -/
def receiptsByHash (block : Block) (transactions : List Transaction)
    (receipts : List TransactionReceipt) : Except String (List (B256 × TransactionReceipt)) := do
  ensure (transactions.length = receipts.length)
    s!"block {block.number} returned {transactions.length} transactions but {receipts.length} receipts"
  let byHash := collect TransactionReceipt.transactionHash receipts
  ensure (byHash.length = receipts.length)
    s!"block {block.number} returned duplicate transaction receipts"
  pure byHash

def tracesByHash (block : Block) (transactions : List Transaction)
    (traces : Option (List TransactionTrace)) : Except String (List (B256 × TransactionTrace)) :=
  match traces with
  | none => .ok []
  | some traces => do
    let byHash := collect TransactionTrace.txHash traces
    ensure (byHash.length = traces.length)
      s!"block {block.number} returned duplicate transaction traces"
    ensure (traces.length = transactions.length)
      s!"block {block.number} returned {traces.length} traces for {transactions.length} transactions"
    pure byHash

/-- What every row takes from the block. -/
def blockContext (d : Digests) (network : String) (block : Block) : BlockContext where
  network := network
  blockHash := block.hash
  blockNumber := block.number
  blockTimestampUnixMs := block.timestamp * 1000
  sha256 := d.stableHash
  topics := transferTopics d

def extractBlock (d : Digests) (config : AppConfig) (block : Block)
    (receipts : List TransactionReceipt) (traces : Option (List TransactionTrace))
    (semanticRegistry : SemanticDecoderRegistry) (indexedAtUnixMs : Nat) :
    Except String ExtractedBlock := do
  let network ← context (networkFromStr config.ethNetworkId)
    s!"invalid network identifier: {config.ethNetworkId}"
  ensure (block.timestamp * 1000 < 2 ^ 64)
    s!"block {block.number} timestamp overflows milliseconds"
  let transactions ← context block.transactions
    s!"block {block.number} did not contain full transactions"
  let receiptsByHash ← receiptsByHash block transactions receipts
  let tracesByHash ← tracesByHash block transactions traces
  let c := blockContext d network block
  let extraction ← transactions.foldlM
    (extractTransaction d config c semanticRegistry (get tracesByHash))
    (Extraction.start receiptsByHash)
  ensure extraction.receiptsByHash.isEmpty
    s!"block {block.number} returned receipts that do not belong to its transactions"
  let withdrawals ← (block.withdrawals.getD []).mapM (withdrawalRelationship c)
  let transactionCount ← toU32 transactions.length "transaction count"
  pure {
    block := {
      networkId := config.ethNetworkId
      blockNumber := block.number
      blockHash := hashText block.hash
      parentHash := hashText block.parentHash
      blockTimestampUnixMs := c.blockTimestampUnixMs
      transactionCount := transactionCount
      ingestionStatus := "complete"
      receiptDataComplete := 1
      traceDataComplete := if traces.isSome then 1 else 0
      rpcProvider := config.ethRpcProvider
      errorMessage := ""
      indexedAtUnixMs := indexedAtUnixMs }
    transactions := extraction.transactions
    logs := extraction.logs
    relationships := extraction.relationships ++ withdrawals
    transactionFeatures := extraction.transactionFeatures
    semanticEvents := extraction.semanticEvents
    tokenDiscoveries := extraction.discoveredTokens.map (tokenDiscovery config c)
    tokenJobs := extraction.discoveredTokens.map (tokenJob config c indexedAtUnixMs) }

end AmlReal.Ethereum.BlockExtraction
