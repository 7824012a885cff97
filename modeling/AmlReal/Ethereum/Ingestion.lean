import AmlReal.Foundations.Interleaving
import AmlReal.Foundations.Json
import AmlReal.Warehouse.Values

/-! # Ethereum ingestion

`storage/writer.rs` and `ethereum/ingestion.rs`. The tables are the lists of
their rows in the order of insertion, which is the order of `updated_at`. What
the node answers and the extractor makes of it is data of a command: for each
block either an error or what was fetched. The rows of the fact tables are
opaque, and so is SHA-256. -/

namespace AmlReal.Ethereum.Ingestion
open AmlReal.Foundations.Json AmlReal.Foundations.StoreProgram
open AmlReal.Foundations.StoreProgram.Program AmlReal.Warehouse.Values

structure AppConfig where
  ethNetworkId : String
  ethStartBlock : Nat
  /-- `eth_trace_mode.required()` -/
  tracesRequired : Bool
  ethIngestionBatchMaxRows : Nat
  ethRpcMaxRetries : Nat
  sha256 : String → String

structure IngestedBlockRow where
  networkId : String
  blockNumber : Nat
  blockHash : String
  parentHash : String
  ingestionStatus : String
  receiptDataComplete : Nat
  traceDataComplete : Nat
  indexedAtUnixMs : Nat
  deriving DecidableEq

structure SyncStateRow where
  networkId : String
  lastSyncedBlock : Nat
  lastSyncedBlockHash : String
  updatedAtUnixMs : Nat
  deriving DecidableEq

structure IngestionFailureRow where
  failureId : String
  networkId : String
  blockNumber : Nat
  stage : String
  errorClass : String
  errorMessage : String
  retryable : Nat
  attemptCount : Nat
  status : String
  firstFailedAtUnixMs : Nat
  lastFailedAtUnixMs : Nat
  deriving DecidableEq

inductive FactTable where
  | transactions
  | evmLogs
  | addressRelationships
  | transactionFeatures
  | semanticAmlEvents
  | tokenMetadataDiscoveries
  | tokenMetadataJobs
  deriving DecidableEq

structure ExtractedBlock where
  block : IngestedBlockRow
  facts : FactTable → List Value

/-- What a block's extraction takes from the node. -/
structure Fetched where
  blockHash : String
  parentHash : String
  tracesPresent : Bool
  indexedAtUnixMs : Nat
  facts : FactTable → List Value

/-! ## The store -/

structure Database where
  facts : List (FactTable × Value)
  ingestedBlocks : List IngestedBlockRow
  syncState : List SyncStateRow
  ingestionFailures : List IngestionFailureRow

def Database.empty : Database := ⟨[], [], [], []⟩

inductive Insert where
  | facts (table : FactTable) (rows : List Value)
  | ingestedBlocks (row : IngestedBlockRow)
  | syncState (row : SyncStateRow)
  | ingestionFailures (row : IngestionFailureRow)

instance : LogStore Database Insert where
  append db
    | .facts table rows => { db with facts := db.facts ++ rows.map (table, ·) }
    | .ingestedBlocks row => { db with ingestedBlocks := db.ingestedBlocks ++ [row] }
    | .syncState row => { db with syncState := db.syncState ++ [row] }
    | .ingestionFailures row => { db with ingestionFailures := db.ingestionFailures ++ [row] }

abbrev Work := Program Database Insert String

section
variable (config : AppConfig)

def checkpoint (db : Database) : Option SyncStateRow :=
  (db.syncState.filter fun row => row.networkId = config.ethNetworkId).getLast?

def storedBlockHash (db : Database) (blockNumber : Nat) : Option IngestedBlockRow :=
  (db.ingestedBlocks.filter fun row => row.networkId = config.ethNetworkId ∧
    row.blockNumber = blockNumber ∧ row.ingestionStatus = "complete").getLast?

def isBlockComplete (db : Database) (blockNumber : Nat) : Bool :=
  (storedBlockHash config db blockNumber).any fun stored =>
    !config.tracesRequired || stored.traceDataComplete == 1

/-! ## Persisting a block -/

/-- The row of a block that was extracted. -/
def extractBlock (blockNumber : Nat) (fetched : Fetched) : ExtractedBlock where
  block := {
    networkId := config.ethNetworkId
    blockNumber := blockNumber
    blockHash := fetched.blockHash
    parentHash := fetched.parentHash
    ingestionStatus := "complete"
    receiptDataComplete := 1
    traceDataComplete := if fetched.tracesPresent then 1 else 0
    indexedAtUnixMs := fetched.indexedAtUnixMs }
  facts := fetched.facts

/-- The parent's hash is the one stored for the height below. -/
def parentMatches (db : Database) (block : IngestedBlockRow) : Prop :=
  0 < block.blockNumber →
    (storedBlockHash config db (block.blockNumber - 1)).all fun parent =>
      parent.blockHash = block.parentHash

instance (db : Database) (block : IngestedBlockRow) : Decidable (parentMatches config db block) :=
  inferInstanceAs (Decidable (_ → _))

def validateChainContinuity (extracted : ExtractedBlock) : Work Unit := do
  let sameHeight ← read fun db => storedBlockHash config db extracted.block.blockNumber
  ensure (sameHeight.all fun stored => stored.blockHash = extracted.block.blockHash)
    "finalized block hash conflict"
  let matching ← read fun db => (decide (parentMatches config db extracted.block) : Bool)
  ensure (matching = true) "parent hash mismatch"

def insertFacts (table : FactTable) (rows : List Value) : Work Unit :=
  (chunks config.ethIngestionBatchMaxRows rows).forM fun chunk => write (.facts table chunk)

def checkpointRow (block : IngestedBlockRow) : SyncStateRow :=
  ⟨block.networkId, block.blockNumber, block.blockHash, block.indexedAtUnixMs⟩

/-- The cursor row, unless the stored checkpoint is above the block. -/
def advanceCheckpoint (block : IngestedBlockRow) : Work Unit := do
  let stored ← read (checkpoint config)
  Program.when (stored.all fun row => row.lastSyncedBlock ≤ block.blockNumber) do
    write (.syncState (checkpointRow block))

def factTables : List FactTable :=
  [.transactions, .evmLogs, .addressRelationships, .transactionFeatures, .semanticAmlEvents,
    .tokenMetadataDiscoveries, .tokenMetadataJobs]

def persistBlock (extracted : ExtractedBlock) : Work Unit := do
  validateChainContinuity config extracted
  factTables.forM fun table => insertFacts config table (extracted.facts table)
  write (.ingestedBlocks extracted.block)
  advanceCheckpoint config extracted.block

/-! ## Commands -/

/-- What the node and the clock answer while a command runs. -/
structure Answers where
  fetch : Nat → Except String Fetched
  now : Nat

def failureRow (blockNumber : Nat) (message : String) (now : Nat) : IngestionFailureRow where
  failureId := config.sha256 s!"{config.ethNetworkId}|{blockNumber}|fetch_extract_persist"
  networkId := config.ethNetworkId
  blockNumber := blockNumber
  stage := "fetch_extract_persist"
  errorClass := "rpc_or_decode"
  errorMessage := message
  retryable := 1
  attemptCount := config.ethRpcMaxRetries
  status := "open"
  firstFailedAtUnixMs := now
  lastFailedAtUnixMs := now

def fetchAndPersist (answers : Answers) (blockNumber : Nat) : Work Unit := do
  let fetched ← lift (answers.fetch blockNumber)
  persistBlock config (extractBlock config blockNumber fetched)

/-- A failure is recorded before it is passed on. -/
def settle (answers : Answers) (blockNumber : Nat) : Except String Unit → Work Nat
  | .ok () => pure 1
  | .error message => do
    write (.ingestionFailures (failureRow config blockNumber message answers.now))
    lift (.error message)

/-- Whether the block was persisted or skipped: the completed blocks of its report. -/
def ingestOne (answers : Answers) (blockNumber : Nat) : Work Nat := do
  let complete ← read fun db => isBlockComplete config db blockNumber
  if complete then pure 0
  else do
    let result ← (fetchAndPersist config answers blockNumber).attempt
    settle config answers blockNumber result

def ingestBoundedRange (answers : Answers) (fromBlock toBlock : Nat) : Work Unit :=
  (List.range' fromBlock (toBlock + 1 - fromBlock)).forM fun blockNumber => do
    let _completed ← ingestOne config answers blockNumber
    pure ()

def ingestRange (answers : Answers) (finalized : Except String Nat) (fromBlock toBlock : Nat) :
    Work Unit := do
  ensure (fromBlock ≤ toBlock) "from-block must not exceed to-block"
  let head ← lift finalized
  ensure (toBlock ≤ head) "requested block is above finalized head"
  ingestBoundedRange config answers fromBlock toBlock

/-- `saturating_add(1)` -/
def saturatingNext (n : Nat) : Nat := if n + 1 < 2 ^ 64 then n + 1 else n

def followStart (requestedStart checkpoint : Option Nat) (configuredStart : Nat) : Nat :=
  requestedStart.getD ((checkpoint.map saturatingNext).getD configuredStart)

/-- The variables of the follower: its next block, and the blocks it completed. -/
structure Following where
  nextBlock : Nat
  completedBlocks : Nat

/-- Up to a number of blocks below one finalized head; the flag says that the limit was reached. -/
def followTo (answers : Answers) (maxBlocks : Option Nat) : Nat → Following → Work (Bool × Following)
  | 0, f => pure (false, f)
  | count + 1, f => do
    let completed ← ingestOne config answers f.nextBlock
    let f : Following := ⟨saturatingNext f.nextBlock, f.completedBlocks + completed⟩
    if maxBlocks.any (· ≤ f.completedBlocks) then pure (true, f)
    else followTo answers maxBlocks count f

/-- The polls of the finalized head, for as long as the follower runs. -/
def followPolls (answers : Answers) (maxBlocks : Option Nat) :
    List (Except String Nat) → Following → Work Unit
  | [], _ => pure ()
  | head :: polls, f => do
    let finalized ← lift head
    let (finished, f) ← followTo config answers maxBlocks (finalized + 1 - f.nextBlock) f
    if finished then pure () else followPolls answers maxBlocks polls f

def followFinalized (answers : Answers) (polls : List (Except String Nat))
    (requestedStart maxBlocks : Option Nat) : Work Unit := do
  ensure (maxBlocks ≠ some 0) "max-blocks must be positive"
  let stored ← read (checkpoint config)
  let start := followStart requestedStart (stored.map SyncStateRow.lastSyncedBlock)
    config.ethStartBlock
  followPolls config answers maxBlocks polls ⟨start, 0⟩

inductive Command where
  | range (answers : Answers) (finalized : Except String Nat) (fromBlock toBlock : Nat)
  | follow (answers : Answers) (polls : List (Except String Nat)) (maxBlocks : Option Nat)

/-- A command as it starts; `follow` is given no explicit start. -/
def Command.program : Command → Work Unit
  | .range answers finalized fromBlock toBlock => ingestRange config answers finalized fromBlock toBlock
  | .follow answers polls maxBlocks => followFinalized config answers polls none maxBlocks

end

end AmlReal.Ethereum.Ingestion
