import Mathlib.Algebra.Group.Nat.Defs
import Mathlib.Data.List.Infix
import AmlReal.Foundations.LatestRows
import AmlReal.Foundations.StoreProgram

/-! # TRON ingestion

`ingestion_state.rs`, the block loop of `fetcher.rs`, and `run_tron_loop` in
auto mode. Every row is of the chain `tron`; the tables are the lists of their
rows in the order of insertion, which is the order of `updated_at`, so that
`FINAL` picks the last row of a key. What the node answers, what becomes of each
transaction and what the batchers flush is data of a command. A query or an
insert that fails is a crash. -/

namespace AmlReal.Tron.Ingestion
open AmlReal.Foundations.LatestRows AmlReal.Foundations.StoreProgram
open AmlReal.Foundations.StoreProgram.Program

structure Config where
  tronStartBlock : Nat
  totalTronTxs : Nat
  /-- The hex digits of SHA-256. -/
  digest : String → String

inductive Error where
  | finalizedHashConflict (blockNumber : Nat) (existingHash observedHash : String)
  | other (message : String)
  deriving DecidableEq

/-- The text of `{error:#}`. -/
def Error.message : Error → String
  | .finalizedHashConflict blockNumber existingHash observedHash =>
    s!"finalized TRON block {blockNumber} changed hash from {existingHash} to {observedHash}; explicit reconciliation is required"
  | .other message => message

def Error.withContext (context : String) : Error → Error
  | .other message => .other s!"{context}: {message}"
  | e => e

structure IngestedBlockRow where
  blockNumber : Nat
  blockHash : String
  parentHash : String
  blockTimestamp : Nat
  transactionCount : Nat
  finalityStatus : String
  ingestionStatus : String
  errorMessage : String
  indexedAtUnixMs : Nat
  deriving DecidableEq

structure IngestionFailureRow where
  failureId : String
  blockNumber : Nat
  blockHash : String
  txHash : String
  stage : String
  errorClass : String
  errorMessage : String
  retryable : Bool
  attemptCount : Nat
  status : String
  firstFailedAtUnixMs : Nat
  lastFailedAtUnixMs : Nat
  resolvedAtUnixMs : Nat
  deriving DecidableEq

/-- The rows of one batcher's insert. -/
structure Batch where
  table : String
  rows : List String
  deriving DecidableEq

structure Database where
  ingestedBlocks : List IngestedBlockRow
  syncState : List Nat
  ingestionFailures : List IngestionFailureRow
  facts : List Batch

def Database.empty : Database := ⟨[], [], [], []⟩

inductive Insert where
  | ingestedBlocks (row : IngestedBlockRow)
  | syncState (lastSyncedBlock : Nat)
  | ingestionFailures (rows : List IngestionFailureRow)
  | facts (batch : Batch)

instance : LogStore Database Insert where
  append db
    | .ingestedBlocks row => { db with ingestedBlocks := db.ingestedBlocks ++ [row] }
    | .syncState lastSyncedBlock => { db with syncState := db.syncState ++ [lastSyncedBlock] }
    | .ingestionFailures rows => { db with ingestionFailures := db.ingestionFailures ++ rows }
    | .facts batch => { db with facts := db.facts ++ [batch] }

abbrev Work := Program Database Insert Error

/-! ## The journal -/

def storedBlockState (db : Database) (blockNumber : Nat) : Option IngestedBlockRow :=
  (db.ingestedBlocks.filter fun row => row.blockNumber = blockNumber).getLast?

def getLastSyncedBlock (db : Database) : Option Nat := db.syncState.getLast?

inductive BlockIngestionDecision where
  | ingest
  | skip
  deriving DecidableEq

def decideBlockIngestion (blockNumber : Nat) (blockHash : String)
    (existing : Option IngestedBlockRow) (forceReplay : Bool) : Except Error BlockIngestionDecision :=
  match existing with
  | none => .ok .ingest
  | some row =>
    if row.blockHash = blockHash ∧ row.ingestionStatus = "COMPLETE" then
      if forceReplay then .ok .ingest else .ok .skip
    else if row.blockHash = blockHash then .ok .ingest
    else .error (.finalizedHashConflict blockNumber row.blockHash blockHash)

def truncateError (error : String) : String := String.ofList (error.toList.take 4096)

def mentions (message : String) (needles : List String) : Bool :=
  needles.any fun needle => decide (needle.toList <:+: message.toLower.toList)

def classifyIngestionError (error : Error) : String × Bool :=
  match error with
  | .finalizedHashConflict .. => ("HASH_CONFLICT", false)
  | .other message =>
    if mentions message ["timeout", "timed out", "http request", "connection", "429", "frequency",
      "receipt is not available"] then ("RPC_TRANSIENT", true)
    else if mentions message ["missing", "no valid", "invalid", "decode", "deserialize", "malformed"]
      then ("DATA_VALIDATION", false)
    else ("PROCESSING", true)

/-- `saturating_add(1)` -/
def saturatingNext (n : Nat) : Nat := min (n + 1) (2 ^ 64 - 1)

/-! ## Failures -/

def failureId (config : Config) (blockNumber : Nat) (txHash stage : String) : String :=
  config.digest s!"tron|{blockNumber}|{txHash}|{stage}"

/-- `ingestion_failures FINAL` -/
def latestFailures (db : Database) : List IngestionFailureRow :=
  latest IngestionFailureRow.failureId (fun _ => 0) db.ingestionFailures

section
variable (config : Config) (now : Nat)

def recordIngestionFailure (blockNumber : Nat) (blockHash txHash stage : String)
    (errorClass : String) (errorMessage : String) (retryable : Bool) : Work Unit := do
  let existing ← read fun db => (latestFailures db).find? fun row =>
    row.failureId = failureId config blockNumber txHash stage
  write (.ingestionFailures [{
    failureId := failureId config blockNumber txHash stage
    blockNumber := blockNumber
    blockHash := blockHash
    txHash := txHash
    stage := stage
    errorClass := errorClass
    errorMessage := truncateError errorMessage
    retryable := retryable
    attemptCount := existing.elim 1 fun row => min (row.attemptCount + 1) (2 ^ 32 - 1)
    status := "OPEN"
    firstFailedAtUnixMs := existing.elim now IngestionFailureRow.firstFailedAtUnixMs
    lastFailedAtUnixMs := now
    resolvedAtUnixMs := 0 }])

def recordError (blockNumber : Nat) (blockHash txHash stage : String) (error : Error) : Work Unit :=
  let (errorClass, retryable) := classifyIngestionError error
  recordIngestionFailure config now blockNumber blockHash txHash stage errorClass error.message retryable

def resolveIngestionFailures (blockNumber : Nat) : Work Unit := do
  let failures ← read fun db => (latestFailures db).filter fun row =>
    row.blockNumber = blockNumber ∧ row.status = "OPEN"
  Program.when (failures ≠ []) do
    write (.ingestionFailures (failures.map fun row =>
      { row with status := "RESOLVED", resolvedAtUnixMs := now }))

end

/-! ## A block -/

/-- What the batchers insert, and how that ends. -/
structure Flush where
  batches : List Batch
  outcome : Except Error Unit

structure Transaction where
  txHash : String
  processed : Flush

/-- A block of the node, its transactions in the order in which they are processed. -/
structure Block where
  blockId : Option String
  parentHash : String
  blockTimestamp : Nat
  transactions : List Transaction

/-- What the node, the batchers and the clock answer during one pass. -/
structure Answers where
  solidBlockNumber : Except Error Nat
  getBlock : Nat → Except Error Block
  refreshIfDue : Nat → Except Error Unit
  flushBatches : Nat → Flush
  finalFlush : Flush
  now : Nat

structure FetchOptions where
  endBlock : Option Nat
  forceReplay : Bool
  advanceCheckpoint : Bool

def blockRow (now blockNumber : Nat) (blockHash : String) (block : Block) (transactionCount : Nat)
    (ingestionStatus errorMessage : String) : IngestedBlockRow where
  blockNumber := blockNumber
  blockHash := blockHash
  parentHash := block.parentHash
  blockTimestamp := block.blockTimestamp
  transactionCount := transactionCount % 2 ^ 32
  finalityStatus := "SOLID"
  ingestionStatus := ingestionStatus
  errorMessage := errorMessage
  indexedAtUnixMs := now

def insertBatches (batches : List Batch) : Work Unit := batches.forM fun batch => write (.facts batch)

def isGenesisBlock (blockNumber : Nat) : Bool := blockNumber == 0

section
variable (config : Config) (options : FetchOptions) (answers : Answers)

def recordProcessingBlock (blockNumber : Nat) (blockHash : String) (block : Block) : Work Unit :=
  write (.ingestedBlocks (blockRow answers.now blockNumber blockHash block
    block.transactions.length "PROCESSING" ""))

def recordFailedBlock (blockNumber : Nat) (blockHash : String) (block : Block) (error : Error) :
    Work Unit :=
  write (.ingestedBlocks (blockRow answers.now blockNumber blockHash block
    block.transactions.length "FAILED" (truncateError error.message)))

def recordIngestedBlock (blockNumber : Nat) (blockHash : String) (block : Block) : Work Unit := do
  write (.ingestedBlocks (blockRow answers.now blockNumber blockHash block
    block.transactions.length "COMPLETE" ""))
  resolveIngestionFailures answers.now blockNumber

def saveSyncState (blockNumber : Nat) : Work Unit :=
  Program.when (options.advanceCheckpoint = true) do write (.syncState blockNumber)

/-- The complete row, and with it the checkpoint. -/
def completeBlock (blockNumber : Nat) (blockHash : String) (block : Block) : Work Unit := do
  recordIngestedBlock answers blockNumber blockHash block
  saveSyncState options blockNumber

def txErrors (block : Block) : List (String × Error) :=
  block.transactions.filterMap fun tx => match tx.processed.outcome with
    | .ok () => none
    | .error e => some (tx.txHash, e)

/-- The transactions that failed are recorded, and what the others left is flushed. -/
def failTransactions (blockNumber : Nat) (blockHash : String) (block : Block) (first : Error) :
    Work Unit := do
  (txErrors block).forM fun entry =>
    recordError config answers.now blockNumber blockHash entry.1 "PROCESS_TX" entry.2
  insertBatches (answers.flushBatches blockNumber).batches
  match (answers.flushBatches blockNumber).outcome with
  | .ok () => recordFailedBlock answers blockNumber blockHash block first
  | .error flushError => do
    recordError config answers.now blockNumber blockHash "" "FLUSH_AFTER_TX_FAILURE" flushError
    recordFailedBlock answers blockNumber blockHash block first

def failFlush (blockNumber : Nat) (blockHash : String) (block : Block) (error : Error) :
    Work Unit := do
  recordError config answers.now blockNumber blockHash "" "FLUSH_BLOCK" error
  recordFailedBlock answers blockNumber blockHash block error

/-- How a block ends whose transactions were processed. -/
def settleBlock (blockNumber : Nat) (blockHash : String) (block : Block) : Work Unit :=
  match txErrors block with
  | (_, first) :: _ => do
    failTransactions config answers blockNumber blockHash block first
    lift (.error (first.withContext s!"failed to process TRON block {blockNumber}"))
  | [] => do
    insertBatches (answers.flushBatches blockNumber).batches
    match (answers.flushBatches blockNumber).outcome with
    | .error error => do
      failFlush config answers blockNumber blockHash block error
      lift (.error (error.withContext s!"failed to flush TRON block {blockNumber}"))
    | .ok () => completeBlock options answers blockNumber blockHash block

/-! ## The block loop -/

/-- A block that is to be ingested: the transactions counted so far, or nothing
where the loop ends before it. -/
def ingestBlock (totalTxs txCount blockNumber : Nat) (blockHash : String) (block : Block) :
    Work (Option Nat) := do
  recordProcessingBlock answers blockNumber blockHash block
  if isGenesisBlock blockNumber ∨ block.transactions = [] then do
    completeBlock options answers blockNumber blockHash block
    pure (some txCount)
  else if 0 < totalTxs ∧ 0 < txCount ∧
      totalTxs < min (txCount + block.transactions.length) (2 ^ 64 - 1) then
    pure none
  else do
    lift (answers.refreshIfDue blockNumber)
    block.transactions.forM fun tx => insertBatches tx.processed.batches
    settleBlock config options answers blockNumber blockHash block
    pure (some (txCount + block.transactions.length))

/-- A block that is stored as complete. -/
def skipBlock (txCount blockNumber : Nat) : Work (Option Nat) := do
  resolveIngestionFailures answers.now blockNumber
  saveSyncState options blockNumber
  pure (some txCount)

def conflictBlock (blockNumber : Nat) (blockHash : String) (error : Error) : Work (Option Nat) := do
  recordError config answers.now blockNumber blockHash "" "CANONICALITY" error
  lift (.error error)

def decideBlock (totalTxs txCount blockNumber : Nat) (blockHash : String) (block : Block) :
    Work (Option Nat) := do
  let existing ← read fun db => storedBlockState db blockNumber
  match decideBlockIngestion blockNumber blockHash existing options.forceReplay with
  | .error error => conflictBlock config answers blockNumber blockHash error
  | .ok .skip => skipBlock options answers txCount blockNumber
  | .ok .ingest => ingestBlock config options answers totalTxs txCount blockNumber blockHash block

def fetchBlock (totalTxs txCount blockNumber : Nat) : Work (Option Nat) :=
  match answers.getBlock blockNumber with
  | .error error => do
    recordError config answers.now blockNumber "" "" "FETCH_BLOCK" error
    lift (.error (error.withContext s!"failed to fetch TRON block {blockNumber}"))
  | .ok block => match block.blockId.filter (· ≠ "") with
    | none => do
      let error := Error.other s!"TRON block {blockNumber} has no blockID"
      recordError config answers.now blockNumber "" "" "VALIDATE_BLOCK" error
      lift (.error error)
    | some blockHash => decideBlock config options answers totalTxs txCount blockNumber blockHash block

/-- A number of blocks from `currentBlock` on. -/
def fetchBlocks (totalTxs : Nat) : Nat → Nat → Nat → Work Unit
  | 0, _, _ => pure ()
  | count + 1, currentBlock, txCount =>
    if 0 < totalTxs ∧ totalTxs ≤ txCount then pure ()
    else do
      let counted ← fetchBlock config options answers totalTxs txCount currentBlock
      match counted with
      | none => pure ()
      | some txCount => fetchBlocks totalTxs count (currentBlock + 1) txCount

def fetchTronWithOptions (startBlock totalTxs : Nat) : Work Unit := do
  let latestBlock ← lift answers.solidBlockNumber
  ensure (options.endBlock.getD latestBlock ≤ latestBlock) (.other
    s!"requested TRON end block {options.endBlock.getD latestBlock} is above latest solid block {latestBlock}")
  fetchBlocks config options answers totalTxs (options.endBlock.getD latestBlock + 1 - startBlock)
    startBlock 0
  insertBatches answers.finalFlush.batches
  lift answers.finalFlush.outcome

end

/-! ## Commands -/

section
variable (config : Config)

def fetchTron (answers : Answers) (startBlock : Nat) : Work Unit :=
  fetchTronWithOptions config ⟨none, false, true⟩ answers startBlock config.totalTronTxs

def validateReplayRange (startBlock endBlock : Nat) : Work Unit := do
  ensure (startBlock ≤ endBlock)
    (.other s!"TRON replay end block {endBlock} is below start block {startBlock}")
  ensure (endBlock - startBlock + 1 < 2 ^ 64) (.other "TRON replay range overflowed")
  ensure (endBlock - startBlock + 1 ≤ 10000)
    (.other s!"TRON replay range contains {endBlock - startBlock + 1} blocks; maximum is 10000")

def replayTronRange (answers : Answers) (startBlock endBlock : Nat) : Work Unit := do
  validateReplayRange startBlock endBlock
  fetchTronWithOptions config ⟨some endBlock, true, false⟩ answers startBlock 0

def ingestTronRange (answers : Answers) (startBlock endBlock : Nat) : Work Unit := do
  validateReplayRange startBlock endBlock
  fetchTronWithOptions config ⟨some endBlock, false, false⟩ answers startBlock 0

/-- `SyncMode::Auto` -/
def resolveStartBlockTron (lastSynced : Option Nat) : Nat :=
  (lastSynced.map saturatingNext).getD config.tronStartBlock

/-- The passes of the loop, for as long as it runs; a pass that failed is made again. -/
def tronLoop : List Answers → Nat → Work Unit
  | [], _ => pure ()
  | answers :: passes, nextBlock => do
    let result ← (fetchTron config answers nextBlock).attempt
    match result with
    | .ok () => do
      let lastSynced ← read getLastSyncedBlock
      tronLoop passes ((lastSynced.map saturatingNext).getD nextBlock)
    | .error (.finalizedHashConflict blockNumber existingHash observedHash) =>
      lift (.error (.finalizedHashConflict blockNumber existingHash observedHash))
    | .error (.other _) => tronLoop passes nextBlock

def runTronLoop (passes : List Answers) : Work Unit := do
  let lastSynced ← read getLastSyncedBlock
  tronLoop config passes (resolveStartBlockTron config lastSynced)

/-- What runs on the store: the loop in auto mode, the two range commands, and
the flush tasks of the batchers. -/
inductive Command where
  | auto (passes : List Answers)
  | ingest (answers : Answers) (startBlock endBlock : Nat)
  | replay (answers : Answers) (startBlock endBlock : Nat)
  | flush (batches : List Batch)

def Command.program : Command → Work Unit
  | .auto passes => runTronLoop config passes
  | .ingest answers startBlock endBlock => ingestTronRange config answers startBlock endBlock
  | .replay answers startBlock endBlock => replayTronRange config answers startBlock endBlock
  | .flush batches => insertBatches batches

end

end AmlReal.Tron.Ingestion
