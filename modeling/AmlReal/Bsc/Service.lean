import Mathlib.Data.List.Dedup
import AmlReal.Bsc.Store

/-! # The BSC ingestor

`ingestion/service.rs`. What the nodes answer, the decoders make of it and the
clock shows is data of a command: for each block either an error or its prepared
evidence, and the hash a node gives for a height. The semantic classification,
with the registry snapshot it is made with, is a function of a command. A query,
an insert or a task that fails is a crash. -/

namespace AmlReal.Bsc.Service
open AmlReal.Bsc.Model AmlReal.Bsc.Transfers AmlReal.Bsc.Store AmlReal.Foundations.StoreProgram
open AmlReal.Foundations.StoreProgram.Program

/-- What a request to the nodes fails with. -/
structure RpcFetchError where
  text : String
  retryable : Bool
  deriving DecidableEq

inductive IngestionError where
  | invalidRange (startBlock endBlock : Nat)
  | rangeTooLarge (requested maximum : Nat)
  | repairRangeTooLarge (requested maximum : Nat)
  | missingStartBlock
  | beyondFinalized (requestedEnd finalizedHeight : Nat)
  | rpc (error : RpcFetchError)
  | decode (text : String)
  | store (error : StoreError)
  | parentHashMismatch (blockNumber : Nat) (blockHash expectedParent actualParent : String)
  | canonicalHashConflict (blockNumber : Nat) (storedHash remoteHash : String)
  | requestedHashMismatch (blockNumber : Nat) (requestedHash canonicalHash : String)
  | checkpointMarkerMissing (blockNumber : Nat)
  | checkpointHashMismatch (blockNumber : Nat)
  | missingCheckpoint
  | reorgDepthExceeded (suspectTip maximum : Nat)
  deriving DecidableEq

def storeText : StoreError → String
  | .countOverflow field => s!"{field} exceeds its storage type"
  | .stateRevisionOverflow blockNumber => s!"block state revision overflow at block {blockNumber}"
  | .syncStateRevisionOverflow => "sync state revision overflow"
  | .blockNumberOverflow => "block number overflow while advancing the sync cursor"
  | .cursorRegression currentNext attemptedBlock =>
    s!"sync cursor at {currentNext} cannot move backward through block {attemptedBlock}"
  | .cursorGap expectedBlock attemptedBlock =>
    s!"sync cursor expected block {expectedBlock}, but block {attemptedBlock} was committed"

namespace IngestionError

def text : IngestionError → String
  | invalidRange startBlock endBlock => s!"invalid block range {startBlock}..={endBlock}"
  | rangeTooLarge requested maximum =>
    s!"requested {requested} blocks; configured maximum is {maximum}"
  | repairRangeTooLarge requested maximum =>
    s!"repair requested {requested} blocks; configured maximum is {maximum}"
  | missingStartBlock => "auto/follow sync has no checkpoint or configured start block"
  | beyondFinalized requestedEnd finalizedHeight =>
    s!"requested end block {requestedEnd} is newer than finalized block {finalizedHeight}"
  | rpc error => error.text
  | decode text => text
  | store error => storeText error
  | parentHashMismatch blockNumber _ expectedParent actualParent =>
    s!"parent hash mismatch at block {blockNumber}: expected {expectedParent}, received {actualParent}"
  | canonicalHashConflict blockNumber storedHash remoteHash =>
    s!"block {blockNumber} changed from stored hash {storedHash} to remote hash {remoteHash}"
  | requestedHashMismatch blockNumber requestedHash canonicalHash =>
    s!"requested block hash {requestedHash} is not canonical at {blockNumber}; canonical hash is {canonicalHash}"
  | checkpointMarkerMissing blockNumber =>
    s!"sync checkpoint references missing canonical block {blockNumber}"
  | checkpointHashMismatch blockNumber =>
    s!"sync checkpoint hash disagrees with canonical marker at block {blockNumber}"
  | missingCheckpoint => "reorg repair requires an existing sync checkpoint"
  | reorgDepthExceeded suspectTip maximum =>
    s!"no common ancestor found below block {suspectTip} within configured depth {maximum}"

def stage : IngestionError → String
  | rpc _ => "fetch"
  | decode _ => "decode"
  | store _ => "write"
  | parentHashMismatch .. | canonicalHashConflict .. | checkpointMarkerMissing _
  | checkpointHashMismatch _ | missingCheckpoint | reorgDepthExceeded .. => "continuity"
  | requestedHashMismatch .. => "replay_validation"
  | invalidRange .. | rangeTooLarge .. | repairRangeTooLarge .. | missingStartBlock
  | beyondFinalized .. => "range_validation"

def errorClass : IngestionError → String
  | rpc _ => "rpc_failure"
  | decode _ => "invalid_evidence"
  | store _ => "clickhouse_failure"
  | parentHashMismatch .. => "parent_hash_mismatch"
  | canonicalHashConflict .. => "canonical_hash_conflict"
  | requestedHashMismatch .. => "requested_hash_mismatch"
  | checkpointMarkerMissing _ => "checkpoint_marker_missing"
  | checkpointHashMismatch _ => "checkpoint_hash_mismatch"
  | missingCheckpoint => "checkpoint_missing"
  | reorgDepthExceeded .. => "reorg_depth_exceeded"
  | invalidRange .. => "invalid_range"
  | rangeTooLarge .. => "range_limit"
  | repairRangeTooLarge .. => "repair_range_limit"
  | missingStartBlock => "start_block_missing"
  | beyondFinalized .. => "not_finalized"

def retryable : IngestionError → Bool
  | rpc error => error.retryable
  | store _ => true
  | _ => false

def blockHash : IngestionError → Option String
  | parentHashMismatch _ blockHash _ _ => some blockHash
  | canonicalHashConflict _ _ remoteHash => some remoteHash
  | _ => none

def conflictHeight : IngestionError → Option Nat
  | parentHashMismatch blockNumber _ _ _ => some blockNumber
  | canonicalHashConflict blockNumber _ _ => some blockNumber
  | _ => none

end IngestionError

abbrev Ingest := Program Database Insert IngestionError

/-- A store operation of the ingestor. -/
def stored {α : Type} (p : Work α) : Ingest α := p.mapError .store

/-- What the nodes answer to one request. -/
abbrev Answer (α : Type) := Except RpcFetchError α

def asked {α : Type} (answer : Answer α) : Ingest α := (lift answer).mapError .rpc

structure IngestionConfig where
  startBlock : Option Nat
  batchSize : Nat
  maxBlocksPerRun : Nat
  repairMaxBlocks : Nat
  reorgMaxDepth : Nat
  blockFetchConcurrency : Nat
  failureMaxAttempts : Nat
  traceRequired : Bool
  rpcProvider : String
  rpcClientVersion : String

structure PreparedBlock where
  block : CanonicalBlock
  evidence : ExtractedBlockEvidence

/-- Why a block could not be prepared: it could not be fetched, or not be decoded. -/
inductive PrepareError where
  | rpc (error : RpcFetchError)
  | decode (text : String)

def PrepareError.ingestion : PrepareError → IngestionError
  | rpc error => .rpc error
  | decode text => .decode text

/-- What is answered while a range is processed. -/
structure RangeAnswers where
  finalizedHeight : Answer Nat
  prepareBlock : Nat → Except PrepareError PreparedBlock
  classifyBlock : CanonicalBlock → ExtractedBlockEvidence → SemanticBlockEvidence
  nowUnixMs : Nat

/-- The hash that the nodes give for a height. -/
abbrev Identities := Nat → Answer String

structure IngestionReport where
  startBlock : Nat
  endBlock : Nat
  finalizedHeight : Nat
  completedBlocks : Nat
  skippedBlocks : Nat
  transactionCount : Nat
  logCount : Nat
  relationshipCount : Nat
  featureCount : Nat
  semanticEventCount : Nat
  receiptDataComplete : Bool
  traceDataComplete : Bool

def IngestionReport.begin (startBlock endBlock finalizedHeight : Nat) : IngestionReport :=
  ⟨startBlock, endBlock, finalizedHeight, 0, 0, 0, 0, 0, 0, 0, true, true⟩

def IngestionReport.skip (report : IngestionReport) : IngestionReport :=
  { report with skippedBlocks := report.skippedBlocks + 1 }

def IngestionReport.complete (report : IngestionReport) (commit : BlockCommit) : IngestionReport :=
  { report with
    completedBlocks := report.completedBlocks + 1
    transactionCount := report.transactionCount + commit.transactionCount
    logCount := report.logCount + commit.logCount
    relationshipCount := report.relationshipCount + commit.relationshipCount
    featureCount := report.featureCount + commit.featureCount
    semanticEventCount := report.semanticEventCount + commit.semanticEventCount
    traceDataComplete := report.traceDataComplete && commit.traceDataComplete }

/-- The variables of the range loop. -/
structure RangeState where
  previousHash : Option String
  report : IngestionReport

structure RangeOptions where
  force : Bool
  advanceCursor : Bool
  requiredHash : Option String

/-! ## Processing a range -/

def validatedBlockCount (startBlock endBlock : Nat) : Ingest Nat := do
  ensure (startBlock ≤ endBlock ∧ endBlock - startBlock + 1 < 2 ^ 64) (.invalidRange startBlock endBlock)
  pure (endBlock - startBlock + 1)

def checkParent (expectedParent : Option String) (blockNumber : Nat) (blockHash parentHash : String) :
    Ingest Unit :=
  ensure (expectedParent.all fun parent => parent = parentHash)
    (.parentHashMismatch blockNumber blockHash (expectedParent.getD "") parentHash)

def checkRequired (requiredHash : Option String) (blockNumber : Nat) (blockHash : String) :
    Ingest Unit :=
  ensure (requiredHash.all fun required => required = blockHash)
    (.requestedHashMismatch blockNumber (requiredHash.getD "") blockHash)

section
variable (config : IngestionConfig) (answers : RangeAnswers) (options : RangeOptions)

def commitPreparedBlock (prepared : PreparedBlock) (expectedParent existingHash : Option String) :
    Ingest BlockCommit := do
  ensure (existingHash.all fun stored => stored = prepared.block.hash)
    (.canonicalHashConflict prepared.block.number (existingHash.getD "") prepared.block.hash)
  checkRequired options.requiredHash prepared.block.number prepared.block.hash
  checkParent expectedParent prepared.block.number prepared.block.hash prepared.block.parentHash
  stored (commitBlock {
    block := prepared.block
    evidence := prepared.evidence
    semantic := answers.classifyBlock prepared.block prepared.evidence
    rpcProvider := config.rpcProvider
    rpcClientVersion := config.rpcClientVersion
    nowUnixMs := answers.nowUnixMs })

def attemptBlock (blockNumber : Nat) (existing : Option BlockRow) (s : RangeState) :
    Ingest BlockCommit := do
  let prepared ← (lift (answers.prepareBlock blockNumber)).mapError PrepareError.ingestion
  commitPreparedBlock config answers options prepared s.previousHash (existing.map BlockRow.blockHash)

/-- The block is behind the loop, and behind the cursor where it advances. -/
def passBlock (blockNumber : Nat) (blockHash : String) : Ingest Unit := do
  stored (resolveFailure blockNumber answers.nowUnixMs)
  Program.when (options.advanceCursor = true) do
    stored (advanceCheckpoint blockNumber blockHash answers.nowUnixMs)

def failureInput (blockNumber : Nat) (error : IngestionError) : FailureInput where
  blockNumber := blockNumber
  blockHash := error.blockHash
  stage := error.stage
  errorClass := error.errorClass
  errorSummary := error.text
  retryable := error.retryable

def settleBlock (blockNumber : Nat) (s : RangeState) :
    Except IngestionError BlockCommit → Ingest RangeState
  | .ok commit => do
    passBlock answers options blockNumber commit.blockHash
    pure ⟨some commit.blockHash, s.report.complete commit⟩
  | .error error => do
    stored (recordFailure (failureInput blockNumber error) config.failureMaxAttempts answers.nowUnixMs)
    lift (.error error)

/-- Where a stored block is checked: its parent, and the hash that is required. -/
def checkExisting (blockNumber : Nat) (s : RangeState) : Option BlockRow → Ingest Unit
  | none => pure ()
  | some block => do
    checkParent s.previousHash blockNumber block.blockHash block.parentHash
    checkRequired options.requiredHash blockNumber block.blockHash

/-- A stored block that need not be processed again. -/
def skippable (existing : Option BlockRow) : Option BlockRow :=
  existing.filter fun block => !options.force && block.complete config.traceRequired

def processBlock (s : RangeState) (entry : Nat × Option BlockRow) : Ingest RangeState := do
  checkExisting options entry.1 s entry.2
  match skippable config options entry.2 with
  | some block => do
    passBlock answers options entry.1 block.blockHash
    pure ⟨some block.blockHash, s.report.skip⟩
  | none => do
    let result ← (attemptBlock config answers options entry.1 entry.2 s).attempt
    settleBlock config answers options entry.1 s result

/-- What is stored for the blocks of a chunk before any of them is processed. -/
def readExisting : List Nat → Ingest (List (Nat × Option BlockRow))
  | [] => pure []
  | blockNumber :: rest => do
    let existing ← read fun db => canonicalBlock db blockNumber
    let others ← readExisting rest
    pure ((blockNumber, existing) :: others)

def processBlocks : List (Nat × Option BlockRow) → RangeState → Ingest RangeState
  | [], s => pure s
  | entry :: rest, s => do
    let s ← processBlock config answers options s entry
    processBlocks rest s

def processChunks : List (List Nat) → RangeState → Ingest RangeState
  | [], s => pure s
  | chunk :: rest, s => do
    let entries ← readExisting chunk
    let s ← processBlocks config answers options entries s
    processChunks rest s

def previousHash (db : Database) (startBlock : Nat) : Option String :=
  if startBlock = 0 then none else (canonicalBlock db (startBlock - 1)).map BlockRow.blockHash

def processRange (startBlock endBlock : Nat) : Ingest IngestionReport := do
  let blockCount ← validatedBlockCount startBlock endBlock
  ensure (blockCount ≤ config.maxBlocksPerRun) (.rangeTooLarge blockCount config.maxBlocksPerRun)
  let finalizedHeight ← asked answers.finalizedHeight
  ensure (endBlock ≤ finalizedHeight) (.beyondFinalized endBlock finalizedHeight)
  let previous ← read fun db => previousHash db startBlock
  let s ← processChunks config answers options
    (chunks config.blockFetchConcurrency (List.range' startBlock blockCount))
    ⟨previous, .begin startBlock endBlock finalizedHeight⟩
  pure s.report

end

/-! ## Repairing a reorganisation -/

section
variable (config : IngestionConfig)

/-- The stored block of a height, when the nodes give the same hash. -/
def compareBlock (identity : Identities) (candidate : Nat) : Ingest (Option BlockRow) := do
  let existing ← read fun db => canonicalBlock db candidate
  match existing with
  | none => pure none
  | some block => do
    let remote ← asked (identity candidate)
    pure (if block.blockHash = remote then some block else none)

def findAncestor (identity : Identities) (suspectTip : Nat) : Nat → Nat → Ingest (Option BlockRow)
  | 0, _ => compareBlock identity 0
  | candidate + 1, examined => do
    let found ← compareBlock identity (candidate + 1)
    match found with
    | some block => pure (some block)
    | none => do
      ensure (examined + 1 < config.reorgMaxDepth)
        (.reorgDepthExceeded suspectTip config.reorgMaxDepth)
      findAncestor identity suspectTip candidate (examined + 1)

/-- `saturating_add(1)` -/
def saturatingNext (n : Nat) : Nat := min (n + 1) (2 ^ 64 - 1)

/-- The first height above the ancestor. -/
def repairStart (ancestor : Option BlockRow) : Nat :=
  ancestor.elim 0 fun block => saturatingNext block.blockNumber

def rewindTo (nowUnixMs : Nat) (current : SyncStateRow) (ancestor : Option BlockRow) :
    Ingest Nat := do
  let _ ← stored (invalidateRange (repairStart ancestor) current.lastFinalizedBlock config.rpcProvider
    config.rpcClientVersion nowUnixMs)
  stored (rewindCheckpoint (repairStart ancestor) ancestor nowUnixMs)
  pure (repairStart ancestor)

def repairReorg (identity : Identities) (nowUnixMs suspectTip : Nat) : Ingest Nat := do
  let current ← read checkpoint
  match current with
  | none => lift (.error .missingCheckpoint)
  | some current => do
    let ancestor ← findAncestor config identity suspectTip (min current.lastFinalizedBlock suspectTip) 0
    rewindTo config nowUnixMs current ancestor

def verifyStored (identity repairIdentity : Identities) (nowUnixMs : Nat) (current : SyncStateRow)
    (existing : Option BlockRow) : Ingest (Option Nat) :=
  match existing with
  | none => lift (.error (.checkpointMarkerMissing current.lastFinalizedBlock))
  | some block => do
    ensure (block.blockHash = current.lastFinalizedBlockHash)
      (.checkpointHashMismatch current.lastFinalizedBlock)
    let remote ← asked (identity current.lastFinalizedBlock)
    if remote = block.blockHash then pure none
    else do
      let repairedFrom ← repairReorg config repairIdentity nowUnixMs current.lastFinalizedBlock
      pure (some repairedFrom)

def verifyCheckpoint (identity repairIdentity : Identities) (nowUnixMs : Nat) :
    Ingest (Option Nat) := do
  let current ← read checkpoint
  match current with
  | none => pure none
  | some current =>
    if current.lastFinalizedBlockHash = "" then pure none
    else do
      let existing ← read fun db => canonicalBlock db current.lastFinalizedBlock
      verifyStored config identity repairIdentity nowUnixMs current existing

/-! ## Commands -/

def ingestRange (answers : RangeAnswers) (startBlock endBlock : Nat) : Ingest IngestionReport :=
  processRange config answers ⟨false, false, none⟩ startBlock endBlock

def replayRange (answers : RangeAnswers) (startBlock endBlock : Nat) : Ingest IngestionReport :=
  processRange config answers ⟨true, false, none⟩ startBlock endBlock

/-- `identity` is the number and hash the nodes give for the requested hash. -/
def replayHash (answers : RangeAnswers) (identity : Answer (Nat × String)) :
    Ingest IngestionReport := do
  let found ← asked identity
  processRange config answers ⟨true, false, some found.2⟩ found.1 found.1

structure SyncAnswers where
  finalizedHeight : Answer Nat
  checkpointIdentity : Identities
  verifyIdentity : Identities
  range : RangeAnswers
  conflictIdentity : Identities
  retry : RangeAnswers
  nowUnixMs : Nat

structure SyncBatchReport where
  finalizedHeight : Nat
  nextBlock : Nat
  caughtUp : Bool
  reorgRepairedFrom : Option Nat
  batch : Option IngestionReport

def requestedBlocks (maximumBlocks : Option Nat) : Nat :=
  max 1 (min (min (maximumBlocks.getD config.batchSize) config.batchSize) config.maxBlocksPerRun)

/-- The last block of a batch: `start.saturating_add(requested - 1).min(finalized)`. -/
def batchEnd (start requested finalizedHeight : Nat) : Nat :=
  min (min (start + (requested - 1)) (2 ^ 64 - 1)) finalizedHeight

/-- A batch that met a conflict is made again after a repair. -/
def retryBatch (answers : SyncAnswers) (requested finalizedHeight conflictHeight : Nat) :
    Ingest (Option Nat × IngestionReport) := do
  let repairFrom ← repairReorg config answers.conflictIdentity answers.nowUnixMs conflictHeight
  let current ← read checkpoint
  let restart := current.elim repairFrom SyncStateRow.nextBlock
  let report ← processRange config answers.retry ⟨false, true, none⟩ restart
    (batchEnd restart requested finalizedHeight)
  pure (some repairFrom, report)

def settleBatch (answers : SyncAnswers) (requested finalizedHeight : Nat) (repairedFrom : Option Nat) :
    Except IngestionError IngestionReport → Ingest (Option Nat × IngestionReport)
  | .ok report => pure (repairedFrom, report)
  | .error error => match error.conflictHeight with
    | some height => retryBatch config answers requested finalizedHeight height
    | none => lift (.error error)

def syncBatch (answers : SyncAnswers) (startBlock requested finalizedHeight : Nat)
    (repairedFrom : Option Nat) : Ingest SyncBatchReport := do
  let result ← (processRange config answers.range ⟨false, true, none⟩ startBlock
    (batchEnd startBlock requested finalizedHeight)).attempt
  let (repairedFrom, report) ← settleBatch config answers requested finalizedHeight repairedFrom result
  let current ← read checkpoint
  let nextBlock := current.elim startBlock SyncStateRow.nextBlock
  pure ⟨finalizedHeight, nextBlock, decide (finalizedHeight < nextBlock), repairedFrom, some report⟩

def syncOnce (answers : SyncAnswers) (initialStart maximumBlocks : Option Nat) :
    Ingest SyncBatchReport := do
  let finalizedHeight ← asked answers.finalizedHeight
  let repairedFrom ← verifyCheckpoint config answers.checkpointIdentity answers.verifyIdentity
    answers.nowUnixMs
  let current ← read checkpoint
  match ((current.map SyncStateRow.nextBlock).or initialStart).or config.startBlock with
  | none => lift (.error .missingStartBlock)
  | some startBlock =>
    if finalizedHeight < startBlock then
      pure ⟨finalizedHeight, startBlock, true, repairedFrom, none⟩
    else
      syncBatch config answers startBlock (requestedBlocks config maximumBlocks) finalizedHeight
        repairedFrom

structure RepairReport where
  startBlock : Nat
  endBlock : Nat
  repairedBlocks : List Nat
  skippedDeadBlocks : Nat

/-- The blocks without evidence or with a failure, in the order of their heights. -/
def repairCandidates (db : Database) (startBlock endBlock : Nat) (includeDead : Bool) : List Nat :=
  ((findGaps db startBlock endBlock config.traceRequired config.repairMaxBlocks ++
    pendingFailureBlocks db startBlock endBlock includeDead config.repairMaxBlocks).dedup).insertionSort
    (· ≤ ·)

def requeueDead (nowUnixMs : Nat) (dead candidates : List Nat) : Ingest Unit :=
  (candidates.filter (· ∈ dead)).forM fun blockNumber => stored (requeueFailure blockNumber nowUnixMs)

def repairBlocks (answers : Nat → RangeAnswers) : List Nat → Ingest Unit
  | [] => pure ()
  | blockNumber :: rest => do
    let _ ← processRange config (answers blockNumber) ⟨true, false, none⟩ blockNumber blockNumber
    repairBlocks answers rest

def repairRange (finalized : Answer Nat) (answers : Nat → RangeAnswers)
    (nowUnixMs startBlock endBlock : Nat) (includeDead : Bool) : Ingest RepairReport := do
  let blockCount ← validatedBlockCount startBlock endBlock
  ensure (blockCount ≤ config.repairMaxBlocks) (.repairRangeTooLarge blockCount config.repairMaxBlocks)
  let finalizedHeight ← asked finalized
  ensure (endBlock ≤ finalizedHeight) (.beyondFinalized endBlock finalizedHeight)
  let found ← read fun db => repairCandidates config db startBlock endBlock includeDead
  let dead ← read fun db => deadFailureBlocks db startBlock endBlock
  let candidates := if includeDead then found else found.filter (· ∉ dead)
  Program.when (includeDead = true) (requeueDead nowUnixMs dead found)
  repairBlocks config answers candidates
  pure ⟨startBlock, endBlock, candidates, dead.length⟩

/-- A command with what it is answered; `follow` repeats `syncOnce`. -/
inductive Command where
  | syncOnce (answers : SyncAnswers) (initialStart maximumBlocks : Option Nat)
  | ingestRange (answers : RangeAnswers) (startBlock endBlock : Nat)
  | replayRange (answers : RangeAnswers) (startBlock endBlock : Nat)
  | replayHash (answers : RangeAnswers) (identity : Answer (Nat × String))
  | repairRange (finalized : Answer Nat) (answers : Nat → RangeAnswers)
      (nowUnixMs startBlock endBlock : Nat) (includeDead : Bool)

def Command.program : Command → Ingest Unit
  | .syncOnce answers initialStart maximumBlocks => do
    let _ ← Service.syncOnce config answers initialStart maximumBlocks
    pure ()
  | .ingestRange answers startBlock endBlock => do
    let _ ← Service.ingestRange config answers startBlock endBlock
    pure ()
  | .replayRange answers startBlock endBlock => do
    let _ ← Service.replayRange config answers startBlock endBlock
    pure ()
  | .replayHash answers identity => do
    let _ ← Service.replayHash config answers identity
    pure ()
  | .repairRange finalized answers nowUnixMs startBlock endBlock includeDead => do
    let _ ← Service.repairRange config finalized answers nowUnixMs startBlock endBlock includeDead
    pure ()

end

/-! ## Runs -/

/-- A command that is run with a configuration. -/
structure Invocation where
  config : IngestionConfig
  command : Command

/-- The command may have stopped after the inserts, by returning, failing or crashing. -/
def Ran (db : Database) (i : Invocation) (ws : List Insert) : Prop :=
  Writes (i.command.program i.config) db ws

end AmlReal.Bsc.Service
