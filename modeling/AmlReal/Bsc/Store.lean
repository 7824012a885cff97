import Mathlib.Data.List.Sort
import AmlReal.Bsc.Transfers
import AmlReal.Foundations.LatestRows
import AmlReal.Foundations.StoreProgram

/-! # The BSC store

`ingestion/store.rs` and the canonical views of the migrations. Every row is of
the network `BSC_NETWORK_ID`; the tables are the lists of their rows in the order
of insertion, which is the order of `inserted_at`. A row that was inserted stays
stored: what a merge of the table engine may drop is left out. The fact tables
are one list of rows, each of which names its table by its fact. Of a
transaction feature and a semantic event only the identifiers are read; their
other columns are kept as texts. -/

namespace AmlReal.Bsc.Store
open AmlReal.Bsc.Model AmlReal.Bsc.Transfers AmlReal.Foundations.LatestRows
open AmlReal.Foundations.StoreProgram AmlReal.Foundations.StoreProgram.Program

inductive StoreError where
  | countOverflow (field : String)
  | stateRevisionOverflow (blockNumber : Nat)
  | syncStateRevisionOverflow
  | blockNumberOverflow
  | cursorRegression (currentNext attemptedBlock : Nat)
  | cursorGap (expectedBlock attemptedBlock : Nat)
  deriving DecidableEq

structure TransactionFeature where
  featureId : String
  txHash : String
  columns : List String
  deriving DecidableEq

structure SemanticEvent where
  eventId : String
  txHash : String
  columns : List String
  deriving DecidableEq

structure SemanticBlockEvidence where
  transactionFeatures : List TransactionFeature
  events : List SemanticEvent
  deriving DecidableEq

/-! ## Tables -/

inductive FactTable where
  | transactions
  | evmLogs
  | addressRelationships
  | tokenMetadataDiscoveries
  | transactionFeatures
  | semanticAmlEvents
  deriving DecidableEq

inductive Fact where
  | transaction (transaction : CanonicalTransaction)
  | log (log : CanonicalLog)
  | relationship (relationship : CanonicalRelationship)
  | tokenDiscovery (discovery : TokenMetadataDiscovery)
  | transactionFeature (feature : TransactionFeature)
  | semanticEvent (event : SemanticEvent)
  deriving DecidableEq

def Fact.table : Fact → FactTable
  | .transaction _ => .transactions
  | .log _ => .evmLogs
  | .relationship _ => .addressRelationships
  | .tokenDiscovery _ => .tokenMetadataDiscoveries
  | .transactionFeature _ => .transactionFeatures
  | .semanticEvent _ => .semanticAmlEvents

/-- The column that a view keeps one row of: the transaction hash, or the row's id. -/
def Fact.id : Fact → String
  | .transaction t => t.hash
  | .log l => l.eventId
  | .relationship r => r.relationshipId
  | .tokenDiscovery d => d.discoveryId
  | .transactionFeature f => f.featureId
  | .semanticEvent e => e.eventId

structure FactRow where
  blockHash : String
  blockNumber : Nat
  blockTimestampUnixMs : Nat
  blockStateRevision : Nat
  fact : Fact
  deriving DecidableEq

structure BlockRow where
  blockNumber : Nat
  blockHash : String
  parentHash : String
  blockTimestampUnixMs : Nat
  transactionCount : Nat
  logCount : Nat
  receiptDataComplete : Nat
  traceDataComplete : Nat
  canonical : Nat
  ingestionStatus : String
  rpcProvider : String
  rpcClientVersion : String
  stateRevision : Nat
  indexedAtUnixMs : Nat
  deriving DecidableEq

structure SyncStateRow where
  nextBlock : Nat
  lastFinalizedBlock : Nat
  lastFinalizedBlockHash : String
  stateRevision : Nat
  updatedAtUnixMs : Nat
  deriving DecidableEq

structure FailureRow where
  failureId : String
  blockNumber : Nat
  blockHash : String
  stage : String
  errorClass : String
  errorSummary : String
  retryable : Bool
  attemptCount : Nat
  status : String
  createdAtUnixMs : Nat
  updatedAtUnixMs : Nat
  resolvedAtUnixMs : Nat
  deriving DecidableEq

structure Database where
  facts : List FactRow
  ingestedBlocks : List BlockRow
  syncState : List SyncStateRow
  ingestionFailures : List FailureRow

def Database.empty : Database := ⟨[], [], [], []⟩

inductive Insert where
  | facts (rows : List FactRow)
  | ingestedBlocks (row : BlockRow)
  | syncState (row : SyncStateRow)
  | ingestionFailures (row : FailureRow)
  deriving DecidableEq

instance : LogStore Database Insert where
  append db
    | .facts rows => { db with facts := db.facts ++ rows }
    | .ingestedBlocks row => { db with ingestedBlocks := db.ingestedBlocks ++ [row] }
    | .syncState row => { db with syncState := db.syncState ++ [row] }
    | .ingestionFailures row => { db with ingestionFailures := db.ingestionFailures ++ [row] }

abbrev Work := Program Database Insert StoreError

/-! ## Views -/

/-- `ingested_blocks_canonical`: the marker of greatest revision of each height,
where it is canonical and complete. -/
def ingestedBlocksCanonical (db : Database) : List BlockRow :=
  (latest BlockRow.blockNumber BlockRow.stateRevision db.ingestedBlocks).filter fun block =>
    block.canonical = 1 ∧ block.ingestionStatus = "complete"

def canonicalBlock (db : Database) (blockNumber : Nat) : Option BlockRow :=
  (ingestedBlocksCanonical db).find? fun block => block.blockNumber = blockNumber

def canonicalBlocks (db : Database) (startBlock endBlock : Nat) : List BlockRow :=
  ((ingestedBlocksCanonical db).filter fun block =>
    startBlock ≤ block.blockNumber ∧ block.blockNumber ≤ endBlock).insertionSort
    fun a b => a.blockNumber ≤ b.blockNumber

/-- The row is of the block's height and hash, and of the commit of its marker. -/
def BlockRow.Owns (block : BlockRow) (row : FactRow) : Prop :=
  row.blockNumber = block.blockNumber ∧ row.blockHash = block.blockHash ∧
    row.blockStateRevision = block.stateRevision

instance (block : BlockRow) : DecidablePred block.Owns :=
  fun _ => inferInstanceAs (Decidable (_ ∧ _))

def joined (db : Database) (row : FactRow) : Bool :=
  (ingestedBlocksCanonical db).any fun block => decide (block.Owns row)

/-- What the view of relationships asks of a row. -/
def Fact.readable : Fact → Bool
  | .relationship r => decide (0 < r.amount ∧ r.fromAddress ≠ "" ∧ r.toAddress ≠ "")
  | _ => true

def factKey (row : FactRow) : String × String × Nat :=
  (row.fact.id, row.blockHash, row.blockStateRevision)

/-- The rows of a table, latest insert first, one of each id, block hash and revision. -/
def latestFacts (db : Database) (table : FactTable) : List FactRow :=
  limitOneBy factKey (db.facts.filter fun row => row.fact.table = table).reverse

def tokenKey (row : FactRow) : Option (String × String) :=
  match row.fact with
  | .tokenDiscovery d => some (d.tokenAddress, d.standardHint)
  | _ => none

/-- `token_metadata_discoveries_canonical`: the first discovery of each token. -/
def tokenMetadataDiscoveriesCanonical (db : Database) : List FactRow :=
  limitOneBy tokenKey <|
    ((db.facts.filter fun row => row.fact.table = .tokenMetadataDiscoveries).filter
      (joined db)).insertionSort fun a b => a.blockNumber ≤ b.blockNumber

/-- The canonical view of a fact table. -/
def visibleFacts (db : Database) (table : FactTable) : List FactRow :=
  if table = .tokenMetadataDiscoveries then tokenMetadataDiscoveriesCanonical db
  else (latestFacts db table).filter fun row => joined db row ∧ row.fact.readable

/-- `sync_state_current` -/
def checkpoint (db : Database) : Option SyncStateRow :=
  (latest (fun _ => ()) SyncStateRow.stateRevision db.syncState).head?

/-! ## Committing a block -/

def currentRevision (db : Database) (blockNumber : Nat) : Nat :=
  ((db.ingestedBlocks.filter fun row => row.blockNumber = blockNumber).map
    BlockRow.stateRevision).foldr max 0

def nextStateRevision (blockNumber : Nat) : Work Nat := do
  let current ← read fun db => currentRevision db blockNumber
  ensure (current + 1 < 2 ^ 64) (.stateRevisionOverflow blockNumber)
  pure (current + 1)

structure CommitInput where
  block : CanonicalBlock
  evidence : ExtractedBlockEvidence
  semantic : SemanticBlockEvidence
  rpcProvider : String
  rpcClientVersion : String
  nowUnixMs : Nat

structure BlockCommit where
  blockNumber : Nat
  blockHash : String
  stateRevision : Nat
  transactionCount : Nat
  logCount : Nat
  relationshipCount : Nat
  featureCount : Nat
  semanticEventCount : Nat
  traceDataComplete : Bool
  deriving DecidableEq

def countU32 (field : String) (count : Nat) : Work Unit :=
  ensure (count < 2 ^ 32) (.countOverflow field)

section
variable (input : CommitInput) (stateRevision : Nat)

def factRow (fact : Fact) : FactRow where
  blockHash := input.block.hash
  blockNumber := input.block.number
  blockTimestampUnixMs := input.block.timestampUnixMs
  blockStateRevision := stateRevision
  fact := fact

/-- One insert of the rows, when there are any. -/
def insertFacts (facts : List Fact) : Work Unit :=
  Program.when (facts ≠ []) do write (.facts (facts.map (factRow input stateRevision)))

/-- The tokens that a view row of another block names already. -/
def existingTokenDiscoveries (db : Database) : List (Option (String × String)) :=
  ((tokenMetadataDiscoveriesCanonical db).filter fun row =>
    row.blockNumber ≠ input.block.number).map tokenKey

def pendingDiscoveries (db : Database) : List TokenMetadataDiscovery :=
  input.evidence.tokenDiscoveries.filter fun d =>
    some (d.tokenAddress, d.standardHint) ∉ existingTokenDiscoveries input db

def insertTokenDiscoveries : Work Unit := do
  let pending ← read (pendingDiscoveries input)
  insertFacts input stateRevision (pending.map .tokenDiscovery)

def blockMarker : BlockRow where
  blockNumber := input.block.number
  blockHash := input.block.hash
  parentHash := input.block.parentHash
  blockTimestampUnixMs := input.block.timestampUnixMs
  transactionCount := input.block.transactions.length
  logCount := input.block.logs.length
  receiptDataComplete := 1
  traceDataComplete := if input.evidence.traceDataComplete then 1 else 0
  canonical := 1
  ingestionStatus := "complete"
  rpcProvider := input.rpcProvider
  rpcClientVersion := input.rpcClientVersion
  stateRevision := stateRevision
  indexedAtUnixMs := input.nowUnixMs

def blockCommit : BlockCommit where
  blockNumber := input.block.number
  blockHash := input.block.hash
  stateRevision := stateRevision
  transactionCount := input.block.transactions.length
  logCount := input.block.logs.length
  relationshipCount := input.evidence.relationships.length
  featureCount := input.semantic.transactionFeatures.length
  semanticEventCount := input.semantic.events.length
  traceDataComplete := input.evidence.traceDataComplete

def checkCounts : Work Unit := do
  countU32 "transaction_count" input.block.transactions.length
  countU32 "log_count" input.block.logs.length
  countU32 "relationship_count" input.evidence.relationships.length
  countU32 "feature_count" input.semantic.transactionFeatures.length
  countU32 "semantic_event_count" input.semantic.events.length

def insertEvidence : Work Unit := do
  insertFacts input stateRevision (input.block.transactions.map .transaction)
  insertFacts input stateRevision (input.block.logs.map .log)
  insertFacts input stateRevision (input.evidence.relationships.map .relationship)
  insertTokenDiscoveries input stateRevision
  insertFacts input stateRevision (input.semantic.transactionFeatures.map .transactionFeature)
  insertFacts input stateRevision (input.semantic.events.map .semanticEvent)

end

/-- The facts first, the marker last. -/
def commitBlock (input : CommitInput) : Work BlockCommit := do
  let stateRevision ← nextStateRevision input.block.number
  checkCounts input
  insertEvidence input stateRevision
  write (.ingestedBlocks (blockMarker input stateRevision))
  pure (blockCommit input stateRevision)

/-! ## Invalidating blocks -/

def tombstone (rpcProvider rpcClientVersion : String) (nowUnixMs : Nat) (block : BlockRow) :
    BlockRow :=
  { block with
    canonical := 0
    ingestionStatus := "orphaned"
    rpcProvider := rpcProvider
    rpcClientVersion := rpcClientVersion
    stateRevision := block.stateRevision + 1
    indexedAtUnixMs := nowUnixMs }

def invalidateBlock (rpcProvider rpcClientVersion : String) (nowUnixMs : Nat) (block : BlockRow) :
    Work Unit := do
  ensure (block.stateRevision + 1 < 2 ^ 64) (.stateRevisionOverflow block.blockNumber)
  write (.ingestedBlocks (tombstone rpcProvider rpcClientVersion nowUnixMs block))

def invalidateRange (startBlock endBlock : Nat) (rpcProvider rpcClientVersion : String)
    (nowUnixMs : Nat) : Work Nat :=
  if endBlock < startBlock then pure 0
  else do
    let blocks ← read fun db => canonicalBlocks db startBlock endBlock
    blocks.forM (invalidateBlock rpcProvider rpcClientVersion nowUnixMs)
    pure blocks.length

/-! ## The checkpoint -/

def writeCheckpoint (nextBlock lastFinalizedBlock : Nat) (lastFinalizedBlockHash : String)
    (stateRevision nowUnixMs : Nat) : Work Unit :=
  write (.syncState
    ⟨nextBlock, lastFinalizedBlock, lastFinalizedBlockHash, stateRevision, nowUnixMs⟩)

def nextSyncRevision (current : Option SyncStateRow) : Work Nat := do
  ensure (current.all fun row => row.stateRevision + 1 < 2 ^ 64) .syncStateRevisionOverflow
  pure (current.elim 1 fun row => row.stateRevision + 1)

def advanceFrom (current : Option SyncStateRow) (blockNumber : Nat) (blockHash : String)
    (nowUnixMs : Nat) : Work Unit := do
  let stateRevision ← nextSyncRevision current
  ensure (blockNumber + 1 < 2 ^ 64) .blockNumberOverflow
  writeCheckpoint (blockNumber + 1) blockNumber blockHash stateRevision nowUnixMs

def advanceCheckpoint (blockNumber : Nat) (blockHash : String) (nowUnixMs : Nat) : Work Unit := do
  let current ← read checkpoint
  match current with
  | none => advanceFrom none blockNumber blockHash nowUnixMs
  | some row =>
    if blockNumber < row.nextBlock then
      ensure (row.lastFinalizedBlock = blockNumber ∧ row.lastFinalizedBlockHash = blockHash)
        (.cursorRegression row.nextBlock blockNumber)
    else do
      ensure (row.nextBlock = blockNumber) (.cursorGap row.nextBlock blockNumber)
      advanceFrom (some row) blockNumber blockHash nowUnixMs

def rewindCheckpoint (nextBlock : Nat) (ancestor : Option BlockRow) (nowUnixMs : Nat) :
    Work Unit := do
  let current ← read checkpoint
  let stateRevision ← nextSyncRevision current
  writeCheckpoint nextBlock (ancestor.elim 0 BlockRow.blockNumber)
    (ancestor.elim "" BlockRow.blockHash) stateRevision nowUnixMs

/-! ## Failures -/

def failureId (blockNumber : Nat) : String :=
  s!"{BSC_NETWORK_ID}:canonical_ingestion:{blockNumber}"

def isControl (c : Char) : Bool := c.toNat < 32 || (127 ≤ c.toNat && c.toNat < 160)

def sanitizeSummary (value : String) : String :=
  String.ofList ((value.toList.filter fun c => !isControl c).take 320)

/-- `ingestion_failures_current` -/
def ingestionFailuresCurrent (db : Database) : List FailureRow :=
  latest FailureRow.failureId (fun _ => 0) db.ingestionFailures

def failureState (db : Database) (blockNumber : Nat) : Option FailureRow :=
  (ingestionFailuresCurrent db).find? fun row => row.failureId = failureId blockNumber

structure FailureInput where
  blockNumber : Nat
  blockHash : Option String
  stage : String
  errorClass : String
  errorSummary : String
  retryable : Bool

def recordFailure (failure : FailureInput) (maxAttempts nowUnixMs : Nat) : Work Unit := do
  let existing ← read fun db => failureState db failure.blockNumber
  let attemptCount := existing.elim 1 fun row => min (row.attemptCount + 1) (2 ^ 32 - 1)
  let remainsRetryable := failure.retryable && decide (attemptCount < maxAttempts)
  write (.ingestionFailures {
    failureId := failureId failure.blockNumber
    blockNumber := failure.blockNumber
    blockHash := failure.blockHash.getD ""
    stage := failure.stage
    errorClass := failure.errorClass
    errorSummary := sanitizeSummary failure.errorSummary
    retryable := remainsRetryable
    attemptCount := attemptCount
    status := if remainsRetryable then "open" else "dead"
    createdAtUnixMs := existing.elim nowUnixMs FailureRow.createdAtUnixMs
    updatedAtUnixMs := nowUnixMs
    resolvedAtUnixMs := 0 })

def resolveFailure (blockNumber nowUnixMs : Nat) : Work Unit := do
  let existing ← read fun db => failureState db blockNumber
  match existing with
  | none => pure ()
  | some row => Program.when (row.status ≠ "resolved") do
    write (.ingestionFailures { row with
      blockNumber := blockNumber
      status := "resolved"
      updatedAtUnixMs := nowUnixMs
      resolvedAtUnixMs := nowUnixMs })

def requeueFailure (blockNumber nowUnixMs : Nat) : Work Unit := do
  let existing ← read fun db => failureState db blockNumber
  match existing with
  | none => pure ()
  | some row => write (.ingestionFailures { row with
      blockNumber := blockNumber
      retryable := true
      status := "open"
      updatedAtUnixMs := nowUnixMs
      resolvedAtUnixMs := 0 })

/-! ## Gaps -/

/-- Receipts, and traces where they are required. -/
def BlockRow.complete (block : BlockRow) (requireTrace : Bool) : Bool :=
  block.receiptDataComplete == 1 && (!requireTrace || block.traceDataComplete == 1)

def findGaps (db : Database) (startBlock endBlock : Nat) (requireTrace : Bool) (limit : Nat) :
    List Nat :=
  ((List.range' startBlock (endBlock + 1 - startBlock)).filter fun number =>
    ¬((canonicalBlocks db startBlock endBlock).any fun block =>
      block.complete requireTrace && block.blockNumber == number)).take limit

def failureBlocks (db : Database) (startBlock endBlock : Nat) (statuses : List String) : List Nat :=
  ((ingestionFailuresCurrent db).filter fun row =>
    startBlock ≤ row.blockNumber ∧ row.blockNumber ≤ endBlock ∧ row.status ∈ statuses).map
    FailureRow.blockNumber

def pendingFailureBlocks (db : Database) (startBlock endBlock : Nat) (includeDead : Bool)
    (limit : Nat) : List Nat :=
  ((failureBlocks db startBlock endBlock
    (if includeDead then ["open", "dead"] else ["open"])).insertionSort (· ≤ ·)).take limit

def deadFailureBlocks (db : Database) (startBlock endBlock : Nat) : List Nat :=
  failureBlocks db startBlock endBlock ["dead"]

/-! ## Markers -/

section
variable {db : Database} {block : BlockRow} {n : Nat}

theorem mem_ingestedBlocksCanonical : block ∈ ingestedBlocksCanonical db ↔
    block ∈ latest BlockRow.blockNumber BlockRow.stateRevision db.ingestedBlocks ∧
      block.canonical = 1 ∧ block.ingestionStatus = "complete" := by
  simp [ingestedBlocksCanonical]

theorem canonical_unique {other : BlockRow} (h : block ∈ ingestedBlocksCanonical db)
    (h' : other ∈ ingestedBlocksCanonical db) (hn : block.blockNumber = other.blockNumber) :
    block = other :=
  latest_unique (mem_ingestedBlocksCanonical.mp h).1 (mem_ingestedBlocksCanonical.mp h').1 hn

theorem canonicalBlock_eq_some : canonicalBlock db n = some block ↔
    block ∈ ingestedBlocksCanonical db ∧ block.blockNumber = n := by
  constructor
  · intro h
    exact ⟨List.mem_of_find?_eq_some h, by simpa using List.find?_some h⟩
  · rintro ⟨h, rfl⟩
    cases hfind : canonicalBlock db block.blockNumber with
    | none =>
      have hnone := List.find?_eq_none.mp hfind block h
      exact absurd hnone (by simp)
    | some other =>
      have hnumber : other.blockNumber = block.blockNumber := by simpa using List.find?_some hfind
      rw [canonical_unique (List.mem_of_find?_eq_some hfind) h hnumber]

theorem le_foldr_max {values : List Nat} {value : Nat} (h : value ∈ values) :
    value ≤ values.foldr max 0 := by
  induction values with
  | nil => cases h
  | cons v values ih =>
    rcases List.mem_cons.mp h with rfl | h
    · exact Nat.le_max_left _ _
    · exact Nat.le_trans (ih h) (Nat.le_max_right _ _)

theorem foldr_max_le {values : List Nat} {bound : Nat} (h : ∀ v ∈ values, v ≤ bound) :
    values.foldr max 0 ≤ bound := by
  induction values with
  | nil => exact Nat.zero_le _
  | cons v values ih =>
    exact Nat.max_le.mpr ⟨h v (by simp), ih fun u hu => h u (by simp [hu])⟩

theorem revision_le (h : block ∈ db.ingestedBlocks) :
    block.stateRevision ≤ currentRevision db block.blockNumber :=
  le_foldr_max (List.mem_map_of_mem (List.mem_filter.mpr ⟨h, by simp⟩))

theorem mem_ingestedBlocks_of_canonical (h : block ∈ ingestedBlocksCanonical db) :
    block ∈ db.ingestedBlocks := mem_of_mem_latest (mem_ingestedBlocksCanonical.mp h).1

/-- The marker that is read has the height's greatest revision. -/
theorem currentRevision_eq (h : block ∈ ingestedBlocksCanonical db) :
    currentRevision db block.blockNumber = block.stateRevision := by
  refine Nat.le_antisymm (foldr_max_le fun v hv => ?_) (revision_le (mem_ingestedBlocks_of_canonical h))
  obtain ⟨row, hrow, rfl⟩ := List.mem_map.mp hv
  obtain ⟨hmem, hnumber⟩ := List.mem_filter.mp hrow
  exact latest_greatest (mem_ingestedBlocksCanonical.mp h).1 hmem (by simpa using hnumber)

/-- A marker above its height's revisions replaces what was read of the height. -/
theorem mem_canonical_concat {marker : BlockRow}
    (h : currentRevision db marker.blockNumber ≤ marker.stateRevision) :
    block ∈ ingestedBlocksCanonical (LogStore.append db (.ingestedBlocks marker)) ↔
      (block = marker ∧ marker.canonical = 1 ∧ marker.ingestionStatus = "complete") ∨
        (block ∈ ingestedBlocksCanonical db ∧ block.blockNumber ≠ marker.blockNumber) := by
  have hlatest : block ∈ latest BlockRow.blockNumber BlockRow.stateRevision
      (db.ingestedBlocks ++ [marker]) ↔ block = marker ∨
        (block ∈ latest BlockRow.blockNumber BlockRow.stateRevision db.ingestedBlocks ∧
          block.blockNumber ≠ marker.blockNumber) := by
    refine mem_latest_concat fun old hold hn => ?_
    exact Nat.le_trans (hn ▸ revision_le hold) h
  rw [mem_ingestedBlocksCanonical, mem_ingestedBlocksCanonical]
  show block ∈ latest _ _ (db.ingestedBlocks ++ [marker]) ∧ _ ↔ _
  rw [hlatest]
  constructor
  · rintro ⟨rfl | ⟨hmem, hn⟩, hcanonical⟩
    · exact Or.inl ⟨rfl, hcanonical⟩
    · exact Or.inr ⟨⟨hmem, hcanonical⟩, hn⟩
  · rintro (⟨rfl, hcanonical⟩ | ⟨⟨hmem, hcanonical⟩, hn⟩)
    · exact ⟨Or.inl rfl, hcanonical⟩
    · exact ⟨Or.inr ⟨hmem, hn⟩, hcanonical⟩

/-- A canonical block was canonical before an insert, or it is the insert. -/
theorem canonical_append {w : Insert} (h : block ∈ ingestedBlocksCanonical (LogStore.append db w)) :
    block ∈ ingestedBlocksCanonical db ∨ w = .ingestedBlocks block := by
  cases w with
  | ingestedBlocks marker =>
    obtain ⟨hlatest, hcanonical⟩ := mem_ingestedBlocksCanonical.mp h
    have hupsert : block ∈ upsert BlockRow.blockNumber BlockRow.stateRevision
        (latest BlockRow.blockNumber BlockRow.stateRevision db.ingestedBlocks) marker := by
      rw [← latest_concat]; exact hlatest
    rcases mem_upsert hupsert with hmem | rfl
    · exact Or.inl (mem_ingestedBlocksCanonical.mpr ⟨hmem, hcanonical⟩)
    · exact Or.inr rfl
  | _ => exact Or.inl h

theorem canonical_replay {ws : List Insert} (h : block ∈ ingestedBlocksCanonical (replay db ws)) :
    block ∈ ingestedBlocksCanonical db ∨ .ingestedBlocks block ∈ ws := by
  induction ws generalizing db with
  | nil => exact Or.inl h
  | cons w ws ih =>
    rcases ih h with h | hmem
    · rcases canonical_append h with h | rfl
      · exact Or.inl h
      · exact Or.inr List.mem_cons_self
    · exact Or.inr (List.mem_cons_of_mem _ hmem)

/-- A marker that is not canonical makes no block canonical. -/
theorem canonical_of_concat {marker : BlockRow} (hmarker : marker.canonical = 0)
    (h : block ∈ ingestedBlocksCanonical (LogStore.append db (.ingestedBlocks marker))) :
    block ∈ ingestedBlocksCanonical db := by
  rcases canonical_append h with hmem | heq
  · exact hmem
  · obtain rfl := Insert.ingestedBlocks.inj heq
    have hone := (mem_ingestedBlocksCanonical.mp h).2.1
    rw [hmarker] at hone
    cases hone

theorem canonicalBlock_eq_none :
    canonicalBlock db n = none ↔ ∀ block ∈ ingestedBlocksCanonical db, block.blockNumber ≠ n := by
  simp [canonicalBlock, List.find?_eq_none]

/-- Stores with the same canonical blocks of a height read the same block there. -/
theorem canonicalBlock_congr {t : Database}
    (h : ∀ block, block.blockNumber = n →
      (block ∈ ingestedBlocksCanonical t ↔ block ∈ ingestedBlocksCanonical db)) :
    canonicalBlock t n = canonicalBlock db n := by
  refine Option.ext fun block => ?_
  rw [canonicalBlock_eq_some, canonicalBlock_eq_some]
  exact and_congr_left fun hn => h block hn

end

/-! ## The cursor -/

section
variable {db : Database} {row : SyncStateRow}

theorem checkpoint_eq_none (h : checkpoint db = none) : db.syncState = [] := by
  rw [checkpoint, List.head?_eq_none_iff] at h
  by_contra hne
  obtain ⟨row, hrow⟩ := List.exists_mem_of_ne_nil _ hne
  obtain ⟨m, hm, _⟩ : ∃ m ∈ latest (fun _ => ()) SyncStateRow.stateRevision db.syncState,
      () = () ∧ row.stateRevision ≤ m.stateRevision := exists_mem_latest hrow
  rw [h] at hm
  cases hm

theorem checkpoint_eq_some (h : checkpoint db = some row) :
    row ∈ db.syncState ∧ ∀ old ∈ db.syncState, old.stateRevision ≤ row.stateRevision := by
  have hmem := List.mem_of_mem_head? h
  exact ⟨mem_of_mem_latest hmem, fun old hold => latest_greatest hmem hold rfl⟩

theorem checkpoint_concat (h : ∀ old ∈ db.syncState, old.stateRevision ≤ row.stateRevision) :
    checkpoint (LogStore.append db (.syncState row)) = some row := by
  show (latest (fun _ => ()) SyncStateRow.stateRevision (db.syncState ++ [row])).head? = some row
  have hmem : ∀ r, r ∈ latest (fun _ => ()) SyncStateRow.stateRevision (db.syncState ++ [row]) →
      r = row := by
    intro r hr
    rcases (mem_latest_concat fun old hold _ => h old hold).mp hr with rfl | ⟨_, hkey⟩
    · rfl
    · exact absurd rfl hkey
  cases hlatest : latest (fun _ => ()) SyncStateRow.stateRevision (db.syncState ++ [row]) with
  | nil =>
    have hrow : row ∈ latest (fun _ => ()) SyncStateRow.stateRevision (db.syncState ++ [row]) :=
      (mem_latest_concat fun old hold _ => h old hold).mpr (Or.inl rfl)
    rw [hlatest] at hrow
    cases hrow
  | cons first rest =>
    rw [hmem first (by rw [hlatest]; exact List.mem_cons_self)]
    rfl

end

end AmlReal.Bsc.Store
