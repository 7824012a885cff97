import Mathlib.Data.List.Sort
import AmlReal.Foundations.Checks
import AmlReal.Warehouse.Rules

/-! # Block publication

`publication.rs` and the batch writer of `core.rs`, function by function, as
programs over the warehouse. Every `ensure!` and every `?` keeps its place and
its text; SQL is one query of the view it names. -/

namespace AmlReal.Warehouse.Publication
open AmlReal.Foundations.LatestRows AmlReal.Foundations.StoreProgram
open AmlReal.Foundations.StoreProgram.Program
open AmlReal.Foundations.Checks (context)
open AmlReal.Warehouse.Values AmlReal.Warehouse.Tables AmlReal.Warehouse.Rules

abbrev Writer := Program Database Insert String

/-! ## Reads -/

/-- The current row of `aml_sync_state`, or the state of a network that has none. -/
def currentState (network : Network) (db : Database) : State :=
  ((syncStateCurrent db).find? fun s => s.networkId = network).getD (.absent network)

/-- `publication::state` -/
def state (network : Network) : Writer State := read (currentState network)

/-- `SELECT max(revision) FROM aml_ingested_blocks`; of no rows it is 0. -/
def writtenRevision (network : Network) (db : Database) : Nat :=
  ((db.ingestedBlocks.filter fun b => b.networkId = network).map fun b => b.revision).foldr max 0

def nextRevision (network : Network) (previous : Nat) : Writer Nat := do
  let written ← read (writtenRevision network)
  -- A reservation occupies r; its facts and complete marker use r+1. After
  -- a crash before the complete marker, the next reservation must exceed r+1.
  lift (context (checkedAdd (max previous written) 3) "warehouse revision exhausted")

/-- `migration::validate_identity` on an installed schema. -/
def validateIdentity (network : Network) : Writer Unit := do
  let identity ← read Database.identity
  ensure (identity = network) "shared warehouse identity mismatch"

/-! ## Inserts -/

def insertIdentity (networks : List Network) : Writer Unit :=
  match networks with
  | [] => pure ()
  | first :: rest => do
    ensure (∀ n ∈ rest, n = first) "mixed networks in warehouse insert"
    let identity ← read Database.identity
    ensure (identity = first) "warehouse insert belongs to another network"

/-- `publication::insert`: the whole batch is validated before the first of its chunks is sent. -/
def insert {ρ : Type} (validateRow : ρ → Except String Unit) (networkId : ρ → Network)
    (chunk : List ρ → Insert) (rows : List ρ) : Writer Unit := do
  lift (rows.forM validateRow)
  insertIdentity (rows.map networkId)
  (chunks 1000 rows).forM fun rows => write (chunk rows)

def insertBlocks : List BlockRow → Writer Unit :=
  insert validateBlockRow (fun b => b.networkId) .blocks

def insertState : List State → Writer Unit :=
  insert validateState (fun s => s.networkId) .syncState

/-- Rows of a fact table are taken to satisfy their own column rules: a batch
with a row that does not ends before its first chunk, as a crash there would. -/
def insertFacts (table : FactTable) : List FactRow → Writer Unit :=
  insert (fun _ => .ok ()) (fun f => f.networkId) (.facts table)

/-- The reservation of a block: its row one revision below, not canonical. -/
def reservation (block : Block) : BlockRow :=
  { block with
    revision := block.revision - 1, canonical := 0, ingestionStatus := .processing
    expectedCounts := [] }

def reserve (block : Block) : Writer Unit := do
  ensure (block.revision ≥ 2 ∧ block.canonical = 1 ∧ block.ingestionStatus = .complete)
    "invalid complete block"
  validateIdentity block.networkId
  insertBlocks [reservation block]

/-- The header comparison of `publication::facts` and `core::publish_batch`. -/
def matchHeader (error : String) (block : Block) (row : FactRow) : Except String Unit := do
  let check (key : String) (holds : Bool) : Except String Unit :=
    if holds then .ok () else .error s!"{error}: {key}"
  check "network_id" (row.networkId == block.networkId)
  check "block_number" (row.blockNumber == block.blockNumber)
  check "block_hash" (row.blockHash == block.blockHash)
  check "block_timestamp_unix_ms" (row.blockTimestampUnixMs == block.blockTimestampUnixMs)
  check "commit_id" (row.commitId == block.commitId)
  check "revision" (row.revision == block.revision)

def facts (block : Block) (table : FactTable) (rows : List FactRow) : Writer Unit := do
  lift (rows.forM (matchHeader "fact does not match block publication" block))
  insertFacts table rows

/-! ## The complete marker -/

/-- `SELECT count() FROM {table} FINAL` under the exact header of the block. -/
def factCount (block : Block) (table : FactTable) (db : Database) : Nat :=
  ((factsFinal db).filter fun f => f.1 = table ∧ f.2.ofBlock block).length

def blockRow (block : Block) (counts : List (FactTable × Nat)) : BlockRow :=
  { block with expectedCounts := counts }

/-- `core::complete` -/
def complete (block : Block) (counts : List (FactTable × Nat)) : Writer Unit := do
  ensure (counts.lookup .transactions = some block.transactionCount)
    "complete marker requires exact transaction-family coverage"
  ensure (block.canonical = 1 ∧ block.ingestionStatus = .complete) "invalid complete core marker"
  lift (validateBlockRow (blockRow block counts))
  counts.forM fun (table, expected) => do
    let actual ← read (factCount block table)
    ensure (actual = expected) s!"incomplete core commit: {table.name}"
  insertBlocks [blockRow block counts]

/-! ## The publication fence -/

def isRollback (previous next : State) : Bool :=
  previous.initialized = 1 ∧
    (next.initialized = 0 ∨ next.lastBlockNumber < previous.lastBlockNumber)

/-- The range checks of `publish` on two initialized states. -/
def checkRange (previous next : State) : Except String Unit := do
  if previous.initialized = 1 ∧ next.initialized = 1 then
    if next.startBlock ≠ previous.startBlock then
      throw "cannot change an initialized observed range"
    if next.lastBlockNumber = previous.lastBlockNumber ∧
        next.lastBlockHash ≠ previous.lastBlockHash then
      throw "a replacement branch requires rollback first"
    if next.lastBlockNumber > previous.lastBlockNumber ∧
        checkedAdd previous.lastBlockNumber 1 ≠ some next.lastBlockNumber then
      throw "cannot publish a block gap"

/-- `WHERE network_id=.. AND block_number=.. AND revision<=.. ORDER BY revision DESC LIMIT 1` -/
def newestRow (network : Network) (height revision : Nat) (rows : List BlockRow) :
    Option BlockRow :=
  (latest BlockRow.height (fun b => b.revision) (rows.filter fun b =>
    b.networkId = network ∧ b.blockNumber = height ∧ b.revision ≤ revision)).head?

/-- The checks of `publish` on the block that the next state names. -/
def checkTip (network : Network) (previous next : State) : Writer Unit := do
  ensure (next.lastBlockNumber ≥ next.startBlock) "invalid publication range"
  let rollback := isRollback previous next
  let found ← read fun db => newestRow network next.lastBlockNumber next.revision
    (if rollback then ingestedBlocksCanonical db else db.ingestedBlocks)
  let block ← lift (context found "cannot publish a missing block")
  ensure (block.blockHash = next.lastBlockHash ∧ block.canonical = 1 ∧
    block.ingestionStatus = .complete) "cannot publish an incomplete or conflicting block"
  when (!rollback ∧ (previous.initialized = 0 ∨
      next.lastBlockNumber > previous.lastBlockNumber)) do
    ensure (block.revision = next.revision)
      "publication must use the exact complete-marker revision"
    ensure (previous.initialized = 0 ∨ block.parentHash = previous.lastBlockHash)
      "publication parent mismatch"

/-- The canonical rows that a rollback to `next` orphans, lowest first. -/
def orphanedRows (network : Network) (next : State) (db : Database) : List BlockRow :=
  ((ingestedBlocksCanonical db).filter fun b => b.networkId = network ∧
    (next.initialized = 1 → b.blockNumber > next.lastBlockNumber)).insertionSort
      fun a b => a.blockNumber ≤ b.blockNumber

def tombstone (next : State) (row : BlockRow) : BlockRow :=
  { row with revision := next.revision, canonical := 0, ingestionStatus := .orphaned }

/-- Tombstones are above the old fence, so a crash before the new state leaves
the old snapshot visible. They remain in history after a successful rollback. -/
def orphanSuffix (network : Network) (previous next : State) : Writer Unit := do
  let rows ← read fun db => (orphanedRows network next db).take 10001
  ensure (rows.length ≤ 10000)
    "rollback exceeds the common 10000-block bound; operator recovery required"
  lift (rows.forM validateBlockRow)
  ensure (rows ≠ [] ∨ previous.lastBlockNumber = 0) "rollback has no canonical suffix"
  insertBlocks (rows.map (tombstone next))

def publish (network : Network) (previous next : State) : Writer Unit := do
  ensure (next.networkId = network ∧ previous.networkId = network) "publication network mismatch"
  ensure (next.revision > previous.revision ∧ next.initialized ≤ 1) "invalid publication revision"
  let found ← state network
  ensure (found = previous) "warehouse checkpoint changed; single writer ownership required"
  let _ ← lift (snapshotFromState previous)
  let _ ← lift (snapshotFromState next)
  lift (checkRange previous next)
  when (next.initialized = 1) (checkTip network previous next)
  when (isRollback previous next) (orphanSuffix network previous next)
  let found ← state network
  ensure (found = previous) "checkpoint changed before publication; exclusive writer required"
  insertState [next]

/-! ## Batches -/

/-- The facts of one block by table: a `BTreeMap`, so no table twice. -/
structure FactBatch where
  tables : List (FactTable × List FactRow)
  nodup : (tables.map Prod.fst).Nodup

def FactBatch.counts (batch : FactBatch) : List (FactTable × Nat) :=
  batch.tables.map fun (table, rows) => (table, rows.length)

/-- The checks of `core::publish_batch` before its first insert. -/
def checkBatch (previous : State) (block : Block) (batch : FactBatch) : Except String Unit := do
  if ¬ (previous.initialized ≤ 1 ∧ block.revision > previous.revision) then
    throw "invalid core publication fence"
  if ¬ (block.canonical = 1 ∧ block.ingestionStatus = .complete) then
    throw "a core batch must describe a complete block"
  if previous.networkId ≠ block.networkId then throw "core batch network mismatch"
  if previous.initialized = 1 then
    let expected ← context (checkedAdd previous.lastBlockNumber 1) "height exhausted"
    if block.blockNumber ≠ expected then throw "noncontiguous core batch"
  if ¬ (previous.initialized = 0 ∨ block.parentHash = previous.lastBlockHash) then
    throw "core parent mismatch"
  let transactions ← context (batch.tables.lookup .transactions)
    "transaction family coverage is required"
  if transactions.length ≠ block.transactionCount then throw "block transaction count mismatch"
  batch.tables.forM fun (_, rows) => rows.forM (matchHeader "core row header mismatch" block)
  validateBlockRow (blockRow block batch.counts)

/-- `core::publish_batch` -/
def publishBatch (previous : State) (block : Block) (batch : FactBatch) : Writer State := do
  lift (checkBatch previous block batch)
  reserve block
  batch.tables.forM fun (table, rows) => facts block table rows
  complete block batch.counts
  let next : State :=
    { networkId := block.networkId
      revision := block.revision
      initialized := 1
      startBlock := if previous.initialized = 1 then previous.startBlock else block.blockNumber
      lastBlockNumber := block.blockNumber
      lastBlockHash := block.blockHash
      observedRpcHeight := max previous.observedRpcHeight block.blockNumber
      publishedAtUnixMs := block.createdAtUnixMs }
  publish block.networkId previous next
  pure next

end AmlReal.Warehouse.Publication
