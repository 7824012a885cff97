import Mathlib.Data.List.Perm.Basic
import AmlReal.Warehouse.Publication

/-! # Bitcoin's block writer

`storage/writer.rs`: one block's evidence is written, read back and compared,
then completed and published. The evidence is seen here through the two
functions the writer applies to it. -/

namespace AmlReal.Bitcoin.Writer
open AmlReal.Foundations.StoreProgram AmlReal.Foundations.StoreProgram.Program
open AmlReal.Foundations.Checks (context)
open AmlReal.Warehouse.Values AmlReal.Warehouse.Tables AmlReal.Warehouse.Publication

/-- The source block of a write (`db/warehouse.rs`). -/
structure LegacyBlock where
  blockHeight : Nat
  blockHash : String
  parentHash : String
  blockTime : Nat
  commitId : String
  transactionCount : Nat
  deriving DecidableEq, Repr

/-- `validate_evidence` and `map_evidence` on one block's evidence. -/
structure MappedEvidence where
  validate : LegacyBlock → Except String Unit
  map : Block → Except String FactBatch

/-- `legacyChanged` is the outcome of comparing the legacy checkpoint, which
lives in tables outside the warehouse. -/
structure WriteContext where
  observed : Nat
  start : Nat
  sourceId : String
  legacyChanged : Bool

/-- `UnixMillis::from_seconds` -/
def fromSeconds (seconds : Nat) : Except String Nat :=
  if seconds * 1000 < u64Size then .ok (seconds * 1000) else .error "timestamp overflow"

/-- `verify_rows`: what is stored under the block's header is what was mapped,
row for row in any order. -/
def verifyRows (block : Block) (batch : FactBatch) : Writer Unit :=
  batch.tables.forM fun (table, expected) => do
    let actual ← read fun db => (factsFinal db).filter fun f => f.1 = table ∧ f.2.ofBlock block
    ensure ((actual.map Prod.snd).Perm expected)
      s!"warehouse evidence verification failed: {table.name}"

/-- The block that `write_block` publishes at a drawn revision. -/
def writtenBlock (source : LegacyBlock) (sourceId : String) (revision millis now : Nat) : Block where
  networkId := .bitcoin
  blockNumber := source.blockHeight
  blockHash := source.blockHash
  blockTimestampUnixMs := millis
  commitId := s!"{revision}-{source.blockHash}"
  revision := revision
  parentHash := source.parentHash
  canonical := 1
  ingestionStatus := .complete
  transactionCount := source.transactionCount
  receiptCoverage := none
  traceCoverage := none
  prevoutCoverage := some 1
  sourceId := sourceId
  createdAtUnixMs := now

def writeBlock (previous : State) (source : LegacyBlock) (evidence : MappedEvidence)
    (input : WriteContext) (now : Nat) : Writer State := do
  lift (evidence.validate source)
  let height ← lift (if previous.initialized = 1 then
      context (checkedAdd previous.lastBlockNumber 1) "height exhausted"
    else .ok input.start)
  ensure (source.blockHeight = height) "non-contiguous warehouse block"
  ensure (previous.initialized = 1 → source.parentHash = previous.lastBlockHash)
    "warehouse parent hash mismatch"
  -- db.next_revision: past the publication fence, the reservations and the clock
  let revision ← nextRevision .bitcoin (max previous.revision (now * 1000))
  let millis ← lift (fromSeconds source.blockTime)
  let block := writtenBlock source input.sourceId revision millis now
  let batch ← lift (evidence.map block)
  reserve block
  batch.tables.forM fun (table, rows) => facts block table rows
  -- Verify every persisted column before the complete marker or the fence.
  verifyRows block batch
  complete block batch.counts
  ensure (input.legacyChanged = false)
    "legacy checkpoint changed before publication; stop all legacy writers"
  let next : State :=
    { networkId := .bitcoin
      revision := revision
      initialized := 1
      startBlock := if previous.initialized = 1 then previous.startBlock else input.start
      lastBlockNumber := source.blockHeight
      lastBlockHash := source.blockHash
      observedRpcHeight := input.observed
      publishedAtUnixMs := now }
  publish .bitcoin previous next
  pure next

end AmlReal.Bitcoin.Writer
