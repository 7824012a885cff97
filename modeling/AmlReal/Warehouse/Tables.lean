import AmlReal.Foundations.LatestRows
import AmlReal.Foundations.StoreProgram
import AmlReal.Warehouse.Values

/-! # The shared warehouse: its tables and what readers see of them

Rows carry the columns that the publication and visibility code reads or
writes. A table is the list of its inserted rows; `ReplacingMergeTree FINAL`,
`argMax(.., revision)` by group and `ORDER BY revision DESC LIMIT 1` all read
`latest`. Where two rows of one sorting key had one revision ClickHouse would
be free to return either; `latest` returns the one inserted last.

The JSON text columns that nothing here parses (`raw_evidence_json`,
`source_cursor_json`) are left out, and so are the tables that no function of
this development reads. -/

namespace AmlReal.Warehouse.Tables
open AmlReal.Foundations.LatestRows AmlReal.Foundations.StoreProgram
open AmlReal.Warehouse.Values

/-- `aml_sync_state`, and `publication::State`. -/
structure State where
  networkId : Network
  revision : Nat
  initialized : Nat
  startBlock : Nat
  lastBlockNumber : Nat
  lastBlockHash : String
  observedRpcHeight : Nat
  publishedAtUnixMs : Nat
  deriving DecidableEq, Repr

/-- `State::default()` under a network id: what `state` returns of an empty table. -/
def State.absent (network : Network) : State := ⟨network, 0, 0, 0, 0, "", 0, 0⟩

inductive IngestionStatus where
  | processing
  | complete
  | failed
  | orphaned
  deriving DecidableEq, Repr, Inhabited

/-- `publication::Block` -/
structure Block where
  networkId : Network
  blockNumber : Nat
  blockHash : String
  blockTimestampUnixMs : Nat
  commitId : String
  revision : Nat
  parentHash : String
  canonical : Nat
  ingestionStatus : IngestionStatus
  transactionCount : Nat
  receiptCoverage : Option Nat
  traceCoverage : Option Nat
  prevoutCoverage : Option Nat
  sourceId : String
  createdAtUnixMs : Nat
  deriving DecidableEq, Repr, Inhabited

/-- The fact families of one block, in the order of `core::FACTS`. -/
inductive FactTable where
  | transactions
  | addressRelationships
  | transactionFeatures
  | semanticAmlEvents
  | bitcoinInputs
  | bitcoinOutputs
  | evmLogs
  | tronContracts
  | metadataDiscoveries
  | bitcoinScripts
  | evmTraces
  | rawTransactions
  deriving DecidableEq, Repr

def FactTable.name : FactTable → String
  | .transactions => "aml_transactions"
  | .addressRelationships => "aml_address_relationships"
  | .transactionFeatures => "aml_transaction_features"
  | .semanticAmlEvents => "aml_semantic_aml_events"
  | .bitcoinInputs => "aml_bitcoin_inputs"
  | .bitcoinOutputs => "aml_bitcoin_outputs"
  | .evmLogs => "aml_evm_logs"
  | .tronContracts => "aml_tron_contracts"
  | .metadataDiscoveries => "aml_metadata_discoveries"
  | .bitcoinScripts => "aml_bitcoin_scripts"
  | .evmTraces => "aml_evm_traces"
  | .rawTransactions => "aml_raw_transactions"

/-- `aml_ingested_blocks`: a block with its `expected_counts_json`. -/
structure BlockRow extends Block where
  expectedCounts : List (FactTable × Nat)
  deriving DecidableEq, Repr, Inhabited

/-- A row of a fact table: the block header it repeats, the rest of the
table's sorting key, and its other columns. -/
structure FactRow where
  networkId : Network
  blockNumber : Nat
  blockHash : String
  blockTimestampUnixMs : Nat
  commitId : String
  revision : Nat
  rowKey : List String
  columns : String
  deriving DecidableEq, Repr

/-- The families of derived outputs (`visibility::family_tables`). -/
inductive Family where
  | cluster
  | exposure
  | risk
  deriving DecidableEq, Repr

inductive DerivedTable where
  | clusterRuns
  | clusterClaims
  | clusterMemberships
  | clusterVersions
  | exposureRuns
  | exposurePaths
  | addressExposures
  | walletRiskAssessments
  | walletRiskSignals
  deriving DecidableEq, Repr

inductive PublicationStatus where
  | complete
  | invalidated
  deriving DecidableEq, Repr

/-- `aml_analysis_publications` -/
structure AnalysisPublication where
  networkId : Network
  family : Family
  publicationId : String
  sourceRevision : Nat
  asOfBlock : Nat
  blockHash : String
  outputRevision : Nat
  status : PublicationStatus
  rowCounts : List (DerivedTable × Nat)
  revision : Nat
  createdAtUnixMs : Nat
  deriving DecidableEq, Repr

/-- A row of a derived table: `id` is its `run_id` or `assessment_id`,
`rowKey` the sorting key after the network, and a column that its table does
not have is `none`. -/
structure DerivedRow where
  networkId : Network
  id : String
  rowKey : List String
  revision : Nat
  createdAtUnixMs : Nat
  sourceRevision : Option Nat
  asOfBlock : Option Nat
  status : Option String
  truncated : Option Nat
  completedAtUnixMs : Option Nat
  signalCount : Option Nat
  pathCount : Option Nat
  exposureRunId : Option String
  deriving DecidableEq, Repr

/-- One warehouse database. `identity` is the network of `aml_warehouse_identity`. -/
structure Database where
  identity : Network
  ingestedBlocks : List BlockRow
  syncState : List State
  facts : List (FactTable × FactRow)
  analysisPublications : List AnalysisPublication
  derived : List (DerivedTable × DerivedRow)

def Database.empty (network : Network) : Database := ⟨network, [], [], [], [], []⟩

/-- One `insert_json` call. -/
inductive Insert where
  | blocks (rows : List BlockRow)
  | syncState (rows : List State)
  | facts (table : FactTable) (rows : List FactRow)
  | analysisPublications (rows : List AnalysisPublication)
  | derived (table : DerivedTable) (rows : List DerivedRow)
  deriving DecidableEq

def Database.append (db : Database) : Insert → Database
  | .blocks rows => { db with ingestedBlocks := db.ingestedBlocks ++ rows }
  | .syncState rows => { db with syncState := db.syncState ++ rows }
  | .facts table rows => { db with facts := db.facts ++ rows.map (table, ·) }
  | .analysisPublications rows =>
    { db with analysisPublications := db.analysisPublications ++ rows }
  | .derived table rows => { db with derived := db.derived ++ rows.map (table, ·) }

instance : LogStore Database Insert := ⟨Database.append⟩

/-! ## Views -/

/-- `aml_sync_state_current` -/
def syncStateCurrent (db : Database) : List State :=
  latest State.networkId State.revision db.syncState

/-- The rows that `aml_ingested_blocks_canonical` groups: published by the
current state, inside its observed range. -/
def fenced (db : Database) : List BlockRow :=
  db.ingestedBlocks.filter fun b => (syncStateCurrent db).any fun s =>
    b.networkId = s.networkId ∧ s.initialized = 1 ∧ b.revision ≤ s.revision ∧
    s.startBlock ≤ b.blockNumber ∧ b.blockNumber ≤ s.lastBlockNumber

def BlockRow.height (b : BlockRow) : Network × Nat := (b.networkId, b.blockNumber)

/-- `aml_ingested_blocks_canonical` -/
def ingestedBlocksCanonical (db : Database) : List BlockRow :=
  (latest BlockRow.height (fun b => b.revision) (fenced db)).filter fun d =>
    d.canonical = 1 ∧ d.ingestionStatus = .complete ∧ (syncStateCurrent db).any fun s =>
      s.networkId = d.networkId ∧
        (d.blockNumber < s.lastBlockNumber ∨ d.blockHash = s.lastBlockHash)

/-- The sorting key of a fact, under the table it is in. -/
structure FactKey where
  table : FactTable
  networkId : Network
  blockNumber : Nat
  blockHash : String
  commitId : String
  rowKey : List String
  deriving DecidableEq

def factKey : FactTable × FactRow → FactKey
  | (table, f) => ⟨table, f.networkId, f.blockNumber, f.blockHash, f.commitId, f.rowKey⟩

def factRevision (f : FactTable × FactRow) : Nat := f.2.revision

/-- The fact tables read `FINAL`. -/
def factsFinal (db : Database) : List (FactTable × FactRow) :=
  latest factKey factRevision db.facts

/-- The exact network/height/hash/commit/revision of a block. -/
def FactRow.ofBlock (f : FactRow) (b : Block) : Bool :=
  f.networkId = b.networkId ∧ f.blockNumber = b.blockNumber ∧ f.blockHash = b.blockHash ∧
  f.commitId = b.commitId ∧ f.revision = b.revision

/-- `{table}_canonical`. A fact joins at most one canonical block, so the join
is a filter. -/
def factsCanonical (db : Database) (table : FactTable) : List (FactTable × FactRow) :=
  (factsFinal db).filter fun f => f.1 = table ∧ (ingestedBlocksCanonical db).any fun b =>
    f.2.ofBlock b.toBlock ∧ f.2.blockTimestampUnixMs = b.blockTimestampUnixMs

end AmlReal.Warehouse.Tables
