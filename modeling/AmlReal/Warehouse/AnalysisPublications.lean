import AmlReal.Warehouse.Publication

/-! # Analysis publications

`visibility.rs` beyond the snapshot, and the views of `0005_visibility.json`
over derived tables: one immutable analysis attempt is written, counted and
sealed, and a seal can be taken back. A row of a derived table keeps the columns
that this code reads; what `validate_row` says of the whole row is `rules`. -/

namespace AmlReal.Warehouse.AnalysisPublications
open AmlReal.Foundations.LatestRows AmlReal.Foundations.StoreProgram
open AmlReal.Foundations.StoreProgram.Program
open AmlReal.Foundations.Checks (context)
open AmlReal.Warehouse.Values AmlReal.Warehouse.Tables AmlReal.Warehouse.Rules
open AmlReal.Warehouse.Publication

/-! ## Families -/

/-- `family_tables`, the parent first. -/
def Family.tables : Family → List DerivedTable
  | .cluster => [.clusterRuns, .clusterClaims, .clusterMemberships, .clusterVersions]
  | .exposure => [.exposureRuns, .exposurePaths, .addressExposures]
  | .risk => [.walletRiskAssessments, .walletRiskSignals]

def Family.parent : Family → DerivedTable
  | .cluster => .clusterRuns
  | .exposure => .exposureRuns
  | .risk => .walletRiskAssessments

/-- The family whose table it is. -/
def DerivedTable.family : DerivedTable → Family
  | .clusterRuns | .clusterClaims | .clusterMemberships | .clusterVersions => .cluster
  | .exposureRuns | .exposurePaths | .addressExposures => .exposure
  | .walletRiskAssessments | .walletRiskSignals => .risk

theorem mem_tables {family : Family} {table : DerivedTable} : table ∈ Family.tables family ↔ DerivedTable.family table = family := by
  cases family <;> cases table <;> decide

/-! ## Views -/

/-- What a publication is about; its id is never reused. -/
structure Key where
  networkId : Network
  family : Family
  id : String
  deriving DecidableEq

def AnalysisPublication.key (p : AnalysisPublication) : Key := ⟨p.networkId, p.family, p.publicationId⟩

/-- The key that a row of a derived table is written under. -/
def rowKey (table : DerivedTable) (row : DerivedRow) : Key := ⟨row.networkId, DerivedTable.family table, row.id⟩

/-- `aml_analysis_publications_current` -/
def publicationsCurrent (db : Database) : List AnalysisPublication :=
  latest AnalysisPublication.key (fun p => p.revision) db.analysisPublications

def derivedKey (entry : DerivedTable × DerivedRow) : DerivedTable × Network × List String :=
  (entry.1, entry.2.networkId, entry.2.rowKey)

def derivedRevision (entry : DerivedTable × DerivedRow) : Nat := entry.2.revision

/-- The derived tables read `FINAL`, and their `_current` views. -/
def derivedFinal (db : Database) : List (DerivedTable × DerivedRow) :=
  latest derivedKey derivedRevision db.derived

def rowsFinal (table : DerivedTable) (db : Database) : List DerivedRow :=
  ((derivedFinal db).filter fun entry => entry.1 = table).map Prod.snd

/-- `aml_analysis_publications_visible` -/
def publicationsVisible (db : Database) : List AnalysisPublication :=
  (publicationsCurrent db).filter fun p => p.status = .complete ∧
    ((syncStateCurrent db).any fun s => p.networkId = s.networkId ∧ p.sourceRevision = s.revision ∧
      s.initialized = 1 ∧ p.asOfBlock ≤ s.lastBlockNumber) ∧
    (ingestedBlocksCanonical db).any fun b => p.networkId = b.networkId ∧ p.asOfBlock = b.blockNumber ∧
      p.blockHash = b.blockHash

/-- The join of a row with its publication. -/
def Seals (p : AnalysisPublication) (table : DerivedTable) (row : DerivedRow) : Prop :=
  AnalysisPublication.key p = rowKey table row ∧ p.outputRevision = row.revision

instance (p : AnalysisPublication) (table : DerivedTable) (row : DerivedRow) : Decidable (Seals p table row) := by
  unfold Seals
  infer_instance

/-- The columns that repeat the source of the publication. -/
def SameSource (p : AnalysisPublication) (row : DerivedRow) : Prop :=
  row.sourceRevision = some p.sourceRevision ∧ row.asOfBlock = some p.asOfBlock

instance (p : AnalysisPublication) (row : DerivedRow) : Decidable (SameSource p row) := by
  unfold SameSource
  infer_instance

/-- The rows of a table that a visible publication seals. -/
def sealedRows (table : DerivedTable) (db : Database) : List DerivedRow :=
  (rowsFinal table db).filter fun row => (publicationsVisible db).any fun p => Seals p table row

/-- Those among them whose source is that of the publication. -/
def sourcedRows (table : DerivedTable) (db : Database) : List DerivedRow :=
  (rowsFinal table db).filter fun row => (publicationsVisible db).any fun p => Seals p table row ∧ SameSource p row

/-- `aml_cluster_runs_visible` and `aml_exposure_runs_visible` -/
def runsVisible (table : DerivedTable) (db : Database) : List DerivedRow :=
  (sourcedRows table db).filter fun run => run.status = some "complete" ∧ run.truncated = some 0

/-- `aml_wallet_risk_assessments_visible` -/
def assessmentsVisible (db : Database) : List DerivedRow :=
  (sourcedRows .walletRiskAssessments db).filter fun assessment =>
    ∀ id ∈ assessment.exposureRunId, (runsVisible .exposureRuns db).any fun run =>
      run.networkId = assessment.networkId ∧ run.id = id ∧ run.sourceRevision = assessment.sourceRevision

/-- The join of a row with its parent. -/
def hasParent (parents : List DerivedRow) (row : DerivedRow) : Bool :=
  parents.any fun parent => parent.networkId = row.networkId ∧ parent.id = row.id ∧ parent.revision = row.revision

/-- `{table}_visible` -/
def visible (db : Database) : DerivedTable → List DerivedRow
  | .clusterRuns => runsVisible .clusterRuns db
  | .clusterClaims => (sealedRows .clusterClaims db).filter (hasParent (runsVisible .clusterRuns db))
  | .clusterMemberships => (sealedRows .clusterMemberships db).filter (hasParent (runsVisible .clusterRuns db))
  | .clusterVersions => (sealedRows .clusterVersions db).filter (hasParent (runsVisible .clusterRuns db))
  | .exposureRuns => runsVisible .exposureRuns db
  | .exposurePaths => (sealedRows .exposurePaths db).filter (hasParent (runsVisible .exposureRuns db))
  | .addressExposures => (sourcedRows .addressExposures db).filter (hasParent (runsVisible .exposureRuns db))
  | .walletRiskAssessments => assessmentsVisible db
  | .walletRiskSignals => (sourcedRows .walletRiskSignals db).filter (hasParent (assessmentsVisible db))

/-! ## Inserts -/

def validatePublication (row : AnalysisPublication) : Except String Unit := do
  let check := rule "aml_analysis_publications"
  check "publication_id" "nonempty" (row.publicationId != "")
  check "source_revision" "positive" (row.sourceRevision > 0)
  check "output_revision" "positive" (row.outputRevision > 0)
  check "revision" "positive" (row.revision > 0)
  check "block_hash" "hash" (canonicalHash row.networkId row.blockHash)

def insertPublications : List AnalysisPublication → Writer Unit :=
  insert validatePublication (fun p => p.networkId) .analysisPublications

variable (rules : DerivedTable → DerivedRow → Except String Unit)

def insertDerived (table : DerivedTable) : List DerivedRow → Writer Unit :=
  insert (rules table) (fun row => row.networkId) (.derived table)

/-! ## The code -/

/-- `Snapshot` -/
structure Snapshot where
  state : State
  valid : snapshotFromState state = .ok state

/-- The rows of an attempt: a `BTreeMap`, so no table twice. -/
structure Batch where
  tables : List (DerivedTable × List DerivedRow)
  nodup : (tables.map Prod.fst).Nodup

def Batch.rows (batch : Batch) (table : DerivedTable) : List DerivedRow := (batch.tables.lookup table).getD []

/-- `unchanged` -/
def unchanged (snapshot : Snapshot) : Writer Unit := do
  let found ← state snapshot.state.networkId
  ensure (found = snapshot.state) "source snapshot changed; retry or recompute"

/-- The checks of one row. -/
def checkRow (snapshot : State) (id : String) (outputRevision : Nat) (table : DerivedTable) (row : DerivedRow) :
    Except String Unit := do
  rules table row
  AmlReal.Foundations.Checks.ensure (row.networkId = snapshot.networkId ∧ row.id = id ∧ row.revision = outputRevision)
    "analysis row identity/revision mismatch"
  AmlReal.Foundations.Checks.ensure (row.sourceRevision ≠ none →
      row.sourceRevision = some snapshot.revision ∧ row.asOfBlock = some snapshot.lastBlockNumber)
    "analysis source snapshot mismatch"

def checkTable (snapshot : State) (id : String) (outputRevision : Nat) (batch : Batch) (table : DerivedTable) :
    Except String Unit := do
  (batch.rows table).forM (checkRow rules snapshot id outputRevision table)
  AmlReal.Foundations.Checks.ensure ((batch.rows table).map fun row => row.rowKey).Nodup "duplicate analysis row key"

/-- The checks of the parent against the counts. -/
def checkParent (family : Family) (parent : DerivedRow) (batch : Batch) : Except String Unit := do
  AmlReal.Foundations.Checks.ensure (family ≠ .risk →
      parent.status = some "complete" ∧ parent.truncated = some 0 ∧ parent.completedAtUnixMs.isSome)
    "analysis parent is incomplete or truncated"
  AmlReal.Foundations.Checks.ensure (family = .risk →
      parent.signalCount = some (batch.rows .walletRiskSignals).length) "risk signal count mismatch"
  AmlReal.Foundations.Checks.ensure (family = .exposure → parent.pathCount ≠ none →
      parent.pathCount = some (batch.rows .exposurePaths).length) "exposure path count mismatch"

/-- A risk assessment that names an exposure run depends on it. -/
def checkDependency (snapshot : State) (family : Family) (parent : DerivedRow) : Writer Unit :=
  if family = .risk then
    match parent.exposureRunId with
    | none => pure ()
    | some run => do
      let active ← read fun db => ((runsVisible .exposureRuns db).filter fun row =>
        row.networkId = snapshot.networkId ∧ row.id = run ∧ row.sourceRevision = some snapshot.revision).length
      ensure (active = 1) "risk dependency is not a visible exposure run"
  else pure ()

/-- How many rows of the table have the id, at the revision when one is given. -/
def countRows (network : Network) (id : String) (revision : Option Nat) (table : DerivedTable) (db : Database) : Nat :=
  ((rowsFinal table db).filter fun row => row.networkId = network ∧ row.id = id ∧
    ∀ r ∈ revision, row.revision = r).length

def DerivedTable.name : DerivedTable → String
  | .clusterRuns => "aml_cluster_runs"
  | .clusterClaims => "aml_cluster_claims"
  | .clusterMemberships => "aml_cluster_memberships"
  | .clusterVersions => "aml_cluster_versions"
  | .exposureRuns => "aml_exposure_runs"
  | .exposurePaths => "aml_exposure_paths"
  | .addressExposures => "aml_address_exposures"
  | .walletRiskAssessments => "aml_wallet_risk_assessments"
  | .walletRiskSignals => "aml_wallet_risk_signals"

/-- `counts`, in the order of its map. -/
def Batch.counts (batch : Batch) (family : Family) : List (DerivedTable × Nat) :=
  ((Family.tables family).insertionSort fun a b => DerivedTable.name a ≤ DerivedTable.name b).map
    fun table => (table, (batch.rows table).length)

/-- The row that seals an attempt. -/
def sealRow (snapshot : State) (family : Family) (id : String) (outputRevision : Nat) (parent : DerivedRow)
    (counts : List (DerivedTable × Nat)) : AnalysisPublication where
  networkId := snapshot.networkId
  family := family
  publicationId := id
  sourceRevision := snapshot.revision
  asOfBlock := snapshot.lastBlockNumber
  blockHash := snapshot.lastBlockHash
  outputRevision := outputRevision
  status := .complete
  rowCounts := counts
  revision := outputRevision
  createdAtUnixMs := parent.createdAtUnixMs

/-- `publish_analysis` -/
def publishAnalysis (snapshot : Snapshot) (family : Family) (id : String) (outputRevision : Nat) (batch : Batch) :
    Writer Unit := do
  let source := snapshot.state
  ensure (id ≠ "" ∧ outputRevision > 0 ∧ source.initialized = 1) "invalid analysis publication"
  ensure ((∀ entry ∈ batch.tables, entry.1 ∈ Family.tables family) ∧ (batch.rows (Family.parent family)).length = 1)
    "analysis must contain one parent and only its family tables"
  lift ((Family.tables family).forM (checkTable rules source id outputRevision batch))
  let parent ← lift (context (batch.rows (Family.parent family)).head? "analysis must contain one parent")
  lift (checkParent family parent batch)
  unchanged snapshot
  checkDependency source family parent
  let existing ← read fun db => ((publicationsCurrent db).filter fun p =>
    AnalysisPublication.key p = ⟨source.networkId, family, id⟩).length
  ensure (existing = 0) "analysis publication IDs cannot be reused"
  (Family.tables family).forM fun table => do
    let existing ← read (countRows source.networkId id none table)
    ensure (existing = 0) "analysis attempt ID already has output rows; use a fresh ID"
  batch.tables.forM fun entry => insertDerived rules entry.1 entry.2
  (batch.counts family).forM fun entry => do
    let actual ← read (countRows source.networkId id (some outputRevision) entry.1)
    ensure (actual = entry.2) "analysis output count verification failed"
  unchanged snapshot
  insertPublications [sealRow source family id outputRevision parent (batch.counts family)]

/-- `invalidate_analysis` -/
def invalidateAnalysis (network : Network) (family : Family) (id : String) (revision : Nat) : Writer Unit := do
  validateIdentity network
  let rows ← read fun db => (publicationsCurrent db).filter fun p => AnalysisPublication.key p = ⟨network, family, id⟩
  lift (rows.forM validatePublication)
  let row ← lift (context rows.head? "invalidation requires an existing publication and a newer revision")
  ensure (rows.length = 1 ∧ row.revision < revision)
    "invalidation requires an existing publication and a newer revision"
  insertPublications [{ row with status := .invalidated, revision }]

end AmlReal.Warehouse.AnalysisPublications
