import Mathlib.Algebra.Order.Ring.Rat
import Mathlib.Data.List.MinMax
import AmlReal.Foundations.Checks
import AmlReal.Foundations.LatestRows
import AmlReal.Foundations.StoreProgram
import AmlReal.Foundations.Text

/-! # TRON entity intelligence

The submissions and reviews of `entity_intelligence.rs`. Every row is of the
chain `tron`, and the tables are the lists of their rows in the order of
insertion, of which `FINAL` reads the last row of a key. Where a query takes one
of several rows it takes the first. A confidence that is not a finite number
stands for one out of range. SHA-256 and the address parser are parameters. -/

namespace AmlReal.Tron.EntityIntelligence
open AmlReal.Foundations AmlReal.Foundations.LatestRows AmlReal.Foundations.StoreProgram
open AmlReal.Foundations.StoreProgram.Program

structure Config where
  sha256 : String → String
  normalizeTronAddress : String → Option String

/-! ## Tables -/

structure IntelligenceSourceRow where
  sourceId : String
  sourceName : String
  sourceType : String
  trustTier : String
  referenceUrl : String
  license : String
  isActive : Nat
  createdBy : String
  createdAtUnixMs : Nat

structure EntityLabelClaimRow where
  labelId : String
  address : String
  entityId : String
  entityName : String
  entityType : String
  addressRole : String
  confidence : ℚ
  riskPercent : Nat
  source : String
  sourceRecordId : String
  supersedesLabelId : String
  submittedBy : String
  caseId : String
  evidenceRefs : List String
  reviewStatus : String
  createdAtUnixMs : Nat

structure AddressClusterClaimRow where
  claimId : String
  address : String
  clusterId : String
  clusterType : String
  addressRole : String
  claimMethod : String
  confidence : ℚ
  source : String
  sourceRecordId : String
  evidenceTxHashes : List String
  evidenceAddresses : List String
  evidenceJson : String
  supersedesClaimId : String
  reviewStatus : String
  createdBy : String
  createdAtUnixMs : Nat

structure IntelligenceReviewRow where
  reviewId : String
  subjectType : String
  subjectId : String
  decision : String
  reviewer : String
  reason : String
  evidenceRefs : List String
  createdAtUnixMs : Nat
  deriving DecidableEq

structure AddressEntityRow where
  address : String
  entityId : String
  entityName : String
  entityType : String
  confidence : ℚ
  source : String
  isActive : Nat
  deriving DecidableEq

structure ExchangeAddressRow where
  address : String
  entityId : String
  exchangeName : String
  addressRole : String
  confidence : ℚ
  detectionSource : String
  firstSeenBlock : Nat
  lastSeenBlock : Nat
  isActive : Nat
  deriving DecidableEq

structure ExposureSeedRow where
  address : String
  entityName : String
  entityType : String
  riskLevel : Nat
  source : String
  sourceLabelId : String
  isActive : Nat
  deriving DecidableEq

structure AddressClusterMembershipRow where
  address : String
  clusterId : String
  clusterType : String
  addressRole : String
  confidence : ℚ
  sourceClaimId : String
  reviewId : String
  clusterVersion : Nat
  isActive : Nat
  createdAtUnixMs : Nat
  deriving DecidableEq

structure ClusterVersionRow where
  clusterId : String
  version : Nat
  clusterType : String
  displayName : String
  changeType : String
  changeReason : String
  sourceClaimIds : List String
  activeMemberCount : Nat
  createdBy : String
  createdAtUnixMs : Nat

structure Database where
  intelligenceSources : List IntelligenceSourceRow
  entityLabels : List EntityLabelClaimRow
  addressClusterClaims : List AddressClusterClaimRow
  intelligenceReviews : List IntelligenceReviewRow
  addressEntity : List AddressEntityRow
  exchangeAddresses : List ExchangeAddressRow
  exposureSeeds : List ExposureSeedRow
  addressClusterMemberships : List AddressClusterMembershipRow
  clusterVersions : List ClusterVersionRow

def Database.empty : Database := ⟨[], [], [], [], [], [], [], [], []⟩

inductive Insert where
  | intelligenceSources (row : IntelligenceSourceRow)
  | entityLabels (row : EntityLabelClaimRow)
  | addressClusterClaims (rows : List AddressClusterClaimRow)
  | intelligenceReviews (row : IntelligenceReviewRow)
  | addressEntity (row : AddressEntityRow)
  | exchangeAddresses (row : ExchangeAddressRow)
  | exposureSeeds (row : ExposureSeedRow)
  | addressClusterMemberships (row : AddressClusterMembershipRow)
  | clusterVersions (row : ClusterVersionRow)

instance : LogStore Database Insert where
  append db
    | .intelligenceSources row => { db with intelligenceSources := db.intelligenceSources ++ [row] }
    | .entityLabels row => { db with entityLabels := db.entityLabels ++ [row] }
    | .addressClusterClaims rows => { db with addressClusterClaims := db.addressClusterClaims ++ rows }
    | .intelligenceReviews row => { db with intelligenceReviews := db.intelligenceReviews ++ [row] }
    | .addressEntity row => { db with addressEntity := db.addressEntity ++ [row] }
    | .exchangeAddresses row => { db with exchangeAddresses := db.exchangeAddresses ++ [row] }
    | .exposureSeeds row => { db with exposureSeeds := db.exposureSeeds ++ [row] }
    | .addressClusterMemberships row =>
      { db with addressClusterMemberships := db.addressClusterMemberships ++ [row] }
    | .clusterVersions row => { db with clusterVersions := db.clusterVersions ++ [row] }

abbrev Work := Program Database Insert String

/-- `ORDER BY (chain, address, cluster_id)` -/
def membershipKey (row : AddressClusterMembershipRow) : String × String := (row.address, row.clusterId)

section
variable (db : Database)

def currentEntities : List AddressEntityRow := newest AddressEntityRow.address db.addressEntity

def currentExchanges : List ExchangeAddressRow := newest ExchangeAddressRow.address db.exchangeAddresses

def currentSeeds : List ExposureSeedRow := newest ExposureSeedRow.address db.exposureSeeds

def currentMemberships : List AddressClusterMembershipRow :=
  newest membershipKey db.addressClusterMemberships

/-- `ORDER BY (chain, address, label_id)` -/
def currentLabels : List EntityLabelClaimRow :=
  newest (fun row => (row.address, row.labelId)) db.entityLabels

/-- `ORDER BY (chain, address, cluster_id, claim_id)` -/
def currentClusterClaims : List AddressClusterClaimRow :=
  newest (fun row => (row.address, row.clusterId, row.claimId)) db.addressClusterClaims

end

/-! ## Checks -/

def validateNonEmpty (field value : String) : Except String Unit :=
  Checks.ensure (Text.trim value ≠ "") s!"{field} must not be empty"

def validateIdentifier (field value : String) : Except String Unit :=
  Checks.ensure (value.toList.all fun c => Text.isAsciiAlphanumeric c ∨ c = '_' ∨ c = '-' ∨ c = ':' ∨
    c = '.')
    s!"{field} may contain only ASCII letters, numbers, underscore, dash, colon, and dot"

def normalizeEnum (field value : String) (allowed : List String) : Except String String :=
  let normalized := (Text.trim value).toUpper
  if normalized ∈ allowed then .ok normalized
  else .error (s!"{field} must be one of " ++ String.intercalate ", " allowed ++ s!"; got {value.quote}")

def normalizeRole (value : String) : Except String String :=
  normalizeEnum "address_role" value ["UNKNOWN", "HOT", "DEPOSIT", "SWEEP", "TREASURY", "WITHDRAW",
    "INTERNAL", "SERVICE", "CUSTOMER", "OPERATOR", "CONTRACT"]

def validateConfidence (confidence : ℚ) : Except String Unit :=
  Checks.ensure (0 ≤ confidence ∧ confidence ≤ 1) "confidence must be between 0 and 1"

def contentId (config : Config) (start : String) (parts : List String) : String :=
  let digest := config.sha256 (String.intercalate "|" parts)
  s!"{start}_{String.ofList (digest.toList.take 24)}"

/-- The characters so far, and whether the last one is a separator. -/
def slugStep (state : List Char × Bool) (c : Char) : List Char × Bool :=
  if Text.isAsciiAlphanumeric c then (state.1 ++ [c.toLower], false)
  else if ¬state.2 ∧ state.1 ≠ [] then (state.1 ++ ['_'], true)
  else state

def slug (value : String) : String :=
  Text.trimMatches (· = '_')
    (String.ofList ((Text.trim value).toList.foldl slugStep ([], false)).1)

def isExchangeEntityType (value : String) : Bool :=
  (Text.trim value).toLower ∈ ["exchange", "centralized_exchange", "dex", "custodial_exchange"]

/-! ## Submissions -/

structure IntelligenceSourceInput where
  sourceId : String
  sourceName : String
  sourceType : String
  trustTier : String
  referenceUrl : String
  license : String
  isActive : Bool
  createdBy : String

structure EntityLabelSubmission where
  address : String
  labelId : String
  entityId : String
  entityName : String
  entityType : String
  addressRole : String
  confidence : ℚ
  riskPercent : Nat
  source : String
  sourceRecordId : String
  supersedesLabelId : String
  submittedBy : String
  caseId : String
  evidenceRefs : List String

def registerIntelligenceSource (input : IntelligenceSourceInput) (now : Nat) :
    Work IntelligenceSourceRow := do
  lift (validateNonEmpty "source_id" input.sourceId)
  lift (validateIdentifier "source_id" input.sourceId)
  lift (validateNonEmpty "source_name" input.sourceName)
  lift (validateNonEmpty "created_by" input.createdBy)
  let sourceType ← lift (normalizeEnum "source_type" input.sourceType ["ANALYST", "LAW_ENFORCEMENT",
    "REGULATORY", "VENDOR", "PUBLIC_RESEARCH", "INTERNAL", "INTERNAL_BOOTSTRAP", "HEURISTIC"])
  let trustTier ← lift (normalizeEnum "trust_tier" input.trustTier
    ["VERIFIED", "HIGH", "MEDIUM", "UNVERIFIED"])
  let row : IntelligenceSourceRow := ⟨input.sourceId, input.sourceName, sourceType, trustTier,
    input.referenceUrl, input.license, input.isActive.toNat, input.createdBy, now⟩
  write (.intelligenceSources row)
  pure row

def requireActiveSource (sourceId : String) : Work Unit := do
  let sources ← read fun db : Database => newest IntelligenceSourceRow.sourceId db.intelligenceSources
  ensure (sources.any fun row => row.sourceId = sourceId ∧ row.isActive = 1)
    s!"intelligence source {sourceId.quote} is not registered and active"

section
variable (config : Config)

def submitEntityLabel (input : EntityLabelSubmission) (now : Nat) : Work EntityLabelClaimRow := do
  let address ← lift (Checks.context (config.normalizeTronAddress input.address)
    s!"invalid TRON address: {input.address}")
  lift (validateNonEmpty "entity_name" input.entityName)
  lift (validateNonEmpty "entity_type" input.entityType)
  lift (validateNonEmpty "source" input.source)
  lift (validateNonEmpty "source_record_id" input.sourceRecordId)
  lift (validateNonEmpty "submitted_by" input.submittedBy)
  ensure (input.evidenceRefs ≠ []) "evidence_refs must contain at least one reference"
  lift (validateConfidence input.confidence)
  ensure (input.riskPercent ≤ 100) "risk_percent must be between 0 and 100"
  requireActiveSource input.source
  let entityId := if Text.trim input.entityId = "" then
    s!"tron:{slug input.entityType}:{slug input.entityName}" else Text.trim input.entityId
  let addressRole ← lift (normalizeRole input.addressRole)
  let labelId := if Text.trim input.labelId = "" then contentId config "tron_label"
      [address, entityId, addressRole, input.source, input.sourceRecordId]
    else Text.trim input.labelId
  let row : EntityLabelClaimRow :=
    { labelId, address, entityId
      entityName := Text.trim input.entityName
      entityType := (Text.trim input.entityType).toLower
      addressRole
      confidence := input.confidence
      riskPercent := input.riskPercent
      source := input.source
      sourceRecordId := input.sourceRecordId
      supersedesLabelId := input.supersedesLabelId
      submittedBy := input.submittedBy
      caseId := input.caseId
      evidenceRefs := input.evidenceRefs
      reviewStatus := "PENDING"
      createdAtUnixMs := now }
  write (.entityLabels row)
  pure row

/-- The checks of one claim; `source` is checked where a claim comes alone. -/
def normalizeClusterClaim (row : AddressClusterClaimRow) (alone : Bool) :
    Except String AddressClusterClaimRow := do
  let address ← Checks.context (config.normalizeTronAddress row.address)
    s!"invalid TRON address: {row.address}"
  validateNonEmpty "cluster_id" row.clusterId
  validateNonEmpty "claim_method" row.claimMethod
  if alone then validateNonEmpty "source" row.source
  validateNonEmpty "created_by" row.createdBy
  validateConfidence row.confidence
  pure { row with address, reviewStatus := "PENDING" }

def submitClusterClaim (row : AddressClusterClaimRow) : Work Unit := do
  let row ← lift (normalizeClusterClaim config row true)
  requireActiveSource row.source
  let addressRole ← lift (normalizeRole row.addressRole)
  write (.addressClusterClaims [{ row with addressRole }])

def submitClusterClaims (rows : List AddressClusterClaimRow) : Work Nat := do
  if rows = [] then pure 0
  else
    ((rows.map AddressClusterClaimRow.source).mergeSort.dedup).forM requireActiveSource
    let rows ← lift (rows.mapM fun row => do
      let row ← normalizeClusterClaim config row false
      let addressRole ← normalizeRole row.addressRole
      pure { row with addressRole })
    write (.addressClusterClaims rows)
    pure rows.length

end

/-! ## Reviews -/

structure IntelligenceReviewInput where
  subjectType : String
  subjectId : String
  decision : String
  reviewer : String
  reason : String
  evidenceRefs : List String

inductive ProjectionTable where
  | addressEntity
  | exchangeAddresses

/-- The source of the current row of an address. -/
def projectionSource (db : Database) (table : ProjectionTable) (address : String) : Option String :=
  match table with
  | .addressEntity =>
    ((currentEntities db).find? fun row => row.address = address).map AddressEntityRow.source
  | .exchangeAddresses =>
    ((currentExchanges db).find? fun row => row.address = address).map ExchangeAddressRow.detectionSource

def projectionMatches (table : ProjectionTable) (address expectedSource : String) : Work Bool :=
  read fun db => projectionSource db table address = some expectedSource

def currentExposureSeedMatches (claim : EntityLabelClaimRow) : Work Bool :=
  read fun db => ((currentSeeds db).find? fun row => row.address = claim.address).map
    ExposureSeedRow.sourceLabelId = some claim.labelId

/-- `approved || check` -/
def approvedOr (approved : Bool) (check : Work Bool) : Work Bool :=
  if approved then pure true else check

def loadEntityClaim (labelId : String) : Work EntityLabelClaimRow := do
  let claim ← read fun db => (currentLabels db).find? fun row => row.labelId = labelId
  lift (Checks.context claim s!"entity label {labelId.quote} does not exist")

def loadClusterClaim (claimId : String) : Work AddressClusterClaimRow := do
  let claim ← read fun db => (currentClusterClaims db).find? fun row => row.claimId = claimId
  lift (Checks.context claim s!"cluster claim {claimId.quote} does not exist")

section
variable (claim : EntityLabelClaimRow) (approved : Bool)

def entityProjection : AddressEntityRow :=
  ⟨claim.address, claim.entityId, claim.entityName, claim.entityType, claim.confidence, claim.labelId,
    approved.toNat⟩

def labelDetectionSource : String := s!"entity_label:{claim.labelId}"

def labelExchangeProjection : ExchangeAddressRow :=
  ⟨claim.address, claim.entityId, claim.entityName, claim.addressRole, claim.confidence,
    labelDetectionSource claim, 0, 0, approved.toNat⟩

def seedProjection : ExposureSeedRow :=
  ⟨claim.address, claim.entityName, claim.entityType, claim.riskPercent, claim.source, claim.labelId,
    approved.toNat⟩

def projectEntity : Work Unit := do
  let matched ← approvedOr approved (projectionMatches .addressEntity claim.address claim.labelId)
  Program.when (matched = true) (write (.addressEntity (entityProjection claim approved)))

def projectLabelExchange : Work Unit := do
  if isExchangeEntityType claim.entityType then
    let matched ← approvedOr approved
      (projectionMatches .exchangeAddresses claim.address (labelDetectionSource claim))
    Program.when (matched = true) (write (.exchangeAddresses (labelExchangeProjection claim approved)))
  else pure ()

def projectSeed : Work Unit := do
  if 0 < claim.riskPercent then
    let matched ← approvedOr approved (currentExposureSeedMatches claim)
    Program.when (matched = true) (write (.exposureSeeds (seedProjection claim approved)))
  else pure ()

def projectEntityReview (review : IntelligenceReviewRow) : Work Unit := do
  let approved := review.decision = "APPROVED"
  projectEntity claim approved
  projectLabelExchange claim approved
  projectSeed claim approved

end

/-- The active exchange address of greatest confidence among the evidence. -/
def clusterProjectionAnchor (db : Database) (evidenceAddresses : List String) :
    Option ExchangeAddressRow :=
  ((currentExchanges db).filter fun row => row.address ∈ evidenceAddresses ∧ row.isActive = 1).argmax
    ExchangeAddressRow.confidence

def loadClusterProjectionAnchor (evidenceAddresses : List String) : Work (Option ExchangeAddressRow) :=
  if evidenceAddresses = [] then pure none
  else read fun db => clusterProjectionAnchor db evidenceAddresses

section
variable (claim : AddressClusterClaimRow)

def clusterDisplayName : Work String := do
  let anchor ← loadClusterProjectionAnchor claim.evidenceAddresses
  pure (match anchor with
    | some anchor => s!"{anchor.exchangeName} {claim.addressRole} cluster"
    | none => claim.clusterId)

def clusterDetectionSource : String := s!"cluster_claim:{claim.claimId}"

def clusterExchangeProjection (anchor : ExchangeAddressRow) (approved : Bool) : ExchangeAddressRow :=
  ⟨claim.address, anchor.entityId, anchor.exchangeName, claim.addressRole,
    min claim.confidence anchor.confidence, clusterDetectionSource claim, 0, 0, approved.toNat⟩

def projectClusterExchangeAddress (approved : Bool) : Work Unit := do
  let matched ← approvedOr approved
    (projectionMatches .exchangeAddresses claim.address (clusterDetectionSource claim))
  if matched then
    let anchor ← loadClusterProjectionAnchor claim.evidenceAddresses
    match anchor with
    | none => pure ()
    | some anchor => write (.exchangeAddresses (clusterExchangeProjection claim anchor approved))
  else pure ()

/-- `toUInt32(ifNull(max(version), 0) + 1)` -/
def nextVersion (db : Database) : Nat :=
  (((db.clusterVersions.filter fun row => row.clusterId = claim.clusterId).map
    ClusterVersionRow.version).foldr max 0 + 1) % 2 ^ 32

def otherActiveMembers (db : Database) : Nat :=
  ((currentMemberships db).filter fun row =>
    row.clusterId = claim.clusterId ∧ row.address ≠ claim.address ∧ row.isActive = 1).length

def membershipRow (review : IntelligenceReviewRow) (version : Nat) (approved : Bool) :
    AddressClusterMembershipRow where
  address := claim.address
  clusterId := claim.clusterId
  clusterType := claim.clusterType
  addressRole := claim.addressRole
  confidence := claim.confidence
  sourceClaimId := claim.claimId
  reviewId := review.reviewId
  clusterVersion := version
  isActive := approved.toNat
  createdAtUnixMs := review.createdAtUnixMs

def projectClusterReview (review : IntelligenceReviewRow) : Work Unit := do
  let version ← read (nextVersion claim)
  let approved : Bool := review.decision = "APPROVED"
  let others ← read (otherActiveMembers claim)
  write (.addressClusterMemberships (membershipRow claim review version approved))
  let displayName ← clusterDisplayName claim
  write (.clusterVersions
    { clusterId := claim.clusterId
      version
      clusterType := claim.clusterType
      displayName
      changeType := if approved then "MEMBER_APPROVED" else "MEMBER_REJECTED"
      changeReason := review.reason
      sourceClaimIds := [claim.claimId]
      activeMemberCount := others + approved.toNat
      createdBy := review.reviewer
      createdAtUnixMs := review.createdAtUnixMs })
  projectClusterExchangeAddress claim approved

end

def projectReview (row : IntelligenceReviewRow) : Work Unit :=
  if row.subjectType = "ENTITY_LABEL" then do
    let claim ← loadEntityClaim row.subjectId
    write (.intelligenceReviews row)
    projectEntityReview claim row
  else do
    let claim ← loadClusterClaim row.subjectId
    write (.intelligenceReviews row)
    projectClusterReview claim row

def reviewIntelligenceSubject (input : IntelligenceReviewInput) (reviewId : String) (now : Nat) :
    Work IntelligenceReviewRow := do
  let subjectType ← lift (normalizeEnum "subject_type" input.subjectType
    ["ENTITY_LABEL", "CLUSTER_CLAIM"])
  let decision ← lift (normalizeEnum "decision" input.decision ["APPROVED", "REJECTED"])
  lift (validateNonEmpty "subject_id" input.subjectId)
  lift (validateNonEmpty "reviewer" input.reviewer)
  let row : IntelligenceReviewRow := ⟨reviewId, subjectType, input.subjectId, decision, input.reviewer,
    input.reason, input.evidenceRefs, now⟩
  projectReview row
  pure row

end AmlReal.Tron.EntityIntelligence
