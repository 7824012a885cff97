import Mathlib.Data.Rat.Defs
import Mathlib.Algebra.Order.Ring.Rat
import AmlReal.Foundations.Checks
import AmlReal.Foundations.Interleaving
import AmlReal.Foundations.LatestRows
import AmlReal.Foundations.Text

/-! # Reviewed labels of Ethereum addresses

`import_entity_labels_csv` of `intelligence.rs` and the views over what it
writes. The records of a file are given as their deserializer returns them,
with the clock at each; a `confidence` that is not a finite number is `none`.
SHA-256 and the address parser are parameters. -/

namespace AmlReal.Ethereum.EntityLabels
open AmlReal.Foundations AmlReal.Foundations.Interleaving AmlReal.Foundations.LatestRows
open AmlReal.Foundations.StoreProgram AmlReal.Foundations.StoreProgram.Program

structure AppConfig where
  ethNetworkId : String
  sha256 : String → String
  /-- `AddressId::parse_evm`: the address in lower case. -/
  parseEvm : String → Option String

structure IntelligenceSourceRegistration where
  sourceId : String
  sourceName : String
  sourceType : String
  trustTier : String
  referenceUrl : String
  createdBy : String

structure EntityLabelImportOptions where
  source : IntelligenceSourceRegistration
  submittedBy : String

structure EntityLabelImportReport where
  sourceId : String
  submitted : Nat
  approved : Nat
  rejected : Nat
  pending : Nat
  deriving DecidableEq

structure EntityLabelCsvRow where
  address : String
  entityId : String
  entityName : String
  entityType : String
  addressRole : String
  confidence : Option ℚ
  riskLevel : Nat
  isExposureSeed : Bool
  seedCategory : String
  sourceRecordId : String
  supersedesLabelId : String
  caseId : String
  evidenceRefs : String
  reviewStatus : String
  reviewedBy : String
  reviewReason : String

/-! ## Tables -/

structure IntelligenceSourceRow where
  networkId : String
  sourceId : String
  sourceName : String
  sourceType : String
  trustTier : String
  referenceUrl : String
  isActive : Nat
  createdBy : String
  createdAtUnixMs : Nat

structure EntityLabelRow where
  labelId : String
  networkId : String
  address : String
  entityId : String
  entityName : String
  entityType : String
  addressRole : String
  confidence : Option ℚ
  riskLevel : Nat
  isExposureSeed : Nat
  seedCategory : String
  sourceId : String
  sourceRecordId : String
  supersedesLabelId : String
  submittedBy : String
  caseId : String
  evidenceRefs : List String
  reviewStatus : String
  createdAtUnixMs : Nat

structure IntelligenceReviewRow where
  reviewId : String
  networkId : String
  subjectType : String
  subjectId : String
  decision : String
  reviewer : String
  reason : String
  evidenceRefs : List String
  createdAtUnixMs : Nat

structure AddressEntityRow where
  networkId : String
  address : String
  entityId : String
  entityName : String
  entityType : String
  addressRole : String
  confidence : Option ℚ
  riskLevel : Nat
  isExposureSeed : Nat
  seedCategory : String
  sourceLabelId : String
  reviewId : String
  isActive : Nat
  createdAtUnixMs : Nat

structure Database where
  intelligenceSources : List IntelligenceSourceRow
  entityLabels : List EntityLabelRow
  intelligenceReviews : List IntelligenceReviewRow
  addressEntities : List AddressEntityRow

def Database.empty : Database := ⟨[], [], [], []⟩

inductive Insert where
  | intelligenceSources (row : IntelligenceSourceRow)
  | entityLabels (row : EntityLabelRow)
  | intelligenceReviews (row : IntelligenceReviewRow)
  | addressEntities (row : AddressEntityRow)

instance : LogStore Database Insert where
  append db
    | .intelligenceSources row => { db with intelligenceSources := db.intelligenceSources ++ [row] }
    | .entityLabels row => { db with entityLabels := db.entityLabels ++ [row] }
    | .intelligenceReviews row => { db with intelligenceReviews := db.intelligenceReviews ++ [row] }
    | .addressEntities row => { db with addressEntities := db.addressEntities ++ [row] }

abbrev Work := Program Database Insert String

/-- `ORDER BY (network_id, address, entity_id)` -/
def entityKey (row : AddressEntityRow) : String × String × String :=
  (row.networkId, row.address, row.entityId)

def addressEntitiesActive (db : Database) : List AddressEntityRow :=
  (newest entityKey db.addressEntities).filter fun row => row.isActive = 1

/-- The part of the view that comes from `address_entities_active`. -/
def serviceBoundaryAddresses (db : Database) : List AddressEntityRow :=
  (addressEntitiesActive db).filter fun row =>
    row.entityType ∈ ["exchange", "custodian", "bridge", "mixer", "dex"] ∨
      row.addressRole ∈ ["HOT_WALLET", "DEPOSIT", "BRIDGE", "MIXER", "POOL", "ROUTER"]

/-- The rows that `seed_paths` starts from. -/
def exposureSeeds (db : Database) (networkId : String) : List AddressEntityRow :=
  (addressEntitiesActive db).filter fun row =>
    row.networkId = networkId ∧ row.isExposureSeed = 1 ∧ 0 < row.riskLevel

/-! ## The import -/

def stableId (config : AppConfig) (namespaceName : String) (fields : List String) : String :=
  config.sha256 (fields.foldl (fun input field => s!"{input}|{field}") namespaceName)

def slug (value : String) : String :=
  Text.trimMatches (· = '_') (String.ofList ((Text.trim value).toLower.toList.map fun c =>
    if Text.isAsciiAlphanumeric c then c else '_'))

def normalizeRole (value : String) : Except String String :=
  let role := (Text.trim value).toUpper
  if role ∈ ["UNKNOWN", "DEPOSIT", "HOT_WALLET", "COLD_WALLET", "TREASURY", "CONTRACT", "ROUTER",
    "POOL", "BRIDGE", "MIXER"] then .ok role else .error s!"unsupported address_role {role}"

def normalizeReviewStatus (value : String) : Except String String :=
  let status := (Text.trim value).toUpper
  if status ∈ ["PENDING", "APPROVED", "REJECTED"] then .ok status
  else .error s!"unsupported review_status {status}"

def validateSource (source : IntelligenceSourceRegistration) : Except String Unit := do
  Checks.ensure (Text.trim source.sourceId ≠ "") "source_id must not be empty"
  Checks.ensure (source.sourceId.toList.all fun c => Text.isAsciiAlphanumeric c ∨ c = '_' ∨ c = '-')
    "source_id contains unsupported characters"
  Checks.ensure (Text.trim source.sourceName ≠ "") "source_name must not be empty"
  Checks.ensure (Text.trim source.createdBy ≠ "") "created_by must not be empty"
  Checks.ensure ((Text.trim source.sourceType).toUpper ∈ ["ANALYST", "LAW_ENFORCEMENT", "REGULATORY",
    "VENDOR", "PUBLIC_RESEARCH", "INTERNAL"]) "unsupported source_type"
  Checks.ensure ((Text.trim source.trustTier).toUpper ∈ ["VERIFIED", "HIGH", "MEDIUM", "UNVERIFIED"])
    "unsupported trust_tier"

/-- `NetworkId::from_str` -/
def networkId (value : String) : Except String String :=
  let normalized := (Text.trim value).toLower
  match Text.splitOnce ':' normalized with
  | none => .error s!"invalid network identifier: {value}"
  | some (namespaceName, reference) =>
    if namespaceName = "" ∨ reference = "" ∨
        ¬namespaceName.toList.all (fun c => Text.isAsciiLowercase c ∨ c.isDigit) ∨
        ¬reference.toList.all (fun c => Text.isAsciiLowercase c ∨ c.isDigit ∨ c = '-' ∨ c = '_')
    then .error s!"invalid network identifier: {value}"
    else .ok normalized

/-- A record that passes the checks, with what is computed from it. -/
structure CheckedRecord where
  record : EntityLabelCsvRow
  address : String
  evidenceRefs : List String
  entityType : String
  entityId : String
  addressRole : String
  reviewStatus : String

section
variable (config : AppConfig) (options : EntityLabelImportOptions)

def checkRecord (index : Nat) (record : EntityLabelCsvRow) : Except String CheckedRecord := do
  let address ← Checks.context (config.parseEvm record.address)
    s!"invalid address on CSV row {index + 2}"
  Checks.ensure (Text.trim record.entityName ≠ "") s!"entity_name is required on CSV row {index + 2}"
  Checks.ensure (Text.trim record.entityType ≠ "") s!"entity_type is required on CSV row {index + 2}"
  Checks.ensure (Text.trim record.sourceRecordId ≠ "")
    s!"source_record_id is required on CSV row {index + 2}"
  Checks.ensure (record.confidence.any fun confidence => 0 ≤ confidence ∧ confidence ≤ 1)
    s!"confidence must be between 0 and 1 on CSV row {index + 2}"
  Checks.ensure (record.riskLevel ≤ 100)
    s!"risk_level must be between 0 and 100 on CSV row {index + 2}"
  Checks.ensure (record.isExposureSeed → 0 < record.riskLevel)
    s!"an exposure seed must have risk_level greater than 0 on CSV row {index + 2}"
  Checks.ensure (record.isExposureSeed → Text.trim record.seedCategory ≠ "")
    s!"seed_category is required for an exposure seed on CSV row {index + 2}"
  let evidenceRefs := ((Text.split '|' record.evidenceRefs).map Text.trim).filter (· ≠ "")
  Checks.ensure (evidenceRefs ≠ [])
    s!"evidence_refs must contain at least one reference on CSV row {index + 2}"
  let entityType := (Text.trim record.entityType).toLower
  let entityId := if Text.trim record.entityId = "" then
    s!"eth:{slug entityType}:{slug (Text.trim record.entityName)}" else Text.trim record.entityId
  let addressRole ← normalizeRole record.addressRole
  let reviewStatus ← normalizeReviewStatus record.reviewStatus
  Checks.ensure (reviewStatus ≠ "PENDING" → Text.trim record.reviewedBy ≠ "")
    s!"reviewed_by is required for {reviewStatus} row {index + 2}"
  pure ⟨record, address, evidenceRefs, entityType, entityId, addressRole, reviewStatus⟩

def labelId (checked : CheckedRecord) : String :=
  stableId config "eth_label" [config.ethNetworkId, checked.address, checked.entityId,
    checked.addressRole, options.source.sourceId, Text.trim checked.record.sourceRecordId]

def labelRow (checked : CheckedRecord) (createdAtUnixMs : Nat) : EntityLabelRow where
  labelId := labelId config options checked
  networkId := config.ethNetworkId
  address := checked.address
  entityId := checked.entityId
  entityName := Text.trim checked.record.entityName
  entityType := checked.entityType
  addressRole := checked.addressRole
  confidence := checked.record.confidence
  riskLevel := checked.record.riskLevel
  isExposureSeed := checked.record.isExposureSeed.toNat
  seedCategory := (Text.trim checked.record.seedCategory).toUpper
  sourceId := options.source.sourceId
  sourceRecordId := Text.trim checked.record.sourceRecordId
  supersedesLabelId := Text.trim checked.record.supersedesLabelId
  submittedBy := Text.trim options.submittedBy
  caseId := Text.trim checked.record.caseId
  evidenceRefs := checked.evidenceRefs
  reviewStatus := checked.reviewStatus
  createdAtUnixMs := createdAtUnixMs

def reviewRow (label : String) (decision reviewer reason : String) (evidenceRefs : List String)
    (createdAtUnixMs : Nat) : IntelligenceReviewRow where
  reviewId := stableId config "eth_review" [label, decision, Text.trim reviewer, createdAtUnixMs.repr]
  networkId := config.ethNetworkId
  subjectType := "ENTITY_LABEL"
  subjectId := label
  decision := decision
  reviewer := Text.trim reviewer
  reason := Text.trim reason
  evidenceRefs := evidenceRefs
  createdAtUnixMs := createdAtUnixMs

def insertReview (label decision : String) (checked : CheckedRecord) (createdAtUnixMs : Nat) :
    Work String := do
  let row := reviewRow config label decision checked.record.reviewedBy checked.record.reviewReason
    checked.evidenceRefs createdAtUnixMs
  write (.intelligenceReviews row)
  pure row.reviewId

def entityRow (label reviewId : String) (checked : CheckedRecord) (createdAtUnixMs : Nat) :
    AddressEntityRow where
  networkId := config.ethNetworkId
  address := checked.address
  entityId := checked.entityId
  entityName := Text.trim checked.record.entityName
  entityType := checked.entityType
  addressRole := checked.addressRole
  confidence := checked.record.confidence
  riskLevel := checked.record.riskLevel
  isExposureSeed := checked.record.isExposureSeed.toNat
  seedCategory := (Text.trim checked.record.seedCategory).toUpper
  sourceLabelId := label
  reviewId := reviewId
  isActive := 1
  createdAtUnixMs := createdAtUnixMs

/-- The review of a record and its projection. -/
def projectRecord (checked : CheckedRecord) (createdAtUnixMs : Nat)
    (report : EntityLabelImportReport) : Work EntityLabelImportReport := do
  let label := labelId config options checked
  if checked.reviewStatus = "APPROVED" then
    let reviewId ← insertReview config label "APPROVED" checked createdAtUnixMs
    write (.addressEntities (entityRow config label reviewId checked createdAtUnixMs))
    pure { report with approved := report.approved + 1 }
  else if checked.reviewStatus = "REJECTED" then
    let _ ← insertReview config label "REJECTED" checked createdAtUnixMs
    pure { report with rejected := report.rejected + 1 }
  else pure { report with pending := report.pending + 1 }

/-- A record of the file with the clock when it is imported. -/
abbrev Record := Except String EntityLabelCsvRow × Except String Nat

def importRecords : Nat → List Record → EntityLabelImportReport → Work EntityLabelImportReport
  | _, [], report => pure report
  | index, (record, clock) :: rest, report => do
    let record ← lift (record.mapError fun _ => s!"invalid CSV row {index + 2}")
    let checked ← lift (checkRecord config index record)
    let createdAtUnixMs ← lift clock
    write (.entityLabels (labelRow config options checked createdAtUnixMs))
    let report ← projectRecord config options checked createdAtUnixMs
      { report with submitted := report.submitted + 1 }
    importRecords (index + 1) rest report

def importEntityLabelsCsv (clock : Except String Nat) (file : Except String (List Record)) :
    Work EntityLabelImportReport := do
  lift (validateSource options.source)
  ensure (Text.trim options.submittedBy ≠ "") "submitted_by must not be empty"
  let now ← lift clock
  write (.intelligenceSources
    { networkId := config.ethNetworkId
      sourceId := options.source.sourceId
      sourceName := Text.trim options.source.sourceName
      sourceType := (Text.trim options.source.sourceType).toUpper
      trustTier := (Text.trim options.source.trustTier).toUpper
      referenceUrl := Text.trim options.source.referenceUrl
      isActive := 1
      createdBy := Text.trim options.source.createdBy
      createdAtUnixMs := now })
  let _ ← lift (networkId config.ethNetworkId)
  let records ← lift file
  importRecords config options 0 records ⟨options.source.sourceId, 0, 0, 0, 0⟩

end

/-! ## Runs -/

/-- The decision of the last review of a label. -/
def latestDecision (db : Database) (label : String) : Option String :=
  (db.intelligenceReviews.filter fun row => row.subjectId = label).getLast?.map
    IntelligenceReviewRow.decision

/-- Databases after imports of any files, each stopped after any insert; every
insert is allowed where it comes. -/
inductive Reachable (config : AppConfig) (allowed : Database → Insert → Prop) : Database → Prop
  | empty : Reachable config allowed .empty
  | import {db : Database} {options : EntityLabelImportOptions} {clock : Except String Nat}
      {file : Except String (List Record)} {ws : List Insert} : Reachable config allowed db →
      Writes (importEntityLabelsCsv config options clock file) db ws → AllowedAlong allowed db ws →
        Reachable config allowed (replay db ws)

/-- No label is rejected that an active row names. -/
def Harmless (db : Database) : Insert → Prop
  | .intelligenceReviews row => row.decision = "REJECTED" →
      ∀ entity ∈ addressEntitiesActive db, entity.sourceLabelId ≠ row.subjectId
  | _ => True

def Reviewed (db : Database) : Prop :=
  ∀ entity ∈ addressEntitiesActive db, latestDecision db entity.sourceLabelId = some "APPROVED"

section
variable {config : AppConfig} {db : Database}

theorem latestDecision_review (row : IntelligenceReviewRow) (label : String) :
    latestDecision (LogStore.append db (.intelligenceReviews row)) label =
      if row.subjectId = label then some row.decision else latestDecision db label := by
  show (((db.intelligenceReviews ++ [row]).filter fun row => row.subjectId = label).getLast?.map
    IntelligenceReviewRow.decision) = _
  by_cases hlabel : row.subjectId = label
  · simp [List.filter_append, hlabel]
  · simp [List.filter_append, hlabel, latestDecision]

/-- A review keeps the others' decisions, and so the rows that name other labels. -/
theorem reviewed_review {row : IntelligenceReviewRow} (h : Reviewed db)
    (hrow : ∀ entity ∈ addressEntitiesActive db, entity.sourceLabelId = row.subjectId →
      row.decision = "APPROVED") : Reviewed (LogStore.append db (.intelligenceReviews row)) := by
  intro entity hentity
  rw [latestDecision_review]
  by_cases hlabel : row.subjectId = entity.sourceLabelId
  · rw [if_pos hlabel, hrow entity hentity hlabel.symm]
  · rw [if_neg hlabel]
    exact h entity hentity

theorem reviewed_entity {row : AddressEntityRow} (h : Reviewed db)
    (hrow : latestDecision db row.sourceLabelId = some "APPROVED") :
    Reviewed (LogStore.append db (.addressEntities row)) := by
  intro entity hentity
  obtain ⟨hmem, hactive⟩ := List.mem_filter.mp hentity
  rcases mem_newest_concat.mp hmem with rfl | ⟨hold, _⟩
  · exact hrow
  · exact h entity (List.mem_filter.mpr ⟨hold, hactive⟩)

/-- What the import keeps when nothing else is inserted meanwhile. -/
abbrev KeepsReviewed {α : Type} (p : Work α) (db : Database) : Prop :=
  Under Eq Reviewed Harmless (fun db w => Reviewed (LogStore.append db w)) (fun _ _ => True) p db

/-- A review with what follows it. -/
theorem keeps_insertReview {α : Type} {label decision : String} {checked : CheckedRecord}
    {createdAtUnixMs : Nat} {f : String → Work α}
    (hdecision : decision = "APPROVED" ∨ decision = "REJECTED")
    (h : ∀ t, latestDecision t label = some decision → ∀ reviewId, KeepsReviewed (f reviewId) t) :
    KeepsReviewed (insertReview config label decision checked createdAtUnixMs >>= f) db := by
  intro t _ hreviewed hallowed
  refine ⟨reviewed_review hreviewed fun entity hentity hlabel => ?_, h _ ?_ _⟩
  · rcases hdecision with rfl | rfl
    · rfl
    · exact absurd hlabel (hallowed rfl entity hentity)
  · rw [latestDecision_review]
    exact if_pos rfl

theorem keeps_projectRecord (options : EntityLabelImportOptions) (checked : CheckedRecord)
    (createdAtUnixMs : Nat) (report : EntityLabelImportReport) :
    KeepsReviewed (projectRecord config options checked createdAtUnixMs report) db := by
  unfold projectRecord
  by_cases happroved : checked.reviewStatus = "APPROVED"
  · rw [if_pos happroved]
    refine keeps_insertReview (Or.inl rfl) fun t hlatest reviewId => ?_
    refine under_write fun u hu hreviewed _ => ⟨reviewed_entity hreviewed ?_, trivial⟩
    subst hu
    exact hlatest
  · rw [if_neg happroved]
    by_cases hrejected : checked.reviewStatus = "REJECTED"
    · rw [if_pos hrejected]
      exact keeps_insertReview (Or.inr rfl) fun _ _ _ => under_pure trivial
    · rw [if_neg hrejected]
      exact under_pure trivial

theorem keeps_importRecords (options : EntityLabelImportOptions) (records : List Record) (index : Nat)
    (report : EntityLabelImportReport) :
    KeepsReviewed (importRecords config options index records report) db := by
  induction records generalizing index report db with
  | nil => exact under_pure trivial
  | cons entry rest ih =>
    obtain ⟨record, clock⟩ := entry
    refine under_lift fun record _ => under_lift fun checked _ => under_lift fun createdAtUnixMs _ => ?_
    refine under_write fun t _ hreviewed _ => ⟨hreviewed, ?_⟩
    exact (keeps_projectRecord options checked createdAtUnixMs _).weaken
      (fun report u _ => ih (index + 1) report) |>.bind

theorem keeps_import (options : EntityLabelImportOptions) (clock : Except String Nat)
    (file : Except String (List Record)) :
    KeepsReviewed (importEntityLabelsCsv config options clock file) db := by
  refine under_lift fun _ _ => under_ensure fun _ => under_lift fun now _ => ?_
  refine under_write fun t _ hreviewed _ => ⟨hreviewed, ?_⟩
  exact under_lift fun _ _ => under_lift fun records _ => keeps_importRecords options records 0 _

/-- As long as no label is rejected that an active row names, every active row
names an approved label, and with it every seed and every service boundary. -/
theorem active_labels_approved (h : Reachable config Harmless db) :
    Reviewed db ∧ (∀ entity ∈ serviceBoundaryAddresses db,
      latestDecision db entity.sourceLabelId = some "APPROVED") ∧
    ∀ networkId, ∀ entity ∈ exposureSeeds db networkId,
      latestDecision db entity.sourceLabelId = some "APPROVED" := by
  have hreviewed : Reviewed db := by
    induction h with
    | empty =>
      intro entity hentity
      cases hentity
    | «import» _ hwrites hallowed ih =>
      exact (keeps_import _ _ _).invariant (fun _ => rfl) ih hwrites hallowed
  exact ⟨hreviewed, fun entity hentity => hreviewed entity (List.mem_of_mem_filter hentity),
    fun _ entity hentity => hreviewed entity (List.mem_of_mem_filter hentity)⟩

end

/-! ## A label that is approved and then rejected -/

def sampleConfig : AppConfig := ⟨"eip155:1", fun input => input, some⟩

def sampleOptions : EntityLabelImportOptions :=
  ⟨⟨"desk", "Desk", "ANALYST", "HIGH", "", "analyst"⟩, "analyst"⟩

def sampleRecord (reviewStatus : String) : EntityLabelCsvRow where
  address := "0xa"
  entityId := "entity"
  entityName := "Mixer"
  entityType := "mixer"
  addressRole := "MIXER"
  confidence := some 1
  riskLevel := 90
  isExposureSeed := true
  seedCategory := "mixer"
  sourceRecordId := "1"
  supersedesLabelId := ""
  caseId := ""
  evidenceRefs := "case-1"
  reviewStatus := reviewStatus
  reviewedBy := "lead"
  reviewReason := ""

def sampleImport (reviewStatus : String) : Work EntityLabelImportReport :=
  importEntityLabelsCsv sampleConfig sampleOptions (.ok 1)
    (.ok [(.ok (sampleRecord reviewStatus), .ok 1)])

def sampleInserts (reviewStatus : String) (db : Database) : List Insert :=
  ((sampleImport reviewStatus).exec db).1

def approvedDatabase : Database := replay Database.empty (sampleInserts "APPROVED" Database.empty)

def rejectedDatabase : Database := replay approvedDatabase (sampleInserts "REJECTED" approvedDatabase)

def Insert.rejects : Insert → Bool
  | .intelligenceReviews row => row.decision = "REJECTED"
  | _ => false

theorem harmless_of_not_rejects {db : Database} {w : Insert} (h : w.rejects = false) :
    Harmless db w := by
  cases w with
  | intelligenceReviews row => exact fun hrejected => absurd hrejected (of_decide_eq_false h)
  | _ => trivial

/-- A label on its own is shown. -/
theorem sample_approved : (exposureSeeds approvedDatabase "eip155:1").length = 1 ∧
    Reviewed approvedDatabase := by
  have hwrites : Writes (sampleImport "APPROVED") Database.empty
      (sampleInserts "APPROVED" Database.empty) := List.prefix_refl _
  have hnone : ∀ w ∈ sampleInserts "APPROVED" Database.empty, w.rejects = false := by decide +kernel
  have hreach : Reachable sampleConfig Harmless approvedDatabase :=
    Reachable.empty.import hwrites
      (allowedAlong_of_forall (fun w hw _ => harmless_of_not_rejects (hnone w hw)) _)
  exact ⟨by decide +kernel, (active_labels_approved hreach).1⟩

/-- After its rejection the label still makes its address a seed. -/
theorem rejected_label_stays : ¬∀ config db, Reachable config (fun _ _ => True) db → Reviewed db := by
  intro h
  have happroved : Writes (sampleImport "APPROVED") Database.empty
      (sampleInserts "APPROVED" Database.empty) := List.prefix_refl _
  have hrejected : Writes (sampleImport "REJECTED") approvedDatabase
      (sampleInserts "REJECTED" approvedDatabase) := List.prefix_refl _
  have hreach : Reachable sampleConfig (fun _ _ => True) rejectedDatabase :=
    (Reachable.empty.import happroved (allowedAlong_of_forall (fun _ _ _ => trivial) _)).import
      hrejected (allowedAlong_of_forall (fun _ _ _ => trivial) _)
  have hdecision : ∃ entity ∈ addressEntitiesActive rejectedDatabase,
      latestDecision rejectedDatabase entity.sourceLabelId = some "REJECTED" := by decide +kernel
  obtain ⟨entity, hentity, hlatest⟩ := hdecision
  have happrovedLatest := h sampleConfig _ hreach entity hentity
  rw [hlatest] at happrovedLatest
  exact absurd happrovedLatest (by decide)

end AmlReal.Ethereum.EntityLabels
