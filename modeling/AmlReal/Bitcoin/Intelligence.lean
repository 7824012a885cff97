import Mathlib.Data.List.Sort
import AmlReal.Foundations.Floats
import AmlReal.Foundations.LatestRows
import AmlReal.Foundations.StoreProgram
import AmlReal.Warehouse.Values

/-! # Reviewed address attribution

`intelligence/mod.rs`: sources are registered, claims imported as pending, and a
separate review publishes a claim. A review is two inserts, the review and then
the claim; both tables are read by latest revision. One process at a time holds
the intelligence lock, so operations run one after another. The address and URL
parsers and the digest belong to libraries and are parameters. -/

namespace AmlReal.Bitcoin.Intelligence
open AmlReal.Foundations.Floats AmlReal.Foundations.Json AmlReal.Foundations.LatestRows
open AmlReal.Foundations.StoreProgram AmlReal.Foundations.StoreProgram.Program
open AmlReal.Foundations.Checks (context)
open AmlReal.Warehouse.Values

def limit : Nat := 100

/-! ## Requests -/

structure Source where
  networkId : String
  sourceId : String
  sourceName : String
  sourceType : String
  referenceUrl : String
  trustTier : String
  license : String
  isActive : Bool
  createdBy : String
  expectedRevision : Option String

structure Claim where
  networkId : String
  claimId : String
  address : String
  entityId : String
  entityName : String
  entityType : String
  addressRole : String
  confidence : ℚ
  riskLevel : Nat
  isExposureSeed : Bool
  seedCategory : String
  sourceId : String
  sourceReference : String
  evidenceRefs : List String
  submittedBy : String
  validFromUnixMs : Option Nat
  validToUnixMs : Option Nat
  caseId : Option String
  expectedRevision : Option String

structure Review where
  networkId : String
  claimId : String
  expectedRevision : String
  decision : String
  reviewedBy : String
  reason : String
  evidenceRefs : List String

/-- The parts of a parsed URL that are looked at. -/
structure Url where
  scheme : String
  host : Option String
  username : String
  password : Option String

structure Parsers where
  address : String → Except String String
  url : String → Except String Url

section
open AmlReal.Foundations.Checks (ensure)

def text (value : String) (max : Nat) : Except String Unit :=
  ensure (!blank value ∧ value.utf8ByteSize ≤ max ∧ value.toList.all (!isControl ·))
    "invalid empty, oversized or control-containing field"

/-- `id` -/
def identifier (value : String) : Except String Unit := do
  text value 128
  ensure (value.toList.all fun c => c.isAlphanum || c ∈ ['_', '.', ':', '-'])
    "invalid intelligence identifier"

def network (value : String) : Except String Unit :=
  ensure (value = Network.bitcoin.id) "intelligence belongs to another network"

def refs (value : List String) : Except String Unit := do
  ensure (value ≠ [] ∧ value.length ≤ 50) "1..50 evidence references required"
  value.forM fun item => do
    text item 2000
    evidenceRef .bitcoin item

/-- The revision that a request supplies is the one of the current row. -/
def expected (previous : Option Nat) (supplied : Option String) : Except String Unit :=
  match previous with
  | some revision => ensure (supplied = some revision.repr)
      "current revision changed; inspect and supply expected_revision"
  | none => ensure (supplied = none) "expected_revision supplied for an absent record"

def Source.validate (parsers : Parsers) (source : Source) : Except String Unit := do
  network source.networkId
  identifier source.sourceId
  [source.sourceName, source.sourceType, source.referenceUrl, source.trustTier, source.license,
    source.createdBy].forM (text · 2000)
  let url ← parsers.url source.referenceUrl
  ensure (url.scheme ∈ ["https", "http"] ∧ url.host.isSome ∧ url.username = "" ∧
    url.password = none) "source reference must be credential-free HTTP(S)"

/-- The category of a claim may be empty. -/
def category (value : String) : Except String Unit :=
  if value = "" then .ok () else text value 128

/-- The claim with its address in canonical spelling and a start of validity. -/
def Claim.validate (parsers : Parsers) (now : Nat) (claim : Claim) : Except String Claim := do
  network claim.networkId
  identifier claim.claimId
  identifier claim.sourceId
  identifier claim.entityId
  let address ← parsers.address claim.address
  [claim.entityName, claim.entityType, claim.addressRole, claim.sourceReference,
    claim.submittedBy].forM (text · 2000)
  refs claim.evidenceRefs
  ensure (0 ≤ claim.confidence ∧ claim.confidence ≤ 1 ∧ claim.riskLevel ≤ 100)
    "invalid confidence or risk designation"
  ensure (claim.isExposureSeed = false ∨ (claim.riskLevel > 0 ∧ !blank claim.seedCategory))
    "risk seed requires explicit risk level and category"
  category claim.seedCategory
  claim.caseId.elim (pure ()) (text · 128)
  let start := claim.validFromUnixMs.getD now
  ensure (claim.validToUnixMs.all fun until' => until' > start) "invalid claim validity interval"
  pure { claim with address, validFromUnixMs := some start }

def Review.validate (decision : Review) : Except String Unit := do
  network decision.networkId
  identifier decision.claimId
  ensure (decision.decision ∈ ["approved", "rejected", "revoked"]) "invalid review decision"
  text decision.reviewedBy 256
  text decision.reason 4000
  refs decision.evidenceRefs
  let revision ← context (parseU64 decision.expectedRevision) "invalid digit found in string"
  ensure (revision > 0) "invalid expected_revision"

end

/-! ## Tables -/

structure SourceRow where
  networkId : String
  sourceId : String
  sourceName : String
  sourceType : String
  referenceUrl : String
  trustTier : String
  license : String
  isActive : Nat
  createdBy : String
  revision : Nat
  createdAtUnixMs : Nat
  updatedAtUnixMs : Option Nat
  deriving DecidableEq

structure ClaimRow where
  networkId : String
  claimId : String
  address : String
  claimKind : String
  entityId : String
  entityName : String
  entityType : String
  addressRole : String
  confidence : ℚ
  riskLevel : Nat
  isExposureSeed : Nat
  seedCategory : String
  sourceId : String
  sourceReference : String
  evidenceRefs : List String
  reviewStatus : String
  reviewedBy : String
  reviewNote : String
  validFromUnixMs : Nat
  validToUnixMs : Option Nat
  revision : Nat
  createdAtUnixMs : Nat
  submittedBy : Option String
  caseId : Option String
  reviewedAtUnixMs : Option Nat
  deriving DecidableEq

structure ReviewRow where
  networkId : String
  reviewId : String
  subjectType : String
  subjectId : String
  decision : String
  reviewedBy : String
  reason : String
  evidenceRefs : List String
  revision : Nat
  createdAtUnixMs : Nat
  subjectRevision : Option Nat
  caseId : Option String
  deriving DecidableEq

structure Store where
  identity : String
  sources : List SourceRow
  claims : List ClaimRow
  reviews : List ReviewRow

inductive Insert where
  | sources (rows : List SourceRow)
  | claims (rows : List ClaimRow)
  | reviews (rows : List ReviewRow)
  deriving DecidableEq

instance : LogStore Store Insert where
  append db
    | .sources rows => { db with sources := db.sources ++ rows }
    | .claims rows => { db with claims := db.claims ++ rows }
    | .reviews rows => { db with reviews := db.reviews ++ rows }

abbrev Writer := Program Store Insert String

def Store.empty (identity : String) : Store := ⟨identity, [], [], []⟩

/-- `aml_intelligence_sources_current` -/
def sourcesCurrent (db : Store) : List SourceRow :=
  latest (fun s => (s.networkId, s.sourceId)) SourceRow.revision db.sources

/-- `aml_intelligence_claims_current` -/
def claimsCurrent (db : Store) : List ClaimRow :=
  latest (fun c => (c.networkId, c.claimId)) ClaimRow.revision db.claims

/-- `aml_intelligence_reviews_current` -/
def reviewsCurrent (db : Store) : List ReviewRow :=
  latest (fun r => (r.networkId, r.reviewId)) ReviewRow.revision db.reviews

/-! ## Column rules -/

section
open AmlReal.Foundations.Checks (ensure)

/-- The rules of the columns that all three tables have. -/
def validateKey (networkId id : String) (revision : Nat) : Except String Unit := do
  ensure (networkId ∈ [Network.tron, .ethereum, .bsc, .bitcoin].map Network.id) "unknown network"
  ensure (id ≠ "") "identifier must not be empty"
  ensure (revision > 0) "revision must be positive"

def validateSourceRow (row : SourceRow) : Except String Unit := do
  validateKey row.networkId row.sourceId row.revision
  ensure (row.isActive ≤ 1) "boolean out of range"

def validateClaimRow (row : ClaimRow) : Except String Unit := do
  validateKey row.networkId row.claimId row.revision
  ensure (0 ≤ row.confidence ∧ row.confidence ≤ 1) "score/ratio out of range"
  ensure (row.isExposureSeed ≤ 1) "boolean out of range"
  row.evidenceRefs.forM (evidenceRef .bitcoin)
  ensure (row.reviewStatus ∈ ["pending", "approved", "rejected", "revoked"]) "unknown enum state"
  ensure (row.reviewStatus = "pending" ∨ row.reviewedBy ≠ "") "review actor missing"

def validateReviewRow (row : ReviewRow) : Except String Unit := do
  validateKey row.networkId row.reviewId row.revision
  ensure (row.decision ∈ ["approved", "rejected", "revoked"]) "unknown enum state"
  ensure (row.reviewedBy ≠ "") "identifier must not be empty"
  row.evidenceRefs.forM (evidenceRef .bitcoin)

end

/-! ## Access to the store -/

/-- `revision` of the union of the three tables. -/
def maxRevision (db : Store) : Nat :=
  let sources := (db.sources.filter fun s => s.networkId = Network.bitcoin.id).map (·.revision)
  let claims := (db.claims.filter fun c => c.networkId = Network.bitcoin.id).map (·.revision)
  let reviews := (db.reviews.filter fun r => r.networkId = Network.bitcoin.id).map (·.revision)
  (sources ++ claims ++ reviews).foldr max 0

def next (timestamp : Nat) : Writer Nat := do
  let revision ← read maxRevision
  let next ← lift (context (checkedAdd revision 1) "intelligence revision exhausted")
  pure (max next timestamp)

/-- `analytics::insert` -/
def insert {ρ : Type} (validateRow : ρ → Except String Unit) (networkId : ρ → String)
    (chunk : List ρ → Insert) (rows : List ρ) : Writer Unit := do
  lift (rows.forM validateRow)
  let identity ← read Store.identity
  ensure (∀ row ∈ rows, networkId row = identity) "warehouse insert belongs to another network"
  (chunks 1000 rows).forM fun rows => write (chunk rows)

def insertSources : List SourceRow → Writer Unit :=
  insert validateSourceRow SourceRow.networkId .sources

def insertClaims : List ClaimRow → Writer Unit :=
  insert validateClaimRow ClaimRow.networkId .claims

def insertReviews : List ReviewRow → Writer Unit :=
  insert validateReviewRow ReviewRow.networkId .reviews

/-- `current`: the one row of a key, of at most two that the query returns. -/
def current {ρ : Type} (view : Store → List ρ) (matching : ρ → Bool) : Writer (Option ρ) := do
  let rows ← read fun db => ((view db).filter matching).take 2
  ensure (rows.length ≤ 1) "ambiguous current intelligence record"
  pure rows.head?

def currentSource (id : String) : Writer (Option SourceRow) :=
  current sourcesCurrent fun s => s.networkId = Network.bitcoin.id ∧ s.sourceId = id

def currentClaim (id : String) : Writer (Option ClaimRow) :=
  current claimsCurrent fun c => c.networkId = Network.bitcoin.id ∧ c.claimId = id

/-! ## Operations

`clock i` is the reading of the clock that an operation takes as its `i`-th. -/

def Source.row (source : Source) (old : Option SourceRow) (revision now : Nat) : SourceRow where
  networkId := source.networkId
  sourceId := source.sourceId
  sourceName := source.sourceName
  sourceType := source.sourceType
  referenceUrl := source.referenceUrl
  trustTier := source.trustTier
  license := source.license
  isActive := source.isActive.toNat
  createdBy := (old.map (·.createdBy)).getD source.createdBy
  revision := revision
  createdAtUnixMs := (old.map (·.createdAtUnixMs)).getD now
  updatedAtUnixMs := some now

def register (parsers : Parsers) (source : Source) (dryRun : Bool) (clock : Nat → Nat) :
    Writer Value := do
  lift (source.validate parsers)
  let old ← currentSource source.sourceId
  lift (expected (old.map (·.revision)) source.expectedRevision)
  let revision ← next (clock 0)
  let row := source.row old revision (clock 1)
  lift (validateSourceRow row)
  when (dryRun = false) (insertSources [row])
  pure (.object [("source_id", .string source.sourceId), ("revision", .string revision.repr),
    ("written", .bool !dryRun)])

/-- The claims of a request, validated in order and without a repeated id. -/
def checkClaims (parsers : Parsers) (now : Nat) : List String → List Claim →
    Except String (List Claim)
  | _, [] => .ok []
  | ids, claim :: rest => do
    let claim ← claim.validate parsers now
    AmlReal.Foundations.Checks.ensure (claim.claimId ∉ ids) "duplicate claim id in import"
    let rest ← checkClaims parsers now (claim.claimId :: ids) rest
    pure (claim :: rest)

def Claim.row (claim : Claim) (old : Option ClaimRow) (revision now : Nat) : ClaimRow where
  networkId := claim.networkId
  claimId := claim.claimId
  address := claim.address
  claimKind := "label"
  entityId := claim.entityId
  entityName := claim.entityName
  entityType := claim.entityType
  addressRole := claim.addressRole
  confidence := claim.confidence
  riskLevel := claim.riskLevel
  isExposureSeed := claim.isExposureSeed.toNat
  seedCategory := claim.seedCategory
  sourceId := claim.sourceId
  sourceReference := claim.sourceReference
  evidenceRefs := claim.evidenceRefs
  reviewStatus := "pending"
  reviewedBy := ""
  reviewNote := ""
  validFromUnixMs := claim.validFromUnixMs.getD now
  validToUnixMs := claim.validToUnixMs
  revision := revision
  createdAtUnixMs := (old.map (·.createdAtUnixMs)).getD now
  submittedBy := some claim.submittedBy
  caseId := claim.caseId
  reviewedAtUnixMs := none

/-- The rows of an import, at consecutive revisions. -/
def pendingRows (now : Nat) : Nat → List Claim → Writer (List ClaimRow)
  | _, [] => pure []
  | revision, claim :: rest => do
    let source ← currentSource claim.sourceId
    let source ← lift (context source "register the intelligence source before import")
    ensure (source.isActive = 1) "source is inactive"
    let old ← currentClaim claim.claimId
    lift (expected (old.map (·.revision)) claim.expectedRevision)
    let row := claim.row old revision now
    lift (validateClaimRow row)
    let following ← lift (context (checkedAdd revision 1) "intelligence revision exhausted")
    let rows ← pendingRows now following rest
    pure (row :: rows)

/-- `import` -/
def importClaims (parsers : Parsers) (claims : List Claim) (dryRun : Bool) (clock : Nat → Nat) :
    Writer Value := do
  ensure (claims ≠ [] ∧ claims.length ≤ limit) "import requires 1..100 claims"
  let claims ← lift (checkClaims parsers (clock 0) [] claims)
  let revision ← next (clock 1)
  let rows ← pendingRows (clock 0) revision claims
  when (dryRun = false) (insertClaims rows)
  pure (.object [("written", .bool !dryRun), ("claims", .array (rows.map fun row => .object [
    ("claim_id", .string row.claimId), ("revision", .string row.revision.repr),
    ("review_status", .string "pending")]))])

/-- What a review asks of the source and the validity of a claim that it approves. -/
def checkApproval (claim : ClaimRow) (source : Option SourceRow) (timestamp : Nat) :
    Except String Unit := do
  let source ← context source "source not found"
  AmlReal.Foundations.Checks.ensure (source.isActive = 1) "cannot approve an inactive source"
  AmlReal.Foundations.Checks.ensure (claim.validToUnixMs.all fun end' => end' > timestamp)
    "claim is expired"

def Review.row (decision : Review) (claim : ClaimRow) (revision now : Nat) : ReviewRow where
  networkId := Network.bitcoin.id
  reviewId := "review-" ++ revision.repr
  subjectType := "intelligence_claim"
  subjectId := decision.claimId
  decision := decision.decision
  reviewedBy := decision.reviewedBy
  reason := decision.reason
  evidenceRefs := decision.evidenceRefs
  revision := revision
  createdAtUnixMs := now
  subjectRevision := some revision
  caseId := claim.caseId

def Review.apply (decision : Review) (claim : ClaimRow) (revision now : Nat) : ClaimRow :=
  { claim with
    reviewStatus := decision.decision
    reviewedBy := decision.reviewedBy
    reviewNote := decision.reason
    reviewedAtUnixMs := some now
    revision := revision }

def review (decision : Review) (dryRun : Bool) (clock : Nat → Nat) : Writer Value := do
  lift decision.validate
  let claim ← currentClaim decision.claimId
  let claim ← lift (context claim "claim not found")
  lift (expected (some claim.revision) (some decision.expectedRevision))
  let source ← currentSource claim.sourceId
  lift (if decision.decision = "approved" then checkApproval claim source (clock 0) else .ok ())
  let revision ← next (clock 1)
  let row := decision.row claim revision (clock 2)
  let claim := decision.apply claim revision (clock 2)
  lift (validateReviewRow row)
  lift (validateClaimRow claim)
  when (dryRun = false) do
    insertReviews [row]
    insertClaims [claim]
  pure (.object [("claim_id", .string decision.claimId), ("review_id", .string row.reviewId),
    ("revision", .string revision.repr), ("review_status", .string decision.decision),
    ("written", .bool !dryRun)])

inductive Operation where
  | register (source : Source) (dryRun : Bool) (clock : Nat → Nat)
  | importClaims (claims : List Claim) (dryRun : Bool) (clock : Nat → Nat)
  | review (decision : Review) (dryRun : Bool) (clock : Nat → Nat)

def Operation.program (parsers : Parsers) : Operation → Writer Value
  | .register source dryRun clock => Intelligence.register parsers source dryRun clock
  | .importClaims claims dryRun clock => Intelligence.importClaims parsers claims dryRun clock
  | .review decision dryRun clock => Intelligence.review decision dryRun clock

/-! ## Reports -/

def active (claim : ClaimRow) (source : Option SourceRow) (review : Option ReviewRow)
    (now : Nat) : Bool :=
  match source, review with
  | some source, some review =>
    claim.reviewStatus = "approved" ∧ claim.claimKind = "label" ∧ source.isActive = 1 ∧
    review.decision = "approved" ∧ review.subjectRevision = some claim.revision ∧
    review.reviewedBy = claim.reviewedBy ∧ !blank claim.reviewedBy ∧ claim.evidenceRefs ≠ [] ∧
    claim.validFromUnixMs ≤ now ∧ claim.validToUnixMs.all (· > now)
  | _, _ => false

def optional {α : Type} (toValue : α → Value) (value : Option α) : Value :=
  value.elim .null toValue

/-- The columns that stay public; copies of a whole record in JSON are left out. -/
def ClaimRow.public (F : FloatOps) (claim : ClaimRow) : Value := .object [
  ("network_id", .string claim.networkId), ("claim_id", .string claim.claimId),
  ("address", .string claim.address), ("claim_kind", .string claim.claimKind),
  ("entity_id", .string claim.entityId), ("entity_name", .string claim.entityName),
  ("entity_type", .string claim.entityType), ("address_role", .string claim.addressRole),
  ("confidence", float F claim.confidence), ("risk_level", .ofNat claim.riskLevel),
  ("is_exposure_seed", .ofNat claim.isExposureSeed),
  ("seed_category", .string claim.seedCategory), ("source_id", .string claim.sourceId),
  ("source_reference", .string claim.sourceReference),
  ("evidence_refs", .array (claim.evidenceRefs.map .string)),
  ("review_status", .string claim.reviewStatus), ("reviewed_by", .string claim.reviewedBy),
  ("review_note", .string claim.reviewNote), ("valid_from_unix_ms", .ofNat claim.validFromUnixMs),
  ("valid_to_unix_ms", optional .ofNat claim.validToUnixMs),
  ("revision", .string claim.revision.repr), ("created_at_unix_ms", .ofNat claim.createdAtUnixMs),
  ("source_record_id", .null), ("supersedes_claim_id", .null),
  ("submitted_by", optional .string claim.submittedBy),
  ("case_id", optional .string claim.caseId),
  ("reviewed_at_unix_ms", optional .ofNat claim.reviewedAtUnixMs)]

def SourceRow.public (source : SourceRow) : Value := .object [
  ("network_id", .string source.networkId), ("source_id", .string source.sourceId),
  ("source_name", .string source.sourceName), ("source_type", .string source.sourceType),
  ("reference_url", .string source.referenceUrl), ("trust_tier", .string source.trustTier),
  ("license", .string source.license), ("is_active", .ofNat source.isActive),
  ("created_by", .string source.createdBy), ("revision", .string source.revision.repr),
  ("created_at_unix_ms", .ofNat source.createdAtUnixMs),
  ("updated_at_unix_ms", optional .ofNat source.updatedAtUnixMs)]

/-- A claim as it is shown, with the verdict on it. -/
def shown (F : FloatOps) (claim : ClaimRow) (enabled : Bool) : Value :=
  ((claim.public F).set "active" (.bool enabled)).set "is_exposure_seed"
    (.bool (claim.isExposureSeed = 1))

structure Attribution where
  snapshot : Value
  entities : List Value
  claims : List Value
  sources : List Value

/-- The row that a map built from the rows holds for a key: the last one. -/
def lookupRow {ρ : Type} (key : ρ → String) (rows : List ρ) (k : String) : Option ρ :=
  (rows.filter fun r => key r = k).getLast?

section
variable (F : FloatOps)
  (digest : String → List ClaimRow → List SourceRow → List ReviewRow → List Value → String)

def enabled (sources : List SourceRow) (reviews : List ReviewRow) (now : Nat) (claim : ClaimRow) :
    Bool :=
  active claim (lookupRow SourceRow.sourceId sources claim.sourceId)
    (lookupRow ReviewRow.subjectId reviews claim.claimId) now

def assemble (address : String) (claims : List ClaimRow) (sources : List SourceRow)
    (reviews : List ReviewRow) (now : Nat) : Attribution :=
  let verdict := enabled sources reviews now
  let entities := (claims.filter fun c => verdict c).map fun c => shown F c true
  { snapshot := .object [
      ("contract", .string "bitcoin_intelligence_v1"), ("network_id", .string Network.bitcoin.id),
      ("address", .string address),
      ("snapshot_id", .string (digest address claims sources reviews entities))]
    entities
    claims := claims.map fun c => shown F c (verdict c)
    sources := sources.map SourceRow.public }

/-! ### `read`: the queries for one address, on a store that does not change between them -/

def claimsOf (address : String) (db : Store) : List ClaimRow :=
  (claimsCurrent db).filter fun c => c.networkId = Network.bitcoin.id ∧ c.address = address

/-- `source_id IN (SELECT source_id ..)` -/
def sourcesOf (address : String) (db : Store) : List SourceRow :=
  (sourcesCurrent db).filter fun s => s.networkId = Network.bitcoin.id ∧
    s.sourceId ∈ (claimsOf address db).map ClaimRow.sourceId

/-- `ORDER BY revision DESC LIMIT 1 BY subject_id` -/
def reviewsOf (address : String) (db : Store) : List ReviewRow :=
  latest ReviewRow.subjectId ReviewRow.revision <| (reviewsCurrent db).filter fun r =>
    r.networkId = Network.bitcoin.id ∧ r.subjectType = "intelligence_claim" ∧
      r.subjectId ∈ (claimsOf address db).map ClaimRow.claimId

/-- `intelligence::read` -/
def readAttribution (parsers : Parsers) (raw : String) (db : Store) (now : Nat) :
    Except String Attribution := do
  let address ← parsers.address raw
  let claims := ((claimsOf address db).insertionSort fun a b => a.claimId ≤ b.claimId).take 101
  AmlReal.Foundations.Checks.ensure (claims.length ≤ limit)
    "address has more than 100 current claims; attribution cannot be truncated silently"
  let sources := ((sourcesOf address db).insertionSort fun a b => a.sourceId ≤ b.sourceId).take 101
  let reviews := ((reviewsOf address db).insertionSort fun a b => b.revision ≤ a.revision).take 101
  AmlReal.Foundations.Checks.ensure (sources.length ≤ limit ∧ reviews.length ≤ limit)
    "attribution dependency limit reached"
  pure (assemble F digest address claims sources reviews now)

end

end AmlReal.Bitcoin.Intelligence
