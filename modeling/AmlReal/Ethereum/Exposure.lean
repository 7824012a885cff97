import Mathlib.Analysis.SpecialFunctions.Log.Basic
import AmlReal.Foundations.Checks
import AmlReal.Foundations.LimitBy

/-! # Exposure propagation on Ethereum

`exposure.rs` over the canonical relationships, the active entities and the
active protocol contracts of one network, in the arithmetic of an ordered field.
The columns that are the same in every row of a run are left out of its paths.
Where a query orders rows that tie, or takes any of several, their order is a
parameter. -/

namespace AmlReal.Ethereum.Exposure
open AmlReal.Foundations AmlReal.Foundations.LimitBy

/-! ## Options -/

structure ExposureOptions (α : Type) where
  maxHops : Nat
  hopDecay : α
  timeHalfLifeDays : α
  maxPathsPerSubject : Nat
  deriving DecidableEq

/-- `exp(-log(2.0) * x)`, the weight of what happened `x` half-lives ago. -/
structure HalfLife (α : Type) [Field α] [LinearOrder α] where
  weight : α → α
  weight_zero : weight 0 = 1
  weight_pos : ∀ x, 0 ≤ x → 0 < weight x
  weight_le : ∀ x, 0 ≤ x → weight x ≤ 1

noncomputable def HalfLife.real : HalfLife ℝ where
  weight x := Real.exp (-Real.log 2 * x)
  weight_zero := by simp
  weight_pos _ _ := Real.exp_pos _
  weight_le x hx := by
    have hlog : 0 ≤ Real.log 2 := Real.log_nonneg (by norm_num)
    exact Real.exp_le_one_iff.mpr (by nlinarith [mul_nonneg hlog hx])

section
variable {α : Type} [Field α] [LinearOrder α]

def ExposureOptions.validate (options : ExposureOptions α) : Except String (ExposureOptions α) := do
  Checks.ensure (1 ≤ options.maxHops ∧ options.maxHops ≤ 10) "max_hops must be 1..=10"
  Checks.ensure (0 < options.hopDecay ∧ options.hopDecay ≤ 1)
    "hop_decay must be greater than 0 and at most 1"
  Checks.ensure (0 < options.timeHalfLifeDays) "time_half_life_days must be positive"
  Checks.ensure (1 ≤ options.maxPathsPerSubject ∧ options.maxPathsPerSubject ≤ 25)
    "max_paths_per_subject must be 1..=25"
  pure options

end

/-! ## Tables -/

/-- A row of `address_relationships_canonical`, whose asset is a canonical key. -/
structure Relationship where
  relationshipId : String
  txHash : String
  blockTimestampUnixMs : Nat
  fromAddress : String
  toAddress : String
  assetId : String
  amount : Nat
  amount_pos : 0 < amount
  from_ne : fromAddress ≠ ""
  to_ne : toAddress ≠ ""
  asset_ne : assetId ≠ ""
  deriving DecidableEq

/-- A row of `address_entities_active`; the label import refuses a greater risk. -/
structure AddressEntity where
  address : String
  entityId : String
  entityType : String
  addressRole : String
  riskLevel : Nat
  isExposureSeed : Bool
  seedCategory : String
  risk_le : riskLevel ≤ 100

/-- A row of `protocol_contract_registry_active`. -/
structure ProtocolContract where
  contractAddress : String
  protocol : String
  protocolType : String
  contractRole : String

structure Tables where
  relationships : List Relationship
  entities : List AddressEntity
  protocols : List ProtocolContract

structure ServiceBoundary where
  address : String
  serviceEntityId : String

def boundaryRoles : List String := ["HOT_WALLET", "DEPOSIT", "BRIDGE", "MIXER", "POOL", "ROUTER"]

def serviceBoundaryAddresses (tables : Tables) : List ServiceBoundary :=
  ((tables.entities.filter fun row =>
    row.entityType ∈ ["exchange", "custodian", "bridge", "mixer", "dex"] ∨
      row.addressRole ∈ boundaryRoles).map fun row => ⟨row.address, row.entityId⟩) ++
    (tables.protocols.filter fun row =>
      row.protocolType ∈ ["exchange", "custodian", "bridge", "mixer", "dex", "swap", "liquidity"] ∨
        row.contractRole ∈ boundaryRoles).map fun row =>
          ⟨row.contractAddress, s!"protocol:{row.protocol}"⟩

/-- `ANY LEFT JOIN`: a row of the address, or empty columns. -/
def anyService (tables : Tables) (address : String) : ServiceBoundary :=
  ((serviceBoundaryAddresses tables).find? fun row => row.address = address).getD ⟨"", ""⟩

inductive ExposureDirection where
  | receivedFromSeed
  | sentToSeed
  deriving DecidableEq

inductive PathDirection where
  | seed
  | along (direction : ExposureDirection)
  deriving DecidableEq

def ExposureDirection.edgeFrom : ExposureDirection → Relationship → String
  | .receivedFromSeed => Relationship.fromAddress
  | .sentToSeed => Relationship.toAddress

def ExposureDirection.edgeTo : ExposureDirection → Relationship → String
  | .receivedFromSeed => Relationship.toAddress
  | .sentToSeed => Relationship.fromAddress

/-- A row of `address_exposure_paths`. -/
structure ExposurePath (α : Type) where
  pathId : String
  subjectAddress : String
  seedAddress : String
  seedEntityId : String
  seedCategory : String
  seedRiskLevel : Nat
  direction : PathDirection
  hopCount : Nat
  assetId : String
  exposureScore : α
  amountShare : α
  timeWeight : α
  serviceMediated : Nat
  serviceEntityId : String
  continuityType : String
  pathAddresses : List String
  relationshipIds : List String
  txHashes : List String
  firstTransferUnixMs : Nat
  lastTransferUnixMs : Nat

structure Config where
  runId : String
  createdAt : Nat
  /-- `hex(SHA256(text))` -/
  sha256Hex : String → String

/-! ## Propagation -/

section
variable {α : Type} [Field α] [LinearOrder α]

def seedPaths (config : Config) (tables : Tables) : List (ExposurePath α) :=
  (tables.entities.filter fun row => row.isExposureSeed ∧ 0 < row.riskLevel).map fun row =>
    { pathId := config.sha256Hex s!"exposure_seed|{config.runId}|{row.address}|{row.entityId}"
      subjectAddress := row.address
      seedAddress := row.address
      seedEntityId := row.entityId
      seedCategory := row.seedCategory
      seedRiskLevel := row.riskLevel
      direction := .seed
      hopCount := 0
      assetId := ""
      exposureScore := (row.riskLevel : α) / 100
      amountShare := 1
      timeWeight := 1
      serviceMediated := 0
      serviceEntityId := ""
      continuityType := "SEED"
      pathAddresses := [row.address]
      relationshipIds := []
      txHashes := []
      firstTransferUnixMs := 0
      lastTransferUnixMs := 0 }

structure Edge (α : Type) where
  relationship : Relationship
  edgeShare : α

/-- The window `PARTITION BY edge_from, asset_id`. -/
def outgoing (direction : ExposureDirection) (rows : List Relationship) (row : Relationship) :
    List Relationship :=
  rows.filter fun other => direction.edgeFrom other = direction.edgeFrom row ∧ other.assetId = row.assetId

/-- The sum of the window is not zero, since no amount is. -/
def edgeShare (direction : ExposureDirection) (rows : List Relationship) (row : Relationship) : α :=
  min 1 ((row.amount : α) / ((outgoing direction rows row).map fun other => (other.amount : α)).sum)

/-- The join's edges: the relationships at the ends of the paths of a hop. -/
def edges (tables : Tables) (paths : List (ExposurePath α)) (previousHop : Nat)
    (direction : ExposureDirection) : List (Edge α) :=
  let subjects := (paths.filter fun p => p.hopCount = previousHop).map ExposurePath.subjectAddress
  let rows := tables.relationships.filter fun row => direction.edgeFrom row ∈ subjects
  rows.map fun row => ⟨row, edgeShare direction rows row⟩

/-- A path with an edge at its end. -/
structure Extension (α : Type) where
  path : ExposurePath α
  edge : Edge α

/-- `ON` and `WHERE` -/
def admissible (tables : Tables) (previousHop : Nat) (direction : ExposureDirection)
    (p : ExposurePath α) (edge : Edge α) : Bool :=
  p.hopCount = previousHop ∧ (p.direction = .seed ∨ p.direction = .along direction) ∧
    p.subjectAddress = direction.edgeFrom edge.relationship ∧
    (p.assetId = "" ∨ p.assetId = edge.relationship.assetId) ∧
    direction.edgeTo edge.relationship ∉ p.pathAddresses ∧
    (previousHop = 0 ∨ (anyService tables p.subjectAddress).address = "")

def extensions (tables : Tables) (paths : List (ExposurePath α)) (previousHop : Nat)
    (direction : ExposureDirection) : List (Extension α) :=
  paths.flatMap fun p => ((edges tables paths previousHop direction).filter
    (admissible tables previousHop direction p)).map fun edge => ⟨p, edge⟩

/-- `exposure_score` and `last_transfer_unix_ms` are columns of the path that is extended. -/
def Extension.rank (e : Extension α) : α ×ₗ Nat :=
  toLex (e.path.exposureScore, e.path.lastTransferUnixMs)

/-- So are `seed_address, subject_address, direction, hop_count`. -/
def Extension.group (e : Extension α) : String × String × PathDirection × Nat :=
  (e.path.seedAddress, e.path.subjectAddress, e.path.direction, e.path.hopCount)

variable (half : HalfLife α) (config : Config) (options : ExposureOptions α) (tables : Tables)

def timeWeight (row : Relationship) : α :=
  half.weight (max 0 (((config.createdAt : α) - (row.blockTimestampUnixMs : α)) / 86400000) /
    options.timeHalfLifeDays)

/-- The row that an extension is inserted as. -/
def Extension.row (hop : Nat) (direction : ExposureDirection) (e : Extension α) : ExposurePath α :=
  let p := e.path
  let edge := e.edge.relationship
  let next := anyService tables (direction.edgeTo edge)
  let weight := timeWeight half config options edge
  { pathId := config.sha256Hex (s!"exposure_path|{config.runId}|{p.seedAddress}|" ++
      s!"{edge.relationshipId}|" ++ String.intercalate ":" p.relationshipIds)
    subjectAddress := direction.edgeTo edge
    seedAddress := p.seedAddress
    seedEntityId := p.seedEntityId
    seedCategory := p.seedCategory
    seedRiskLevel := p.seedRiskLevel
    direction := .along direction
    hopCount := hop
    assetId := if p.assetId = "" then edge.assetId else p.assetId
    exposureScore := (p.seedRiskLevel : α) / 100 * options.hopDecay ^ hop *
      min p.amountShare e.edge.edgeShare * min p.timeWeight weight
    amountShare := min p.amountShare e.edge.edgeShare
    timeWeight := min p.timeWeight weight
    serviceMediated := max p.serviceMediated (if next.address = "" then 0 else 1)
    serviceEntityId := if next.address = "" then p.serviceEntityId else next.serviceEntityId
    continuityType := "DIRECT_ASSET"
    pathAddresses := p.pathAddresses ++ [direction.edgeTo edge]
    relationshipIds := p.relationshipIds ++ [edge.relationshipId]
    txHashes := p.txHashes ++ [edge.txHash]
    firstTransferUnixMs := if p.firstTransferUnixMs = 0 then edge.blockTimestampUnixMs
      else p.firstTransferUnixMs
    lastTransferUnixMs := edge.blockTimestampUnixMs }

/-- `ORDER BY … DESC LIMIT max_paths BY …` -/
def selected (arrange : Arrangement (Extension α)) (paths : List (ExposurePath α)) (hop : Nat)
    (direction : ExposureDirection) : List (Extension α) :=
  limitBy options.maxPathsPerSubject Extension.group
    ((arrange.order (extensions tables paths (hop - 1) direction)).insertionSort
      fun a b => b.rank ≤ a.rank)

def expandHop (arrange : Arrangement (Extension α)) (paths : List (ExposurePath α)) (hop : Nat)
    (direction : ExposureDirection) : List (ExposurePath α) :=
  (selected options tables arrange paths hop direction).map
    (Extension.row half config options tables hop direction)

/-- The steps of the loop, in order. -/
def hops (maxHops : Nat) : List (Nat × ExposureDirection) :=
  (List.range' 1 maxHops).flatMap fun hop => [(hop, .receivedFromSeed), (hop, .sentToSeed)]

/-- The stored paths after some steps; the join of each comes in an order of its own. -/
def expandAll (arrange : Nat → ExposureDirection → Arrangement (Extension α))
    (paths : List (ExposurePath α)) (steps : List (Nat × ExposureDirection)) : List (ExposurePath α) :=
  steps.foldl (fun paths step =>
    paths ++ expandHop half config options tables (arrange step.1 step.2) paths step.1 step.2) paths

structure ExposurePropagationReport where
  runId : String
  seedCount : Nat
  pathCount : Nat
  maxHops : Nat
  deriving DecidableEq

/-- The stored paths of a run and its report. -/
def propagate (arrange : Nat → ExposureDirection → Arrangement (Extension α)) :
    List (ExposurePath α) × ExposurePropagationReport :=
  let seeds := seedPaths config tables
  let seedCount := (seeds.filter fun p => p.direction = .seed).length
  if seedCount = 0 then (seeds, ⟨config.runId, 0, 0, options.maxHops⟩)
  else
    let paths := expandAll half config options tables arrange seeds (hops options.maxHops)
    (paths, ⟨config.runId, seedCount, (paths.filter fun p => p.direction ≠ .seed).length,
      options.maxHops⟩)

end

end AmlReal.Ethereum.Exposure
