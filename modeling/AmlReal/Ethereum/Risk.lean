import Mathlib.Data.List.Sort
import Mathlib.Data.Rat.Defs
import Mathlib.Algebra.Order.Ring.Rat
import AmlReal.Foundations.Checks
import AmlReal.Foundations.Floats
import AmlReal.Foundations.HexText
import AmlReal.Foundations.LatestRows

/-! # Evidence risk of Ethereum wallets

`EvidenceRiskEngine::assess` of `risk.rs`, which turns what its queries return
into signals and inserts these and then the assessment. Between two calls labels,
exposure runs, the checkpoint and events may change in any way, so a call is given
what its queries return to it. Scores are exact; the serialization of JSON is a
parameter of the engine. -/

namespace AmlReal.Ethereum.Risk
open AmlReal.Foundations AmlReal.Foundations.Checks AmlReal.Foundations.LatestRows
open AmlReal.Foundations.Json

def SCORING_METHOD : String := "VERSIONED_EVIDENCE_POLICY"

structure EvidenceRiskEngine where
  networkId : String
  policyVersion : String
  enabled : Bool
  /-- `hex(SHA256(text))` -/
  sha256 : String → String
  /-- `Value::to_string` -/
  render : Value → String

/-- An address as `AddressId::parse_evm` spells it. -/
structure AddressId where
  address : String
  evm : ∃ digits, address.toList = '0' :: 'x' :: digits ∧ digits.length = 40 ∧
    digits.all HexText.isHex

structure RiskSignalOutput where
  signalType : String
  signalStrength : ℚ
  contribution : ℚ
  summary : String
  evidenceRefs : List String
  evidence : Value

structure RiskAssessmentOutput where
  enabled : Bool
  status : String
  assessmentId : Option String
  policyVersion : String
  scoringMethod : String
  riskScore : Option ℚ
  riskLevel : Option String
  signals : List RiskSignalOutput
  topReasons : List String
  exposureRunId : Option String
  asOfBlock : Option Nat
  probabilityClaimed : Bool

/-! ## What the queries return -/

structure PolicyRow where
  mediumThreshold : ℚ
  highThreshold : ℚ

structure RuleRow where
  signalType : String
  maxContribution : ℚ
  description : String

structure EntityEvidenceRow where
  riskLevel : Nat
  isExposureSeed : Nat
  entityIds : List String
  evidenceRefs : List String

structure ExposurePathRow where
  pathId : String
  direction : String
  hopCount : Nat
  exposureScore : ℚ
  seedAddress : String
  seedEntityId : String
  serviceMediated : Nat
  relationshipIds : List String
  txHashes : List String
  pathAddresses : List String

structure SemanticEvidenceRow where
  eventId : String
  txHash : String
  eventType : String
  blockTimestampUnixMs : Nat

structure PassThroughRow where
  pairCount : Nat
  evidenceRefs : List String

structure Evidence where
  entity : Option EntityEvidenceRow
  exposure : List ExposurePathRow
  semantic : List SemanticEvidenceRow
  passThrough : PassThroughRow

/-- The answers to the queries of one call; a query may fail. -/
structure Answers where
  policy : Option PolicyRow
  rules : Option (List RuleRow)
  checkpoint : Except String (Option Nat)
  exposureRun : Except String (Option String)
  unixTimeMillis : Except String Nat
  entity : Option (Option EntityEvidenceRow)
  /-- asked only where there is a run -/
  exposure : Option (List ExposurePathRow)
  semantic : Option (List SemanticEvidenceRow)
  passThrough : Option PassThroughRow

/-- What a call has read when it begins to detect. -/
structure Reading where
  policy : PolicyRow
  rules : List RuleRow
  asOfBlock : Nat
  exposureRun : Option String
  now : Nat
  evidence : Evidence

/-! ## Tables -/

structure RiskSignalRow where
  signalId : String
  assessmentId : String
  networkId : String
  address : String
  policyVersion : String
  signalType : String
  signalStrength : ℚ
  contribution : ℚ
  summary : String
  evidenceRefs : List String
  evidenceJson : String
  asOfBlock : Nat
  createdAtUnixMs : Nat
  deriving DecidableEq

structure RiskAssessmentRow where
  assessmentId : String
  networkId : String
  address : String
  policyVersion : String
  riskScore : ℚ
  riskLevel : String
  signalCount : Nat
  topReasons : List String
  evidenceRefs : List String
  exposureRunId : String
  asOfBlock : Nat
  asOfUnixMs : Nat
  scoringMethod : String
  createdAtUnixMs : Nat

/-- A row with the signals its call computed it from, which are no column of it. -/
structure Assessed where
  row : RiskAssessmentRow
  signals : List RiskSignalOutput

structure Database where
  walletRiskSignals : List RiskSignalRow
  walletRiskAssessments : List Assessed

/-- `ORDER BY (network_id, address, assessment_id, signal_id)` -/
def signalKey (row : RiskSignalRow) : String × String × String × String :=
  (row.networkId, row.address, row.assessmentId, row.signalId)

/-- `ORDER BY (network_id, address, policy_version, assessment_id)` -/
def assessmentKey (a : Assessed) : String × String × String × String :=
  (a.row.networkId, a.row.address, a.row.policyVersion, a.row.assessmentId)

/-- The rows that stay: `inserted_at` is the time of the insert, so the last one of a
key replaces the others. -/
def Database.signals (db : Database) : List RiskSignalRow := newest signalKey db.walletRiskSignals

def Database.assessments (db : Database) : List Assessed :=
  newest assessmentKey db.walletRiskAssessments

/-- The signals of an assessment. -/
def Database.signalsOf (db : Database) (assessmentId : String) : List RiskSignalRow :=
  db.signals.filter fun row => row.assessmentId = assessmentId

/-! ## Signals -/

/-- `Iterator::max_by`: the last of the greatest elements. -/
def maxBy {α : Type} (score : α → ℚ) (xs : List α) : Option α :=
  xs.foldl (fun best x => match best with
    | none => some x
    | some b => if score b ≤ score x then some x else some b) none

def strongestExposure (paths : List ExposurePathRow) (direction : String)
    (predicate : ExposurePathRow → Bool) : Option ExposurePathRow :=
  maxBy ExposurePathRow.exposureScore
    (paths.filter fun path => path.direction = direction ∧ predicate path)

/-- What a detector hands to `push_signal`. -/
structure Finding where
  signalType : String
  strength : ℚ
  evidenceRefs : List String
  evidence : Value

/-- `rules.get(signal_type)`; of two rules of a type the map keeps the later one. -/
def ruleOf (rules : List RuleRow) (signalType : String) : Option RuleRow :=
  rules.reverse.find? fun rule => rule.signalType = signalType

def Finding.signal (f : Finding) (rule : RuleRow) : RiskSignalOutput where
  signalType := f.signalType
  signalStrength := Floats.clamp f.strength 0 1
  contribution := rule.maxContribution * Floats.clamp f.strength 0 1
  summary := rule.description
  evidenceRefs := f.evidenceRefs
  evidence := f.evidence

/-- `push_signal`: a finding without a rule is dropped. -/
def pushSignal (rules : List RuleRow) (f : Finding) : Option RiskSignalOutput :=
  (ruleOf rules f.signalType).map f.signal

def strings (xs : List String) : Value := .array (xs.map .string)

/-- `push_exposure_signal` -/
def exposureFinding (signalType : String) (path : ExposurePathRow) : Finding where
  signalType := signalType
  strength := Floats.clamp path.exposureScore 0 1
  evidenceRefs := path.relationshipIds
  evidence := .object [("path_id", .string path.pathId), ("seed_address", .string path.seedAddress),
    ("seed_entity_id", .string path.seedEntityId), ("hop_count", .ofNat path.hopCount),
    ("service_mediated", .bool (path.serviceMediated = 1)),
    ("path_addresses", strings path.pathAddresses), ("tx_hashes", strings path.txHashes)]

def nearbySemanticSequence (events : List SemanticEvidenceRow)
    (left right : SemanticEvidenceRow → Bool) (windowMs : Nat) : Option (List String) :=
  (events.filter left).findSome? fun first =>
    ((events.filter right).find? fun second =>
      first.blockTimestampUnixMs - second.blockTimestampUnixMs +
        (second.blockTimestampUnixMs - first.blockTimestampUnixMs) ≤ windowMs).map fun second =>
      [first.eventId, second.eventId]

def isMixer (event : SemanticEvidenceRow) : Bool :=
  "mixer_".toList.isPrefixOf event.eventType.toList

def confirmedIllicitSeed (entity : Option EntityEvidenceRow) : Option Finding :=
  match entity with
  | some entity =>
    if entity.isExposureSeed = 1 then
      some ⟨"CONFIRMED_ILLICIT_SEED", (entity.riskLevel : ℚ) / 100, entity.evidenceRefs,
        .object [("entity_ids", strings entity.entityIds),
          ("risk_level", .ofNat entity.riskLevel)]⟩
    else none
  | none => none

def mixerInteraction (semantic : List SemanticEvidenceRow) : Option Finding :=
  let mixerEvents := semantic.filter isMixer
  if mixerEvents ≠ [] then
    some ⟨"MIXER_INTERACTION", min ((mixerEvents.length : ℚ) / 2) 1,
      mixerEvents.map SemanticEvidenceRow.eventId,
      .object [("event_count", .ofNat mixerEvents.length),
        ("tx_hashes", strings (mixerEvents.map SemanticEvidenceRow.txHash))]⟩
  else none

def sequenceFinding (signalType : String) (refs : List String) : Finding :=
  ⟨signalType, 1, refs, .object [("window_seconds", .ofNat 3600)]⟩

def rapidPassThrough (row : PassThroughRow) : Option Finding :=
  if 0 < row.pairCount then
    some ⟨"RAPID_PASS_THROUGH", min ((row.pairCount : ℚ) / 3) 1, row.evidenceRefs,
      .object [("pair_count", .ofNat row.pairCount), ("window_seconds", .ofNat 600)]⟩
  else none

/-- The findings of a call in the order in which it looks for them. -/
def Evidence.findings (e : Evidence) : List Finding :=
  [confirmedIllicitSeed e.entity,
    (strongestExposure e.exposure "RECEIVED_FROM_SEED" fun path => path.hopCount = 1).map
      (exposureFinding "DIRECT_RECEIVED_EXPOSURE"),
    (strongestExposure e.exposure "SENT_TO_SEED" fun path => path.hopCount = 1).map
      (exposureFinding "DIRECT_SENT_EXPOSURE"),
    (maxBy ExposurePathRow.exposureScore (e.exposure.filter fun path => 1 < path.hopCount)).map
      (exposureFinding "INDIRECT_EXPOSURE"),
    mixerInteraction e.semantic,
    (nearbySemanticSequence e.semantic isMixer (fun event => event.eventType = "bridge_transfer")
      3600000).map (sequenceFinding "MIXER_BRIDGE_SEQUENCE"),
    (nearbySemanticSequence e.semantic (fun event => event.eventType = "swap")
      (fun event => event.eventType = "bridge_transfer") 3600000).map
      (sequenceFinding "RAPID_SWAP_BRIDGE_SEQUENCE"),
    rapidPassThrough e.passThrough].reduceOption

/-- The signals that rules and evidence raise. -/
def raised (rules : List RuleRow) (e : Evidence) : List RiskSignalOutput :=
  e.findings.filterMap (pushSignal rules)

/-- `signals.sort_by(…)`, greatest contributions first. -/
def sortSignals (signals : List RiskSignalOutput) : List RiskSignalOutput :=
  signals.insertionSort fun left right => right.contribution ≤ left.contribution

def riskScore (signals : List RiskSignalOutput) : ℚ :=
  Floats.clamp (signals.map RiskSignalOutput.contribution).sum 0 100

def riskLevel (policy : PolicyRow) (score : ℚ) : String :=
  if policy.highThreshold ≤ score then "HIGH"
  else if policy.mediumThreshold ≤ score then "MEDIUM"
  else if 0 < score then "LOW"
  else "NONE"

/-! ## A call -/

namespace EvidenceRiskEngine
variable (engine : EvidenceRiskEngine)

def stableId (namespaceName : String) (fields : List String) : String :=
  engine.sha256 (fields.foldl (fun input field => input ++ "|" ++ field) namespaceName)

def assessmentId (address : AddressId) (asOfBlock : Nat) (exposureRun : Option String) : String :=
  engine.stableId "eth_risk_assessment" [engine.networkId, address.address, engine.policyVersion,
    asOfBlock.repr, exposureRun.getD "no_exposure_run"]

def signalId (assessmentId signalType : String) : String :=
  engine.stableId "eth_risk_signal" [assessmentId, signalType]

/-- The queries of `assess`, in their order. -/
def read (answers : Answers) : Except String Reading := do
  let policy ← context answers.policy "active Ethereum risk policy was not found"
  let rules ← context answers.rules "failed to load Ethereum risk policy rules"
  ensure (rules ≠ []) "active Ethereum risk policy has no rules"
  let asOfBlock := (← answers.checkpoint).getD 0
  let exposureRun ← answers.exposureRun
  let now ← answers.unixTimeMillis
  let entity ← context answers.entity "failed to load Ethereum entity risk evidence"
  let exposure ← match exposureRun with
    | none => .ok []
    | some _ => context answers.exposure "failed to load Ethereum exposure evidence"
  let semantic ← context answers.semantic "failed to load Ethereum semantic risk evidence"
  let passThrough ← context answers.passThrough
    "failed to detect Ethereum rapid pass-through evidence"
  pure ⟨policy, rules, asOfBlock, exposureRun, now, ⟨entity, exposure, semantic, passThrough⟩⟩

def signalRow (address : AddressId) (assessmentId : String) (asOfBlock createdAt : Nat)
    (signal : RiskSignalOutput) : RiskSignalRow where
  signalId := engine.signalId assessmentId signal.signalType
  assessmentId := assessmentId
  networkId := engine.networkId
  address := address.address
  policyVersion := engine.policyVersion
  signalType := signal.signalType
  signalStrength := signal.signalStrength
  contribution := signal.contribution
  summary := signal.summary
  evidenceRefs := signal.evidenceRefs
  evidenceJson := engine.render signal.evidence
  asOfBlock := asOfBlock
  createdAtUnixMs := createdAt

/-- `signals.len().try_into().unwrap_or(u16::MAX)` -/
def signalCount (signals : List RiskSignalOutput) : Nat := min signals.length 65535

/-- The rows that `persist` inserts for a reading. -/
def signalRows (address : AddressId) (r : Reading) : List RiskSignalRow :=
  (sortSignals (raised r.rules r.evidence)).map (engine.signalRow address
    (engine.assessmentId address r.asOfBlock r.exposureRun) r.asOfBlock r.now)

def assessed (address : AddressId) (r : Reading) : Assessed :=
  let signals := sortSignals (raised r.rules r.evidence)
  { row :=
      { assessmentId := engine.assessmentId address r.asOfBlock r.exposureRun
        networkId := engine.networkId
        address := address.address
        policyVersion := engine.policyVersion
        riskScore := riskScore signals
        riskLevel := riskLevel r.policy (riskScore signals)
        signalCount := signalCount signals
        topReasons := (signals.take 5).map RiskSignalOutput.summary
        -- the set is listed in no particular order
        evidenceRefs := (signals.flatMap RiskSignalOutput.evidenceRefs).dedup
        exposureRunId := r.exposureRun.getD ""
        asOfBlock := r.asOfBlock
        asOfUnixMs := r.now
        scoringMethod := SCORING_METHOD
        createdAtUnixMs := r.now }
    signals := signals }

/-- Where a call ends before it has persisted everything, with an error or a crash. -/
inductive Interruption where
  | beforeSignals (error : String)
  | betweenInserts (error : String)

/-- `persist`: the signals in one insert, then the assessment. -/
def persist (db : Database) (address : AddressId) (r : Reading)
    (interruption : Option Interruption) : Except String Unit × Database :=
  let inserted := { db with
    walletRiskSignals := db.walletRiskSignals ++ engine.signalRows address r }
  match interruption with
  | some (.beforeSignals error) => (.error error, db)
  | some (.betweenInserts error) => (.error error, inserted)
  | none => (.ok (), { inserted with
      walletRiskAssessments := db.walletRiskAssessments ++ [engine.assessed address r] })

def disabledOutput : RiskAssessmentOutput where
  enabled := false
  status := "disabled"
  assessmentId := none
  policyVersion := engine.policyVersion
  scoringMethod := SCORING_METHOD
  riskScore := none
  riskLevel := none
  signals := []
  topReasons := []
  exposureRunId := none
  asOfBlock := none
  probabilityClaimed := false

def output (address : AddressId) (r : Reading) : RiskAssessmentOutput :=
  let a := engine.assessed address r
  { enabled := true
    status := "available"
    assessmentId := some a.row.assessmentId
    policyVersion := engine.policyVersion
    scoringMethod := SCORING_METHOD
    riskScore := some a.row.riskScore
    riskLevel := some a.row.riskLevel
    signals := a.signals
    topReasons := a.row.topReasons
    exposureRunId := r.exposureRun
    asOfBlock := some r.asOfBlock
    probabilityClaimed := false }

def assess (db : Database) (address : AddressId) (answers : Answers)
    (interruption : Option Interruption) : Except String RiskAssessmentOutput × Database :=
  if engine.enabled then
    match read answers with
    | .error error => (.error error, db)
    | .ok r =>
      let (persisted, db) := engine.persist db address r interruption
      (persisted.map fun _ => engine.output address r, db)
  else (.ok engine.disabledOutput, db)

/-- A call and what happens around it. -/
structure Call where
  address : AddressId
  answers : Answers
  interruption : Option Interruption

def step (db : Database) (call : Call) : Database :=
  (engine.assess db call.address call.answers call.interruption).2

/-- The tables after some calls. -/
def run (calls : List Call) : Database := calls.foldl engine.step ⟨[], []⟩

theorem run_concat (calls : List Call) (call : Call) :
    engine.run (calls ++ [call]) = engine.step (engine.run calls) call := by
  simp [run]

end EvidenceRiskEngine
end AmlReal.Ethereum.Risk
