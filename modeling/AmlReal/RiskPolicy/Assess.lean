import Mathlib.Data.List.Destutter
import Mathlib.Data.List.Sort
import Mathlib.Data.String.Basic
import AmlReal.RiskPolicy.BitcoinExposure

/-! # The shared risk policy

`assess` of `risk_policy/lib.rs`: four findings over returned JSON (an approved
label, the strongest exposure to a seed, mixer interactions, quick forwarding of
one asset) and the score they add up to. -/

namespace AmlReal.RiskPolicy.Assess
open AmlReal.Foundations.Floats AmlReal.Foundations.Json AmlReal.Warehouse.Values
open AmlReal.RiskPolicy.Evidence AmlReal.RiskPolicy.BitcoinExposure

def policy : String := "aml_evidence_v2_verified_inputs"
def labelWeight : ℚ := 70
def incomingWeight : ℚ := 55
def outgoingWeight : ℚ := 45
def indirectWeight : ℚ := 25
def mixerWeight : ℚ := 15
def forwardingWeight : ℚ := 5
def medium : ℚ := 25
def high : ℚ := 60

/-- The best score of a loop and the element that gave it. -/
structure Finding where
  score : ℚ
  evidence : Value

def Finding.none : Finding := ⟨0, .null⟩

def Finding.raise (found : Finding) (score : ℚ) (evidence : Value) : Finding :=
  if score > found.score then ⟨score, evidence⟩ else found

def startsWith (s start : String) : Bool := start.toList.isPrefixOf s.toList

section
variable (F : FloatOps)

/-! ## Labels -/

def labelScore (risk : Value) : ℚ := F.mul (clamp (F.div (number risk) 100) 0 1) labelWeight

def claims (data : Value) : List Value := array (data.pointer ["intelligence", "entity_claims"])

def activeLabel (data : Value) : Option String :=
  (data.pointer ["intelligence", "active_entity", "source_label_id"]).bind Value.asStr

def entities (data : Value) : List Value := array (data.get "entities")

/-- A claim of TRON that its loop takes up. -/
def activeClaim (data claim : Value) : Bool :=
  (activeLabel data).isSome && claim["label_id"].asStr = activeLabel data && approvedLabel claim

/-- The approval that an entity needs on its network. -/
def approvedEntity (network : String) (data entity : Value) : Bool :=
  approvedLabel entity &&
    (network != "bitcoin" || bitcoinLabel entity data["address"] data["intelligence_snapshot"])

def seedEntity (network : String) (data entity : Value) : Bool :=
  entity["is_exposure_seed"] = .bool true && approvedEntity network data entity

def identity (network : String) (data : Value) : Finding :=
  if network = "tron" then
    (claims data).foldl (fun found claim =>
      if activeClaim data claim then ⟨labelScore F claim["risk_percent"], claim⟩ else found) .none
  else
    (entities data).foldl (fun found entity =>
      if seedEntity network data entity then found.raise (labelScore F entity["risk_level"]) entity
      else found) .none

/-! ## Exposure -/

/-- `has_path_evidence` -/
def hasPathEvidence (path : Value) (tron : Bool) : Bool :=
  if tron then
    text path["source_address"] != "" && text path["last_tx_hash"] != "" &&
      text path["propagation_run_id"] != ""
  else
    let hops := path["hop_count"].asU64.getD 0
    let txs := array (path.get "tx_hashes")
    let ids := array (path.get "relationship_ids")
    let addresses := array (path.get "path_addresses")
    1 ≤ hops && hops ≤ 10 && text path["seed_address"] != "" && txs.length = hops &&
      ids.length = txs.length && addresses.length = txs.length + 1 &&
      (txs ++ ids ++ addresses).all fun v => text v != ""

def paths (network : String) (data : Value) : List Value :=
  array (if network = "tron" then data.pointer ["exposure", "top_sources"]
    else data.get "exposure_paths")

def direction (network : String) (path : Value) : String :=
  text (if network = "tron" then path["exposure_type"] else path["direction"])

def incoming (network : String) (path : Value) : Bool :=
  direction network path ∈ ["RECEIVED_FROM_SEED", "INCOMING", "incoming", "received"] ∨
    (network = "tron" ∧ direction network path = "DIRECTED_FUND_FLOW")

def outgoing (network : String) (path : Value) : Bool :=
  direction network path ∈ ["SENT_TO_SEED", "OUTGOING", "outgoing", "sent"]

def pathHops (network : String) (path : Value) : Nat :=
  (if network = "tron" then path["hop_distance"] else path["hop_count"]).asU64.getD 0

/-- The score of a path, or the limitation that its rejection adds. -/
def pathScore (network : String) (data path : Value) : Except (Option String) ℚ :=
  if network = "bitcoin" ∧ (bitcoinExposure F path data).isOk = false then
    .error (some "Bitcoin possible-only, unverified or unsupported UTXO allocations are shown as context and are not scored.")
  else if network ≠ "bitcoin" ∧ hasPathEvidence path (network = "tron") = false then
    .error (some "Exposure without transaction references and seed identity is not scored.")
  else if network = "bsc" ∧ approvedLabel path["seed_claim"] = false then
    .error (some "Exposure without an approved seed claim is not scored.")
  else if path["service_mediated"] = .bool true then
    .error (some "Service-mediated exposure is shown as context and does not increase this score.")
  else if pathHops network path = 0 then .error none
  else if incoming network path = false ∧ outgoing network path = false then
    .error (some "Exposure with unspecified flow direction is not scored.")
  else
    let weight := if pathHops network path > 1 then indirectWeight
      else if incoming network path then incomingWeight else outgoingWeight
    let strength := number (if network = "tron" then path["effective_score"]
      else path["exposure_score"])
    .ok (F.mul (clamp strength 0 1) weight)

/-- A path raises the finding, or adds its limitation. -/
def addPath (network : String) (data : Value) (state : Finding × List String) (path : Value) :
    Finding × List String :=
  match pathScore F network data path with
  | .ok score => (state.1.raise score path, state.2)
  | .error limitation => (state.1, state.2 ++ limitation.toList)

def exposure (network : String) (data : Value) : Finding × List String :=
  (paths network data).foldl (addPath F network data) (.none, [])

/-! ## Mixers -/

section
variable (fromStr : String → Option Value)

/-- `has_mixer_evidence`; `fromStr` is `serde_json::from_str`. -/
def hasMixerEvidence (event : Value) : Bool :=
  let evidence : Value := match event["evidence_json"] with
    | .object fields => .object fields
    | other => (fromStr (text other)).getD .null
  text event["tx_hash"] != "" && text event["protocol_contract"] != "" &&
    ((text evidence["registry_source"] != "" && evidence["log_index"].asU64.isSome) ||
      (eqIgnoreAsciiCase (text evidence["registry"]["review_status"]) "approved" &&
        text evidence["registry"]["source_id"] != "" &&
        evidence["signal"]["log_index"].asU64.isSome))

def events (network : String) (data : Value) : List Value :=
  array (if network = "tron" then data.pointer ["activity", "recent_semantic_events"]
    else data.get "semantic_events")

def mixerEvent (event : Value) : Bool :=
  startsWith (text event["event_type"]) "mixer_" && F.div 4 5 ≤ number event["confidence"] &&
    hasMixerEvidence fromStr event

def mixer (network : String) (data : Value) : List Value :=
  ((events network data).filter (mixerEvent F fromStr)).take 10

end

/-! ## Forwarding -/

/-- `raw_amount` -/
def rawAmount (value : Value) : Option Nat := do
  let s ← value.asStr
  if s ≠ "" ∧ s.utf8ByteSize ≤ 78 ∧ s.toList.all Char.isDigit ∧
      Nat.ofDigitChars 10 s.toList 0 < 2 ^ 256 then
    some (Nat.ofDigitChars 10 s.toList 0)
  else none

/-- The names of an edge's fields. -/
structure EdgeNames where
  source : String
  target : String
  asset : String
  time : String

def edgeNames (tron : Bool) : EdgeNames :=
  if tron then ⟨"from", "to", "token_address", "timestamp"⟩
  else ⟨"from_address", "to_address", "asset_id", "block_timestamp_unix_ms"⟩

section
variable (names : EdgeNames) (address : String)

/-- The amount and the time of an incoming edge that can start a pair. -/
def receipt (edge : Value) : Option (Nat × Nat) := do
  let amount ← rawAmount edge["amount"]
  if amount = 0 ∨ text edge[names.asset] = "" ∨ text edge["tx_hash"] = "" ∨
      text edge[names.source] = address then none
  else
    let start ← edge[names.time].asU64
    if start > 0 then some (amount, start) else none

/-- An outgoing edge follows a receipt: the same asset, later but within ten
minutes, the amount within a tenth. -/
def follows (incoming : Value) (amount start : Nat) (outgoing : Value) : Bool :=
  match outgoing[names.time].asU64, rawAmount outgoing["amount"] with
  | some stop, some outAmount =>
    text outgoing[names.target] ≠ address ∧ text outgoing["tx_hash"] ≠ "" ∧
    text incoming[names.asset] = text outgoing[names.asset] ∧
    text incoming["token_id"] = text outgoing["token_id"] ∧
    text incoming["tx_hash"] ≠ text outgoing["tx_hash"] ∧
    start < stop ∧ stop - start ≤ 600000 ∧
    (if outAmount ≤ amount then amount - outAmount else outAmount - amount) ≤ amount / 10
  | _, _ => false

def pairValue (incoming outgoing : Value) : Value := .object [
  ("incoming_tx", incoming["tx_hash"]), ("outgoing_tx", outgoing["tx_hash"]),
  ("asset", incoming[names.asset]), ("incoming_amount", incoming["amount"]),
  ("outgoing_amount", outgoing["amount"])]

structure Forwarding where
  used : List String
  pairs : List Value

def Forwarding.step (outs : List Value) (state : Forwarding) (incoming : Value) : Forwarding :=
  match receipt names address incoming with
  | none => state
  | some (amount, start) =>
    if text incoming["tx_hash"] ∈ state.used then state
    else
      match outs.find? fun outgoing => follows names address incoming amount start outgoing &&
          text outgoing["tx_hash"] ∉ state.used with
      | none => state
      | some outgoing =>
        ⟨text incoming["tx_hash"] :: text outgoing["tx_hash"] :: state.used,
          state.pairs ++ [pairValue names incoming outgoing]⟩

def Forwarding.run (outs : List Value) : List Value → Forwarding → Forwarding
  | [], state => state
  | incoming :: rest, state =>
    if 10 ≤ (state.step names address outs incoming).pairs.length then
      state.step names address outs incoming
    else run outs rest (state.step names address outs incoming)

/-- The edges at an end, up to the limit of the loops. -/
def edgesAt (field : String) (edges : List Value) : List Value :=
  (edges.filter fun e => text e[field] = address).take 500

end

def edges (data : Value) : List Value := array (data.pointer ["graph", "edges"])

/-- `pass_through` -/
def passThrough (data : Value) (tron : Bool) : List Value :=
  let address := text data["address"]
  let names := edgeNames tron
  if address = "" then []
  else
    (Forwarding.run names address (edgesAt address names.source (edges data))
      (edgesAt address names.target (edges data)) ⟨[], []⟩).pairs

def serviceEntity (network : String) (data entity : Value) : Bool :=
  approvedEntity network data entity &&
    toAsciiLowercase (text entity["entity_type"]) ∈ ["exchange", "dex", "bridge", "custodian"]

def knownService (network : String) (data : Value) : Bool :=
  if network = "tron" then
    (data.pointer ["intelligence", "active_exchange"]).any (· ≠ .null)
  else (entities data).any (serviceEntity network data)

def forwardingPairs (network : String) (data : Value) : List Value :=
  if network = "bitcoin" then [] else passThrough data (network = "tron")

/-! ## The assessment -/

def signal (kind : String) (contribution : ℚ) (summary : String) (evidence : Value) : Value :=
  .object [("signal_type", .string kind), ("contribution", float F contribution),
    ("summary", .string summary), ("evidence", evidence)]

def contribution (signal : Value) : ℚ := number signal["contribution"]

section
variable (fromStr : String → Option Value) (network : String) (data : Value)

/-- The signals in the order they are found. -/
def signals : List Value :=
  let label := identity F network data
  let strongest := (exposure F network data).1
  let mixed := mixer F fromStr network data
  let pairs := forwardingPairs network data
  (if label.score > 0 then [signal F "APPROVED_RISK_LABEL" label.score
    "Current approved entity attribution carries an explicit risk designation." label.evidence]
    else []) ++
  (if strongest.score > 0 then [signal F "ILLICIT_SEED_EXPOSURE" strongest.score
    "Strongest directional exposure to an approved risky seed; intermediaries and existing decay reduce weight."
    strongest.evidence] else []) ++
  (if mixed ≠ [] then [signal F "MIXER_INTERACTION" mixerWeight
    "High-confidence decoded mixer interaction; mixer use alone is not evidence of laundering."
    (.array mixed)] else []) ++
  (if 3 ≤ pairs.length ∧ knownService network data = false then
    [signal F "RAPID_SAME_ASSET_FORWARDING" forwardingWeight
      "At least three distinct receipts closely followed by a similar-sized outgoing transfer of the same asset. This is a timing pattern, not proven fund continuity."
      (.array pairs)] else [])

def transfers : Nat :=
  ((if network = "tron" then data.pointer ["fingerprint", "flows", "total_transfers"]
    else data.pointer ["fingerprint", "transfer_count"]).bind Value.asU64).getD 0

def isTrue (path : List String) : Bool := data.pointer path = some (.bool true)

/-- The limitations after the first two and those of the paths, in source order. -/
def generalLimitations : List String :=
  (if isTrue data ["graph", "truncated"] || isTrue data ["fingerprint", "is_truncated"] then
    ["Graph or fingerprint was truncated by query safety limits."] else []) ++
  (if network ∈ ["ethereum", "bsc"] ∧
      isTrue data ["data_coverage", "internal_transfer_coverage"] = false then
    ["Internal EVM transfer coverage is incomplete."] else []) ++
  (if transfers network data < 3 then ["Fewer than three wallet transfers are available."]
    else []) ++
  (if network ∈ ["bsc", "ethereum"] then
    (if isTrue data ["data_coverage", "history_from_genesis"] = false then
      ["EVM history is not complete from genesis; missing periods are not evidence of low risk."]
      else []) ++
    (if isTrue data ["exposure_coverage", "truncated"] then
      ["BSC exposure traversal reached safety limits; additional paths may exist."] else [])
    else []) ++
  (if network = "bitcoin" then
    ["Bitcoin transaction connectivity does not allocate particular inputs to outputs or prove fund continuity.",
      "Bitcoin ownership, change and CoinJoin classifications are not inferred. Exposure uses conservative value bounds over exact spent outpoints; specific satoshi continuity is not established."] ++
    (if isTrue data ["exposure_coverage", "truncated"] then
      ["Bitcoin exposure reached query limits; partial candidates are not scored."] else []) ++
    (if isTrue data ["data_coverage", "history_from_genesis"] = false then
      ["Bitcoin history is partial or empty; observed UTXOs are not a complete wallet balance."]
      else [])
    else [])

def limitations : List String :=
  ((["Evidence score, not a calibrated probability or a legal conclusion.",
    "Only stored and returned evidence is assessed; missing history and labels can hide risk."] ++
    (exposure F network data).2 ++
    (if (exposure F network data).1.score > 0 then [] else
      ["No scored directional exposure was supplied; this does not prove no exposure exists."]) ++
    generalLimitations network data).insertionSort (· ≤ ·)).destutter (· ≠ ·)

def sortedSignals : List Value :=
  (signals F fromStr network data).insertionSort fun a b => contribution b ≤ contribution a

/-- The capped sum of the contributions. -/
def score : ℚ :=
  min (((sortedSignals F fromStr network data).map contribution).foldl F.add 0) 100

def available : Bool :=
  signals F fromStr network data ≠ [] ∨ (network ≠ "bitcoin" ∧ 3 ≤ transfers network data)

def level : String :=
  if available F fromStr network data = false then "UNKNOWN"
  else if high ≤ score F fromStr network data then "HIGH"
  else if medium ≤ score F fromStr network data then "MEDIUM"
  else if 0 < score F fromStr network data then "LOW"
  else "NO_SIGNALS"

def riskScore : Value :=
  if available F fromStr network data then
    float F (F.div (roundAway (F.mul (score F fromStr network data) 10)) 10)
  else .null

def assess : Value := .object [
  ("enabled", .bool true),
  ("status", .string (if available F fromStr network data then "available"
    else "insufficient_data")),
  ("policy_version", .string policy), ("scoring_method", .string "versioned_evidence_policy"),
  ("risk_score", riskScore F fromStr network data),
  ("risk_level", .string (level F fromStr network data)), ("probability_claimed", .bool false),
  ("signals", .array (sortedSignals F fromStr network data)),
  ("top_reasons", .array ((sortedSignals F fromStr network data).map fun s => s["summary"])),
  ("limitations", .array ((limitations F network data).map .string)),
  ("observed_transfers", .ofNat (transfers network data)),
  ("assessment_scope", .string "returned_wallet_evidence"),
  ("requires_analyst_review", .bool (medium ≤ score F fromStr network data))]

/-- The types of the signals of an assessment. -/
def signalTypes (assessment : Value) : List Value :=
  (array (assessment.get "signals")).map fun s => s["signal_type"]

end

end

end AmlReal.RiskPolicy.Assess
