import AmlReal.Bitcoin.Bounds
import AmlReal.Foundations.Floats

/-! # Exposure paths

`make_path` of `exposure/trace.rs`: a route of hops becomes the path that is
stored and scored, with running bounds on the satoshis that reach its end. -/

namespace AmlReal.Bitcoin.Trace
open AmlReal.Foundations.Checks AmlReal.Foundations.Floats AmlReal.Foundations.Json
open AmlReal.Warehouse.Values AmlReal.Bitcoin.Transactions AmlReal.Bitcoin.Bounds

/-- A hop spends some inputs of a transaction and follows one output. -/
structure Hop where
  tx : Tx
  ins : List (Fin tx.inputs.length)
  out : Fin tx.outputs.length
  spends : ins ≠ []

namespace Hop

def input (hop : Hop) (i : Fin hop.tx.inputs.length) : Leg := hop.tx.inputs[i]

def inputs (hop : Hop) : List Leg := hop.ins.map hop.input

def output (hop : Hop) : Leg := hop.tx.outputs[hop.out]

/-- `hop.tx.inputs[hop.ins[0]]` -/
def firstInput (hop : Hop) : Leg := hop.input (hop.ins.head hop.spends)

def amounts (hop : Hop) : Amounts := ⟨hop.tx.total, hop.output.value⟩

/-- The hop spends exactly the output that the prior one follows. -/
def Follows (prior hop : Hop) : Prop :=
  hop.ins.length = 1 ∧ hop.firstInput.prevTxHash = some prior.tx.h.txHash ∧
  hop.firstInput.prevOutputIndex = some (prior.out.val % 2 ^ 32) ∧
  hop.firstInput.value = prior.output.value ∧ hop.firstInput.subject = prior.output.subject ∧
  prior.tx.before hop.tx

instance (prior hop : Hop) : Decidable (prior.Follows hop) := inferInstanceAs (Decidable (_ ∧ _))

end Hop

/-! ## The rows of a path -/

def optional {α : Type} (toValue : α → Value) (value : Option α) : Value :=
  value.elim .null toValue

def Leg.toJson (leg : Leg) : Value := .object [
  ("index", .ofNat leg.index), ("subject", .string leg.subject), ("value", .ofNat leg.value),
  ("relationship_id", .string leg.relationshipId),
  ("prev_tx_hash", optional .string leg.prevTxHash),
  ("prev_output_index", optional .ofNat leg.prevOutputIndex)]

def decimal (n : Nat) : Value := .string n.repr

def strings (items : List String) : Value := .array (items.map .string)

def allocationRow (lower upper total output fee lo hi : Nat) : Value := .object [
  ("lower_input_sats", decimal lower), ("upper_input_sats", decimal upper),
  ("total_input_sats", decimal total), ("output_sats", decimal output), ("fee_sats", decimal fee),
  ("lower_output_sats", decimal lo), ("upper_output_sats", decimal hi)]

def Hop.toJson (hop : Hop) : Value := .object [
  ("tx_hash", .string hop.tx.h.txHash), ("block_hash", .string hop.tx.h.blockHash),
  ("block_number", .ofNat hop.tx.h.blockNumber),
  ("transaction_index", .ofNat hop.tx.h.transactionIndex),
  ("timestamp_unix_ms", .ofNat hop.tx.h.blockTimestampUnixMs),
  ("commit_id", .string hop.tx.h.commitId), ("revision", decimal hop.tx.h.revision),
  ("inputs", .array (hop.inputs.map Leg.toJson)), ("output", Leg.toJson hop.output)]

/-! ## The loop over the hops -/

structure Walk where
  previous : Option Hop
  lower : Nat
  upper : Nat
  allocation : List Value
  hops : List Value
  ids : List String
  subjects : List String

def Walk.start (first : Hop) (lower : Nat) : Walk :=
  ⟨none, lower, lower, [], [], [], [first.firstInput.subject]⟩

/-- The rows of a hop with its output bounds. -/
def Walk.extend (walk : Walk) (hop : Hop) (lo hi : Nat) : Walk where
  previous := some hop
  lower := lo
  upper := hi
  allocation := walk.allocation ++
    [allocationRow walk.lower walk.upper hop.tx.total hop.output.value hop.tx.fee lo hi]
  hops := walk.hops ++ [hop.toJson]
  ids := walk.ids ++ hop.inputs.map Leg.relationshipId ++ [hop.output.relationshipId]
  subjects := walk.subjects ++ [hop.output.subject]

def Walk.step (walk : Walk) (hop : Hop) : Except String Walk := do
  ensure (∀ prior ∈ walk.previous, prior.Follows hop)
    "exposure route does not follow an actual spent outpoint"
  let (lo, hi) ← allocate walk.lower walk.upper hop.tx.total hop.output.value
  pure (walk.extend hop lo hi)

/-- The sum of the inputs that the first hop selects. -/
def selected (first : Hop) : Except String Nat :=
  sumU64 (first.inputs.map Leg.value) "origin amount overflow"

def walkPath (first : Hop) (rest : List Hop) : Except String Walk := do
  let lower ← selected first
  (first :: rest).foldlM Walk.step (Walk.start first lower)

/-! ## The path -/

section
variable (F : FloatOps) (digest : Value → String)

def halfLife (at' last : Nat) : ℚ :=
  F.powf (1 / 2) (F.div (F.div (F.ofNat (at' - last)) 86400000) 365)

def strength (claim : Value) (share weight : ℚ) (hops : Nat) : ℚ :=
  clamp (F.mul (F.mul (F.mul (F.div (F.mul (claim["confidence"].asF64.getD 0)
    (claim["risk_level"].asF64.getD 0)) 100) share) (F.powi (13 / 20) (hops - 1))) weight) 0 1

def evidenceRefs (refs : List Value) (path : List Hop) : List Value :=
  refs ++ path.flatMap fun hop =>
    [.string s!"tx:{hop.tx.h.txHash}", .string s!"outpoint:{hop.tx.h.txHash}:{hop.out.val}"]

/-- The JSON of a path: what `make_path` returns. -/
def pathValue (address : String) (incoming : Bool) (path : List Hop) (first last : Hop)
    (claim seedSnapshot : Value) (mediated : Bool) (walk : Walk) (pathId seedId : String)
    (share weight score : ℚ) (refs : List Value) : Value := .object [
  ("network_id", .string Network.bitcoin.id), ("path_id", .string pathId),
  ("run_id", .string ""), ("subject_id", .string address), ("seed_id", .string seedId),
  ("seed_address", claim["address"]), ("seed_claim", claim), ("seed_snapshot", seedSnapshot),
  ("direction", .string (if incoming then "RECEIVED_FROM_SEED" else "SENT_TO_SEED")),
  ("hop_count", .ofNat path.length), ("asset_id", .string "native:BTC"),
  ("amount_raw", decimal walk.lower), ("amount_share", float F share),
  ("exposure_score", float F (if mediated then 0 else score)),
  ("score_eligible", .bool (walk.lower > 0 && !mediated)),
  ("attribution_method", .string "bitcoin_utxo_bounds_v1"),
  ("fund_continuity_claimed", .bool false), ("ownership_claimed", .bool false),
  ("service_mediated", .bool mediated),
  ("continuity_type", .string "exact_outpoints_with_conservative_value_bounds"),
  ("path_subjects", strings walk.subjects), ("path_addresses", strings walk.subjects),
  ("tx_hashes", strings (path.map fun hop => hop.tx.h.txHash)),
  ("relationship_ids", strings walk.ids),
  ("evidence_refs", .array (evidenceRefs refs path)), ("hops", .array walk.hops),
  ("time_weight", float F weight), ("hop_decay", float F (13 / 20)),
  ("first_transfer_unix_ms", .ofNat first.tx.h.blockTimestampUnixMs),
  ("last_transfer_unix_ms", .ofNat last.tx.h.blockTimestampUnixMs),
  ("allocation", .object [
    ("method", .string "bitcoin_utxo_bounds_v1"), ("minimum_sats", decimal walk.lower),
    ("maximum_sats", decimal walk.upper), ("amount_basis", .string "lower_bound"),
    ("paths_additive", .bool false), ("steps", .array walk.allocation)])]

def makePath (address : String) (incoming : Bool) (first : Hop) (rest : List Hop)
    (claim seedSnapshot : Value) (mediated : Bool) (at' : Nat) : Except String (Option Value) := do
  let path := first :: rest
  let walk ← walkPath first rest
  if walk.upper = 0 then pure none
  else do
    let last := path.getLast (List.cons_ne_nil _ _)
    let share := F.div (F.ofNat walk.lower) (F.ofNat (max last.output.value 1))
    let weight := halfLife F at' last.tx.h.blockTimestampUnixMs
    let score := strength F claim share weight path.length
    let seedId := "btc-seed-" ++ digest (.array [claim["claim_id"], seedSnapshot])
    let pathId := digest (.array [.string address, .bool incoming, claim["claim_id"],
      strings walk.ids])
    let refs ← context claim["evidence_refs"].asArray "seed evidence missing"
    pure (some (pathValue F address incoming path first last claim seedSnapshot mediated walk pathId
      seedId share weight score refs))

end

end AmlReal.Bitcoin.Trace
