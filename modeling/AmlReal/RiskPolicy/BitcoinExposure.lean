import AmlReal.Bitcoin.Bounds
import AmlReal.Foundations.Checks
import AmlReal.Foundations.Floats
import AmlReal.RiskPolicy.Evidence

/-! # The verifier of Bitcoin exposure paths

`bitcoin_exposure` of `risk_policy/lib.rs`. It reads untrusted JSON and
subtracts machine integers without a check of its own, so an underflow is an
outcome of the model, apart from a rejection. -/

namespace AmlReal.RiskPolicy.BitcoinExposure
open AmlReal.Foundations.Checks AmlReal.Foundations.Floats AmlReal.Foundations.Json
open AmlReal.Warehouse.Values AmlReal.RiskPolicy.Evidence

def method : Value := .string "bitcoin_utxo_bounds_v1"

def supply : Nat := 2100000000000000

inductive Stop where
  | rejected
  | underflow
  deriving DecidableEq

/-- `a - b` on `u64` -/
def subU64 (a b : Nat) : Except Stop Nat := ensure (b ≤ a) .underflow *> pure (a - b)

theorem subU64_eq {a b : Nat} (h : b ≤ a) : subU64 a b = .ok (a - b) := by
  unfold subU64
  rw [ensure_eq h]
  rfl

/-- A canonical decimal spelling of an amount within the supply. -/
def exact (value : Value) : Option Nat := do
  let s ← value.asStr
  let n ← parseU64 s
  if n ≤ supply ∧ n.repr = s then some n else none

/-- The path belongs to a current, complete run on the assessed address. -/
def Framed (path data : Value) : Prop :=
  let frame := data["exposure_snapshot"]
  frame["contract"] = .string "bitcoin_exposure_v1" ∧ frame["current"] = .bool true ∧
  frame["network_id"] = data["network_id"] ∧ frame["address"] = data["address"] ∧
  path["network_id"] = frame["network_id"] ∧ path["asset_id"] = .string "native:BTC" ∧
  frame["source_snapshot_id"] = data["source_snapshot"]["snapshot_id"] ∧
  path["run_id"] = frame["run_id"] ∧ path["subject_id"] = data["address"] ∧
  path["attribution_method"] = method ∧ path["score_eligible"] = .bool true ∧
  path["fund_continuity_claimed"] = .bool false ∧ path["ownership_claimed"] = .bool false ∧
  (data.get "exposure_coverage").bind (·.get "truncated") ≠ some (.bool true) ∧
  path["path_id"] ∈ array (frame.get "path_ids")

instance (path data : Value) : Decidable (Framed path data) :=
  inferInstanceAs (Decidable (_ ∧ _))

/-- The seed is an approved, reviewed claim of its snapshot. -/
def Seeded (path : Value) : Prop :=
  let seed := path["seed_claim"]
  approvedLabel seed = true ∧ seed["is_exposure_seed"] = .bool true ∧
  seed["address"] = path["seed_address"] ∧
  bitcoinLabel seed path["seed_address"] path["seed_snapshot"] = true

instance (path : Value) : Decidable (Seeded path) := inferInstanceAs (Decidable (_ ∧ _))

/-! ## The loops -/

/-- The inputs of a hop read so far. -/
structure Selection where
  selected : Nat
  seen : List (String × Nat)
  ids : List Value

def Selection.add (sel : Selection) (input : Value) : Except Stop Selection := do
  let value ← context input["value"].asU64 .rejected
  let selected ← context (checkedAdd sel.selected value) .rejected
  let index ← context input["prev_output_index"].asU64 .rejected
  ensure ((text input["prev_tx_hash"], index) ∉ sel.seen) .rejected
  pure ⟨selected, (text input["prev_tx_hash"], index) :: sel.seen,
    sel.ids ++ [input["relationship_id"]]⟩

/-- The position of a hop, block first. -/
def position (hop : Value) : Option (Nat × Nat) := do
  let block ← hop["block_number"].asU64
  let index ← hop["transaction_index"].asU64
  some (block, index)

def Before (a b : Nat × Nat) : Prop := a.1 < b.1 ∨ (a.1 = b.1 ∧ a.2 < b.2)

instance (a b : Nat × Nat) : Decidable (Before a b) := inferInstanceAs (Decidable (_ ∨ _))

/-- The only input of a later hop is the output that the previous one follows. -/
def SpendsOutput (previous : Value) (inputs : List Value) : Prop :=
  ∃ input ∈ inputs.head?, inputs.length = 1 ∧
    input["prev_tx_hash"] = previous["tx_hash"] ∧
    input["prev_output_index"] = previous["output"]["index"] ∧
    input["value"] = previous["output"]["value"] ∧
    input["subject"] = previous["output"]["subject"]

instance (previous : Value) (inputs : List Value) : Decidable (SpendsOutput previous inputs) :=
  inferInstanceAs (Decidable (∃ input ∈ inputs.head?, _))

structure Check where
  previous : Option Value
  low : Nat
  high : Nat
  ids : List Value
  txs : List Value

/-- The bounds at the inputs of a hop: those selected by the first, those kept by a later one. -/
def Check.enter (check : Check) (hop : Value) (inputs : List Value) (selected : Nat) :
    Except Stop (Nat × Nat) :=
  match check.previous with
  | none => do
    ensure (∀ i ∈ inputs, i["subject"] = (inputs.headD .null)["subject"]) .rejected
    pure (selected, selected)
  | some previous => do
    ensure (SpendsOutput previous inputs) .rejected
    let before ← context (position previous) .rejected
    let here ← context (position hop) .rejected
    ensure (Before before here) .rejected
    pure (check.low, check.high)

def Check.step (check : Check) (hop step : Value) : Except Stop Check := do
  let inputs ← context hop["inputs"].asArray .rejected
  ensure (inputs ≠ [] ∧ inputs.length ≤ 2000) .rejected
  let sel ← inputs.foldlM Selection.add ⟨0, [], []⟩
  let (low, high) ← check.enter hop inputs sel.selected
  let total ← context (exact step["total_input_sats"]) .rejected
  let output ← context hop["output"]["value"].asU64 .rejected
  ensure (sel.selected ≤ total ∧ high ≤ sel.selected ∧ output ≤ total) .rejected
  let fee ← context (exact step["fee_sats"]) .rejected
  let others ← subU64 total output
  ensure (fee ≤ others) .rejected
  ensure (exact step["lower_input_sats"] = some low ∧ exact step["upper_input_sats"] = some high ∧
    exact step["output_sats"] = some output) .rejected
  let others ← subU64 total output
  ensure (exact step["lower_output_sats"] = some (low - others) ∧
    exact step["upper_output_sats"] = some (min high output)) .rejected
  pure ⟨some hop, low - others, min high output,
    check.ids ++ sel.ids ++ [hop["output"]["relationship_id"]], check.txs ++ [hop["tx_hash"]]⟩

/-! ## The whole check -/

/-- The path's own sums and lists agree with its hops. -/
def Totalled (path : Value) (check : Check) : Prop :=
  check.low ≠ 0 ∧ path["relationship_ids"] = .array check.ids ∧
  path["tx_hashes"] = .array check.txs ∧ exact path["amount_raw"] = some check.low ∧
  exact path["allocation"]["minimum_sats"] = some check.low ∧
  exact path["allocation"]["maximum_sats"] = some check.high

instance (path : Value) (check : Check) : Decidable (Totalled path check) :=
  inferInstanceAs (Decidable (_ ∧ _))

def fromSubject (first : Value) : String :=
  text ((first["inputs"].asArray.bind List.head?).getD .null)["subject"]

def toSubject (last : Value) : String := text last["output"]["subject"]

/-- The ends of the path are the seed and the assessed address, in its direction. -/
def Ends (path data first last : Value) : Prop :=
  if path["direction"] = .string "RECEIVED_FROM_SEED" then
    fromSubject first = text path["seed_address"] ∧ toSubject last = text data["address"]
  else path["direction"] = .string "SENT_TO_SEED" ∧
    fromSubject first = text data["address"] ∧ toSubject last = text path["seed_address"]

instance (path data first last : Value) : Decidable (Ends path data first last) := by
  unfold Ends; infer_instance

/-- The seed's validity covers the transaction next to it. -/
def checkValidity (seed edge : Value) : Except Stop Unit := do
  let at' ← context edge["timestamp_unix_ms"].asU64 .rejected
  let validFrom ← context seed["valid_from_unix_ms"].asU64 .rejected
  ensure (validFrom ≤ at') .rejected
  if seed["valid_to_unix_ms"] = .null then pure ()
  else do
    let validTo ← context seed["valid_to_unix_ms"].asU64 .rejected
    ensure (at' < validTo) .rejected

/-- The floating-point guard on share and score. -/
def checkStrength (F : FloatOps) (path last : Value) (low hops : Nat) : Except Stop Unit := do
  let seed := path["seed_claim"]
  let output ← context last["output"]["value"].asU64 .rejected
  let share := F.div (F.ofNat low) (F.ofNat (max output 1))
  let time ← context path["time_weight"].asF64 .rejected
  let confidence ← context seed["confidence"].asF64 .rejected
  let risk ← context seed["risk_level"].asU64 .rejected
  ensure (0 ≤ time ∧ time ≤ 1 ∧ 0 ≤ confidence ∧ confidence ≤ 1 ∧ risk ≠ 0 ∧ risk ≤ 100 ∧
    |F.sub (number path["amount_share"]) share| ≤ 1 / 10 ^ 12) .rejected
  let maximum := F.mul (F.mul (F.mul (F.div (F.mul confidence (F.ofNat risk)) 100) share)
    (F.powi (13 / 20) (hops - 1))) time
  ensure (number path["exposure_score"] ≤ F.add maximum (1 / 10 ^ 12)) .rejected

/-- The checks on the hops: the bounds and lists that they add up to. -/
def checkHops (hops steps : List Value) : Except Stop Check :=
  (hops.zip steps).foldlM (fun check hop => check.step hop.1 hop.2) ⟨none, 0, 0, [], []⟩

def bitcoinExposure (F : FloatOps) (path data : Value) : Except Stop Unit := do
  ensure (Framed path data) .rejected
  ensure (Seeded path) .rejected
  let hops ← context path["hops"].asArray .rejected
  let steps ← context path["allocation"]["steps"].asArray .rejected
  ensure (1 ≤ hops.length ∧ hops.length ≤ 5 ∧ steps.length = hops.length ∧
    path["hop_count"].asU64 = some hops.length ∧ path["allocation"]["method"] = method) .rejected
  let check ← checkHops hops steps
  ensure (Totalled path check) .rejected
  let first ← context hops.head? .rejected
  let last ← context hops.getLast? .rejected
  ensure (Ends path data first last) .rejected
  checkValidity path["seed_claim"]
    (if path["direction"] = .string "RECEIVED_FROM_SEED" then first else last)
  checkStrength F path last check.low hops.length

end AmlReal.RiskPolicy.BitcoinExposure
