import AmlReal.Foundations.Json
import AmlReal.Warehouse.Values

/-! # Evidence checks of the shared risk policy

The accessors of `risk_policy/lib.rs` and its two checks on attribution claims. -/

namespace AmlReal.RiskPolicy.Evidence
open AmlReal.Foundations.Json AmlReal.Warehouse.Values

def number (value : Value) : ℚ := value.asF64.getD 0

def text (value : Value) : String := value.asStr.getD ""

def array (value : Option Value) : List Value := (value.bind Value.asArray).getD []

def eqIgnoreAsciiCase (a b : String) : Bool := toAsciiLowercase a == toAsciiLowercase b

def approvedLabel (claim : Value) : Bool :=
  let refs := array (claim.get "evidence_refs")
  eqIgnoreAsciiCase (text claim["review_status"]) "approved" &&
    !blank (text claim["source_id"]) && !refs.isEmpty && refs.all fun r => !blank (text r)

/-- `bitcoin_label`, on the two fields of `data` that it reads. -/
def bitcoinLabel (claim address snapshot : Value) : Bool :=
  snapshot["contract"] = .string "bitcoin_intelligence_v1" ∧
  snapshot["network_id"] = .string Network.bitcoin.id ∧
  snapshot["address"] = address ∧
  snapshot["snapshot_id"].asStr.any (fun id => hex id 64) ∧
  claim["network_id"] = snapshot["network_id"] ∧
  claim["address"] = address ∧
  claim["active"] = .bool true ∧
  !blank (text claim["reviewed_by"]) ∧
  claim["reviewed_at_unix_ms"].asU64.isSome

end AmlReal.RiskPolicy.Evidence
