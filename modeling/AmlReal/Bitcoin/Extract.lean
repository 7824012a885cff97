import AmlReal.Bitcoin.Transactions

/-! # Evidence of a decoded block

`domain/model.rs`: the rows of transactions, outputs and inputs that a block as
Bitcoin Core decodes it gives. Scripts and decimal amounts are read by the
Bitcoin library, which is a parameter. Indexes are positions in the block's
arrays, which a block is far too small to number beyond `u32`. -/

namespace AmlReal.Bitcoin.Extract
open AmlReal.Foundations.Checks AmlReal.Foundations.Json AmlReal.Warehouse.Values
open AmlReal.Bitcoin.Transactions

/-- What the code takes from the `bitcoin` crate. -/
structure ScriptLibrary where
  /-- `ScriptBuf::from_hex`, and for a script the mainnet address `from_script` derives. -/
  addressOf : String → Option (Option String)
  /-- `Amount::from_str_in` at the denomination of a bitcoin, in satoshis. -/
  amount : String → Option Nat

structure ScriptOutput where
  address : String
  scriptHex : String
  scriptType : String
  valueSats : Nat
  deriving DecidableEq

structure Transaction where
  commitId : String
  blockHeight : Nat
  blockHash : String
  blockTime : Nat
  txid : String
  txIndex : Nat
  coinbase : Nat
  inputCount : Nat
  outputCount : Nat
  outputSats : Nat
  feeSats : Nat
  deriving DecidableEq

structure Output where
  commitId : String
  blockHeight : Nat
  blockHash : String
  blockTime : Nat
  txid : String
  txIndex : Nat
  outputIndex : Nat
  coinbase : Nat
  output : ScriptOutput
  deriving DecidableEq

structure Input where
  commitId : String
  blockHeight : Nat
  blockHash : String
  blockTime : Nat
  txid : String
  txIndex : Nat
  inputIndex : Nat
  prevTxid : String
  prevVout : Nat
  output : ScriptOutput
  deriving DecidableEq

structure Evidence where
  transactions : List Transaction
  outputs : List Output
  inputs : List Input
  deriving DecidableEq

def outpoint (txid : String) (n : Nat) : String := s!"{txid}:{n}"

section
variable (scripts : ScriptLibrary)

/-- The digits of a decimal value: a string as it is, a number in its own spelling. -/
def decimalText (value : Value) : Except String String :=
  match value with
  | .string text => .ok text
  | .number (.natural n) => .ok n.repr
  | .number (.other text _) => .ok text
  | _ => .error "BTC value must be a decimal number"

def satoshis (value : Value) : Except String Nat := do
  let decimal ← decimalText value
  let amount ← context (scripts.amount decimal) "invalid BTC value"
  ensure (amount ≤ supply) "BTC value exceeds total supply"
  pure amount

def ScriptOutput.fromRpc (value : Value) : Except String ScriptOutput := do
  let script ← context (value.get "scriptPubKey") "missing scriptPubKey"
  let hex ← context script["hex"].asStr "missing script hex"
  let address ← context (scripts.addressOf hex) "invalid script hex"
  let sats ← satoshis scripts value["value"]
  pure ⟨address.getD "", toAsciiLowercase hex, script["type"].asStr.getD "unknown", sats⟩

/-- The columns that all rows of one block share. -/
structure Site where
  commitId : String
  height : Nat
  blockHash : String
  time : Nat

/-- A transaction of the block under its normalized id. -/
structure Place where
  txid : String
  index : Nat
  coinbase : Nat

/-- The variables of the loop over the transactions. -/
structure Extraction where
  evidence : Evidence
  available : List (String × ScriptOutput)
  spent : List String

/-- The output an input spends: one known by its outpoint, or the one the node reports. -/
def resolve (available : List (String × ScriptOutput)) (key : String) (input : Value) :
    Except String ScriptOutput :=
  match available.lookup key with
  | some found => .ok found
  | none => do
    let prevout ← context (input.get "prevout")
      "unresolved input; need prevout data or txindex=1"
    ScriptOutput.fromRpc scripts prevout

variable (site : Site) (place : Place)

def extractInput (s : Extraction × Nat) (input : Value × Nat) :
    Except String (Extraction × Nat) := do
  let raw ← context input.1["txid"].asStr "missing prevout txid"
  let previous ← normalizeHash .bitcoin raw
  let vout ← context input.1["vout"].asU64 "missing prevout index"
  let n ← u32 vout
  ensure (outpoint previous n ∉ s.1.spent) "duplicate input outpoint in block"
  let output ← resolve scripts s.1.available (outpoint previous n) input.1
  let total ← context (checkedAdd s.2 output.valueSats) "input amount overflow"
  pure (⟨{ s.1.evidence with inputs := s.1.evidence.inputs ++
      [⟨site.commitId, site.height, site.blockHash, site.time, place.txid, place.index, input.2,
        previous, n, output⟩] }, s.1.available, outpoint previous n :: s.1.spent⟩, total)

def extractOutput (s : Extraction × Nat) (vout : Value × Nat) :
    Except String (Extraction × Nat) := do
  ensure (vout.1["n"].asU64 = some vout.2) "non-contiguous output indexes"
  let output ← ScriptOutput.fromRpc scripts vout.1
  let total ← context (checkedAdd s.2 output.valueSats) "output amount overflow"
  pure (⟨{ s.1.evidence with outputs := s.1.evidence.outputs ++
      [⟨site.commitId, site.height, site.blockHash, site.time, place.txid, place.index, vout.2,
        place.coinbase, output⟩] },
    (outpoint place.txid vout.2, output) :: s.1.available, s.1.spent⟩, total)

end

def isCoinbase (index : Nat) (vin : List Value) : Bool :=
  index == 0 && vin.length == 1 && vin.any fun input => (input.get "coinbase").isSome

/-- `checked_sub` -/
def checkedSub (a b : Nat) : Option Nat := if b ≤ a then some (a - b) else none

def feeOf (coinbase inputTotal outputTotal : Nat) : Except String Nat :=
  if coinbase = 1 then .ok 0
  else context (checkedSub inputTotal outputTotal) "outputs exceed resolved inputs"

section
variable (scripts : ScriptLibrary) (site : Site)

def extractTransaction (s : Extraction) (tx : Value × Nat) : Except String Extraction := do
  let raw ← context tx.1["txid"].asStr "missing txid"
  let txid ← normalizeHash .bitcoin raw
  let vin ← context tx.1["vin"].asArray "missing inputs"
  let vout ← context tx.1["vout"].asArray "missing outputs"
  ensure (vin ≠ [] ∧ vout ≠ []) "empty transaction"
  let coinbase := if isCoinbase tx.2 vin then 1 else 0
  ensure (tx.2 = 0 ↔ coinbase = 1) "invalid coinbase position"
  let place : Place := ⟨txid, tx.2, coinbase⟩
  let (s, inputTotal) ← (if coinbase = 0 then vin.zipIdx else []).foldlM
    (extractInput scripts site place) (s, 0)
  let (s, outputTotal) ← vout.zipIdx.foldlM (extractOutput scripts site place) (s, 0)
  let fee ← feeOf coinbase inputTotal outputTotal
  pure ⟨{ s.evidence with transactions := s.evidence.transactions ++
      [⟨site.commitId, site.height, site.blockHash, site.time, txid, tx.2, coinbase, vin.length,
        vout.length, outputTotal, fee⟩] }, s.available, s.spent⟩

end

def extract (scripts : ScriptLibrary) (block : Value) (commitId : String)
    (resolved : List (String × ScriptOutput)) : Except String Evidence := do
  let height ← context block["height"].asU64 "missing block height"
  let raw ← context block["hash"].asStr "missing block hash"
  let blockHash ← normalizeHash .bitcoin raw
  let time ← context block["time"].asU64 "missing block timestamp"
  let transactions ← context block["tx"].asArray "getblock must return decoded transactions"
  ensure (transactions ≠ []) "empty Bitcoin block"
  let final ← transactions.zipIdx.foldlM (extractTransaction scripts ⟨commitId, height, blockHash, time⟩)
    ⟨⟨[], [], []⟩, resolved, []⟩
  pure final.evidence

end AmlReal.Bitcoin.Extract
