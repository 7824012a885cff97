import AmlReal.Warehouse.Tables

/-! # Value rules of the two publication tables

`semantics::validate_row` on `aml_ingested_blocks` and `aml_sync_state`, rule
by rule in the order of the schema files. Column types are those of the row
structures, so what is left of the type check is the width of the integers
that carry a flag. -/

namespace AmlReal.Warehouse.Rules
open AmlReal.Warehouse.Values AmlReal.Warehouse.Tables

/-- One rule: the error names the table, the column and the kind of rule. -/
def rule (table column kind : String) (holds : Bool) : Except String Unit :=
  if holds then .ok ()
  else .error s!"column contract rejected {table}.{column} ({kind})"

def boolean (value : Option Nat) : Bool := value.all (· ≤ 1)

/-- `capability`: prevout coverage belongs to Bitcoin, the other two to account networks. -/
def capability (applicable : Bool) (value : Option Nat) : Bool := applicable || value.isNone

def validateBlockRow (row : BlockRow) : Except String Unit := do
  let check := rule "aml_ingested_blocks"
  let bitcoin := row.networkId == .bitcoin
  check "block_hash" "hash" (canonicalHash row.networkId row.blockHash)
  check "revision" "positive" (row.revision > 0)
  check "parent_hash" "parent_hash"
    ((row.blockNumber == 0 && row.parentHash == "") || canonicalHash row.networkId row.parentHash)
  check "canonical" "boolean" (boolean (some row.canonical))
  check "receipt_coverage" "boolean" (boolean row.receiptCoverage)
  check "receipt_coverage" "capability" (capability (!bitcoin) row.receiptCoverage)
  check "trace_coverage" "boolean" (boolean row.traceCoverage)
  check "trace_coverage" "capability" (capability (!bitcoin) row.traceCoverage)
  check "prevout_coverage" "boolean" (boolean row.prevoutCoverage)
  check "prevout_coverage" "capability" (capability bitcoin row.prevoutCoverage)
  check "commit_id" "nonempty" (row.commitId != "")

def validateState (row : State) : Except String Unit := do
  let check := rule "aml_sync_state"
  check "revision" "positive" (row.revision > 0)
  check "initialized" "boolean" (boolean (some row.initialized))
  check "last_block_hash" "state_hash"
    ((row.initialized == 0 && row.lastBlockHash == "") ||
      canonicalHash row.networkId row.lastBlockHash)

/-- `visibility::Snapshot::from_state` -/
def snapshotFromState (state : State) : Except String State :=
  if state.initialized > 1 then .error "invalid snapshot state"
  else if state.initialized = 1 then
    if state.revision > 0 ∧ state.startBlock ≤ state.lastBlockNumber ∧
        canonicalHash state.networkId state.lastBlockHash then .ok state
    else .error "invalid initialized snapshot"
  else if state.lastBlockNumber = 0 ∧ state.lastBlockHash = "" then .ok state
  else .error "uninitialized snapshot carries a tip"

theorem snapshotFromState_ok {state s : State} (h : snapshotFromState state = .ok s) :
    s = state ∧ state.initialized ≤ 1 ∧
      (state.initialized = 1 → 0 < state.revision ∧ state.startBlock ≤ state.lastBlockNumber) := by
  unfold snapshotFromState at h
  split at h
  · cases h
  · rename_i hle
    split at h
    · split at h
      · rename_i hok
        exact ⟨(Except.ok.inj h).symm, by omega, fun _ => ⟨hok.1, hok.2.1⟩⟩
      · cases h
    · rename_i hne
      split at h
      · exact ⟨(Except.ok.inj h).symm, by omega, fun h1 => absurd h1 hne⟩
      · cases h

end AmlReal.Warehouse.Rules
