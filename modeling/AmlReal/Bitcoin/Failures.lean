import Mathlib.Data.List.Sort
import AmlReal.Foundations.LatestRows
import AmlReal.Foundations.StoreProgram
import AmlReal.Warehouse.Rules

/-! # The failure store of Bitcoin ingestion

`bitcoin/failures.rs`: one record for each block height, replaced by rows of
higher revisions and read by the latest one. The canonical state that some of
the operations look at belongs to other tables and is an argument here.
`clock i` is the reading of the clock that an operation takes as its `i`-th. -/

namespace AmlReal.Bitcoin.Failures
open AmlReal.Foundations.Json AmlReal.Foundations.LatestRows
open AmlReal.Foundations.StoreProgram AmlReal.Foundations.StoreProgram.Program
open AmlReal.Foundations.Checks (context)
open AmlReal.Warehouse.Values AmlReal.Warehouse.Rules

structure Policy where
  maxAttempts : Nat
  retrySeconds : Nat

def Policy.validate (policy : Policy) : Except String Unit :=
  AmlReal.Foundations.Checks.ensure
    ((1 ≤ policy.maxAttempts ∧ policy.maxAttempts ≤ 1000) ∧
      (1 ≤ policy.retrySeconds ∧ policy.retrySeconds ≤ 3600)) "invalid failure retry policy"

/-- The states of the column's enumeration. -/
inductive Status where
  | retry
  | deadLetter
  | repairing
  | gap
  | resolved
  deriving DecidableEq

structure Record where
  networkId : String
  failureId : String
  blockNumber : Nat
  blockHash : Option String
  operation : String
  status : Status
  attempts : Nat
  errorCode : String
  errorMessage : String
  nextAttemptUnixMs : Nat
  revision : Nat
  createdAtUnixMs : Nat
  txHash : Option String
  retryable : Option Nat
  firstFailedAtUnixMs : Option Nat
  lastFailedAtUnixMs : Option Nat
  resolvedAtUnixMs : Option Nat
  rawEvidenceJson : Value
  deriving DecidableEq

inductive Stage where
  | source
  | fetch
  | resolve
  | commit
  | reconcile
  | gap

/-- The operation, the error code and the message of a stage. -/
def Stage.description : Stage → String × String × String
  | .source => ("source", "rpc_source_unavailable",
    "RPC identity, height or checkpoint verification failed at the next unpublished block.")
  | .fetch => ("fetch_window", "block_window_unavailable",
    "Fetching or validating the bounded block window failed; this is the blocked frontier, not an inferred bad block.")
  | .resolve => ("resolve", "block_evidence_unavailable",
    "Prevout resolution, block continuity or evidence validation failed; no facts for this block were published.")
  | .commit => ("commit", "publication_uncertain",
    "A database write or publication check failed; inspect canonical state before retrying.")
  | .reconcile => ("reconcile", "reorg_reconciliation_failed",
    "Primary chain reconciliation failed; operator recovery may be required.")
  | .gap => ("gap", "historical_gap",
    "Published block continuity or transaction count is incomplete; independent replay is required.")

/-- The identifier of the failure at a height. -/
def id (height : Nat) : String := "bitcoin:block:" ++ height.repr

def u32Max : Nat := 2 ^ 32 - 1

def revision (previous timestamp : Nat) : Except String Nat := do
  let next ← context (checkedAdd previous 1) "failure revision overflow"
  let floor ← context (if timestamp * 1000 < u64Size then some (timestamp * 1000) else none)
    "failure clock overflow"
  pure (max next floor)

def increment (value : Nat) : Except String Nat :=
  context (if value + 1 ≤ u32Max then some (value + 1) else none)
    "failure attempt counter overflow"

/-! ## The table -/

structure Store where
  identity : String
  failures : List Record

instance : LogStore Store (List Record) where
  append db rows := { db with failures := db.failures ++ rows }

abbrev Writer := Program Store (List Record) String

def Store.empty (identity : String) : Store := ⟨identity, []⟩

/-- `aml_ingestion_failures_current` -/
def failuresCurrent (db : Store) : List Record :=
  latest (fun r => (r.networkId, r.failureId)) Record.revision db.failures

def validateRow (row : Record) : Except String Unit := do
  let check := rule "aml_ingestion_failures"
  check "network_id" "network"
    (row.networkId ∈ [Network.tron, .ethereum, .bsc, .bitcoin].map Network.id)
  check "failure_id" "nonempty" (row.failureId != "")
  check "block_hash" "hash" (row.blockHash.all (canonicalHash .bitcoin))
  check "revision" "positive" (row.revision > 0)
  check "tx_hash" "hash" (row.txHash.all (canonicalHash .bitcoin))
  check "retryable" "boolean" (boolean row.retryable)

/-- `publication::insert` on the table. -/
def save (rows : List Record) : Writer Unit := do
  lift (rows.forM validateRow)
  let identity ← read Store.identity
  ensure (∀ row ∈ rows, row.networkId = identity) "warehouse insert belongs to another network"
  (chunks 1000 rows).forM fun rows => write rows

def current (height : Nat) : Writer (Option Record) := do
  ensure (height ≤ u32Max) "failure height out of range"
  read fun db => ((failuresCurrent db).filter fun r =>
    r.networkId = Network.bitcoin.id ∧ r.failureId = id height).getLast?

/-! ## Operations -/

def Record.lastFailure (row : Record) : Nat := row.lastFailedAtUnixMs.getD 0

/-- The row of `record`. -/
def failed (policy : Policy) (height : Nat) (hash : Option String) (stage : Stage)
    (old : Option Record) (attempts now revision : Nat) : Record where
  networkId := Network.bitcoin.id
  failureId := id height
  blockNumber := height
  blockHash := hash
  operation := stage.description.1
  status := if attempts ≥ policy.maxAttempts then .deadLetter else .retry
  attempts := attempts
  errorCode := stage.description.2.1
  errorMessage := stage.description.2.2
  nextAttemptUnixMs :=
    if attempts ≥ policy.maxAttempts then 0 else now + policy.retrySeconds * 1000
  revision := revision
  createdAtUnixMs := (old.map (·.createdAtUnixMs)).getD now
  txHash := old.bind (·.txHash)
  retryable := some (if attempts < policy.maxAttempts then 1 else 0)
  firstFailedAtUnixMs := (old.map (·.firstFailedAtUnixMs)).getD (some now)
  lastFailedAtUnixMs := some (max now ((old.map Record.lastFailure).getD 0))
  resolvedAtUnixMs := none
  rawEvidenceJson := .object [("operation", .string stage.description.1),
    ("error_code", .string stage.description.2.1), ("attempts", .ofNat attempts),
    ("max_attempts", .ofNat policy.maxAttempts)]

/-- The attempts of a recorded failure: counted now, or reserved by a repair before. -/
def countedAttempts (old : Option Record) (countAttempt : Bool) : Except String Nat :=
  if countAttempt then increment ((old.map (·.attempts)).getD 0)
  else (·.attempts) <$> context old "repair attempt was not reserved"

def record (height : Nat) (hash : Option String) (stage : Stage) (policy : Policy)
    (countAttempt : Bool) (clock : Nat → Nat) : Writer Record := do
  lift policy.validate
  let old ← current height
  let attempts ← lift (countedAttempts old countAttempt)
  let hash ← lift (hash.mapM (normalizeHash .bitcoin))
  let revision ← lift (revision ((old.map (·.revision)).getD 0) (clock 1))
  let row := failed policy height hash stage old attempts (clock 0) revision
  save [row]
  pure row

/-- The row of `resolved`. -/
def Record.resolve (row : Record) (hash : String) (attempts now revision : Nat) : Record :=
  { row with
    blockHash := some hash, status := .resolved,
    resolvedAtUnixMs := some (max now row.lastFailure), retryable := some 0,
    nextAttemptUnixMs := 0, attempts, revision }

def resolved (height : Nat) (hash : String) (countAttempt : Bool) (clock : Nat → Nat) :
    Writer Unit := do
  match ← current height with
  | none => pure ()
  | some row =>
    when (row.status ≠ .resolved) do
      let hash ← lift (normalizeHash .bitcoin hash)
      let attempts ← lift (if countAttempt then increment row.attempts else .ok row.attempts)
      let revision ← lift (revision row.revision (clock 1))
      save [row.resolve hash attempts (clock 0) revision]

def beginRepair (height : Nat) (clock : Nat → Nat) : Writer Record := do
  let old ← current height
  let row ← lift (context old "selected failure does not exist")
  ensure (row.status ≠ .resolved) "selected failure is already resolved"
  let attempts ← lift (increment row.attempts)
  let revision ← lift (revision row.revision (clock 0))
  let row := { row with
    status := .repairing, resolvedAtUnixMs := none, attempts, nextAttemptUnixMs := 0, revision }
  save [row]
  pure row

/-- The row of `mark_gap` and `scan_gaps`. -/
def gapRow (height : Nat) (hash : Option String) (old : Option Record)
    (revision created first last : Nat) : Record where
  networkId := Network.bitcoin.id
  failureId := id height
  blockNumber := height
  blockHash := hash
  operation := "gap"
  status := .gap
  attempts := (old.map (·.attempts)).getD 0
  errorCode := Stage.gap.description.2.1
  errorMessage := Stage.gap.description.2.2
  nextAttemptUnixMs := 0
  revision := revision
  createdAtUnixMs := (old.map (·.createdAtUnixMs)).getD created
  txHash := old.bind (·.txHash)
  retryable := some 0
  firstFailedAtUnixMs := (old.map (·.firstFailedAtUnixMs)).getD (some first)
  lastFailedAtUnixMs := some (max last ((old.map Record.lastFailure).getD 0))
  resolvedAtUnixMs := none
  rawEvidenceJson := .object [("operation", .string "gap"), ("replay_required", .bool true)]

def markGap (height : Nat) (hash : Option String) (clock : Nat → Nat) : Writer Unit := do
  let old ← current height
  let revision ← lift (revision ((old.map (·.revision)).getD 0) (clock 1))
  save [gapRow height hash old revision (clock 0) (clock 0) (clock 0)]

def gate (height : Nat) (policy : Policy) (once : Bool) (clock : Nat → Nat) :
    Writer (Option String) := do
  match ← current height with
  | none => pure none
  | some row =>
    if row.status = .resolved then pure none
    else if row.status = .gap then pure (some "historical_gap")
    else if row.status = .deadLetter then pure (some "dead_letter")
    else if row.attempts ≥ policy.maxAttempts then do
      let revision ← lift (revision row.revision (clock 0))
      save [{ row with status := .deadLetter, nextAttemptUnixMs := 0, revision }]
      pure (some "dead_letter")
    else if once = false ∧ row.nextAttemptUnixMs > clock 0 then pure (some "retry_not_due")
    else pure none

/-- The rows that `recover_interrupted` selects. -/
def interrupted (db : Store) : List Record :=
  (((failuresCurrent db).filter fun r =>
    r.networkId = Network.bitcoin.id ∧ r.status = .repairing).insertionSort fun a b =>
      a.blockNumber ≤ b.blockNumber).take 1000

def Record.interrupt (policy : Policy) (row : Record) (clock : Nat → Nat) :
    Except String Record := do
  let revision ← Failures.revision row.revision (clock 2)
  pure { row with
    status := if row.attempts ≥ policy.maxAttempts then .deadLetter else .retry
    errorCode := "interrupted_repair"
    retryable := some (if row.attempts < policy.maxAttempts then 1 else 0)
    lastFailedAtUnixMs := some (max (clock 0) row.lastFailure)
    resolvedAtUnixMs := none
    rawEvidenceJson := .object [("operation", .string "repair"),
      ("error_code", .string "interrupted_repair"), ("attempts", .ofNat row.attempts),
      ("max_attempts", .ofNat policy.maxAttempts)]
    errorMessage :=
      "Previous repair ended before its outcome was recorded; canonical state must be checked."
    nextAttemptUnixMs := clock 1
    revision }

def recoverInterrupted (policy : Policy) (clock : Nat → Nat) : Writer Unit := do
  let rows ← read interrupted
  let rows ← lift (rows.zipIdx.mapM fun (row, i) =>
    row.interrupt policy fun j => clock (3 * i + j))
  save rows

/-- The parts of the synchronization state that are looked at. -/
structure SyncState where
  initialized : Nat
  startHeight : Nat
  tipHeight : Nat
  tipHash : String
  revision : Nat

/-- The rows that `settle_published` selects. -/
def unsettled (state : SyncState) (db : Store) : List Record :=
  (((failuresCurrent db).filter fun r => r.networkId = Network.bitcoin.id ∧
    r.status ∈ [.retry, .deadLetter, .repairing] ∧ state.startHeight ≤ r.blockNumber ∧
    r.blockNumber ≤ state.tipHeight).insertionSort fun a b => b.blockNumber ≤ a.blockNumber).take 64

def settlePublished (state : SyncState) (blockHash : Nat → Option String) (clock : Nat → Nat) :
    Writer Unit :=
  when (state.initialized ≠ 0) do
    let rows ← read (unsettled state)
    rows.zipIdx.forM fun (row, i) =>
      match blockHash row.blockNumber with
      | some hash => resolved row.blockNumber hash false fun j => clock (2 * i + j)
      | none => pure ()

/-- A canonical block as the gap scan reads it. -/
structure BlockRow where
  blockNumber : Nat
  blockHash : String
  parentHash : String
  transactionCount : Nat

/-- What the gap scan reads from the other tables, before and after its loop. -/
structure Published where
  state : SyncState
  blocks : Nat → Option BlockRow
  counts : Nat → Option Nat
  blockHash : Nat → Option String
  revisionAfter : Nat

def Published.healthy (published : Published) (parent : Option String) (height : Nat) : Bool :=
  (published.blocks height).any fun b =>
    published.counts height = some b.transactionCount ∧ parent.all (· = b.parentHash) ∧
    (height ≠ published.state.tipHeight ∨ published.state.tipHash = b.blockHash)

/-- The gap rows of the next `count` heights. -/
def gapRows (published : Published) (old : Nat → Option Record) (clock : Nat → Nat → Nat) :
    Nat → Nat → Option String → Except String (List Record)
  | _, 0, _ => .ok []
  | height, count + 1, parent => do
    let block := published.blocks height
    let next := gapRows published old clock (height + 1) count (block.map (·.blockHash))
    if published.healthy parent height then next
    else do
      let revision ← revision (((old height).map (·.revision)).getD 0) (clock height 0)
      let rows ← next
      pure (gapRow height (block.map (·.blockHash)) (old height) revision (clock height 1)
        (clock height 2) (clock height 3) :: rows)

/-- `scan_gaps` -/
def scanGaps (published : Published) (start stop maxBlocks : Nat) (clock : Nat → Nat → Nat) :
    Writer Value := do
  ensure ((1 ≤ maxBlocks ∧ maxBlocks ≤ 10000) ∧ start ≤ stop ∧ stop ≤ u32Max ∧
    stop - start < maxBlocks) "gap scan must contain 1..max-blocks heights, max-blocks <= 10000"
  let state := published.state
  ensure (state.initialized = 1 ∧ state.startHeight ≤ start ∧ stop ≤ state.tipHeight)
    "gap scan must stay inside published history"
  let old ← read fun db => (failuresCurrent db).filter fun r =>
    r.networkId = Network.bitcoin.id ∧ start ≤ r.blockNumber ∧ r.blockNumber ≤ stop
  let parent := if start > state.startHeight then published.blockHash (start - 1) else none
  let rows ← lift (gapRows published (fun height => (old.filter (·.blockNumber = height)).getLast?)
    clock start (stop - start + 1) parent)
  ensure (published.revisionAfter = state.revision) "checkpoint changed during gap scan; retry"
  save rows
  let ids := rows.map (·.failureId)
  pure (.object [("network_id", .string Network.bitcoin.id), ("from_block", .ofNat start),
    ("to_block", .ofNat stop), ("scanned_blocks", .ofNat (stop - start + 1)),
    ("gaps_found", .ofNat ids.length), ("failure_ids", .array ((ids.take 200).map .string)),
    ("truncated", .bool (ids.length > 200)), ("checkpoint_changed", .bool false),
    ("historical_gaps_require_replay", .bool true)])

/-! ## Runs -/

inductive Operation where
  | record (height : Nat) (hash : Option String) (stage : Stage) (policy : Policy)
      (countAttempt : Bool) (clock : Nat → Nat)
  | resolved (height : Nat) (hash : String) (countAttempt : Bool) (clock : Nat → Nat)
  | beginRepair (height : Nat) (clock : Nat → Nat)
  | markGap (height : Nat) (hash : Option String) (clock : Nat → Nat)
  | gate (height : Nat) (policy : Policy) (once : Bool) (clock : Nat → Nat)
  | recoverInterrupted (policy : Policy) (clock : Nat → Nat)
  | settlePublished (state : SyncState) (blockHash : Nat → Option String) (clock : Nat → Nat)
  | scanGaps (published : Published) (start stop maxBlocks : Nat) (clock : Nat → Nat → Nat)

def Operation.program : Operation → Writer Unit
  | .record height hash stage policy countAttempt clock => do
    let _ ← Failures.record height hash stage policy countAttempt clock
  | .resolved height hash countAttempt clock => Failures.resolved height hash countAttempt clock
  | .beginRepair height clock => do
    let _ ← Failures.beginRepair height clock
  | .markGap height hash clock => Failures.markGap height hash clock
  | .gate height policy once clock => do
    let _ ← Failures.gate height policy once clock
  | .recoverInterrupted policy clock => Failures.recoverInterrupted policy clock
  | .settlePublished state blockHash clock => Failures.settlePublished state blockHash clock
  | .scanGaps published start stop maxBlocks clock => do
    let _ ← Failures.scanGaps published start stop maxBlocks clock

/-- The policy that an operation runs under. -/
def Operation.policy : Operation → Option Policy
  | .record _ _ _ policy _ _ | .gate _ policy _ _ | .recoverInterrupted policy _ => some policy
  | _ => none

end AmlReal.Bitcoin.Failures
