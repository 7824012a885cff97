import AmlReal.Foundations.SubStore
import AmlReal.Bitcoin.GapScan
import AmlReal.Bitcoin.Reconcile

/-! # The ingestion loop of Bitcoin

`run_owned` and `commit` of `bitcoin/ingestion.rs` and `blocks` of `bitcoin/fetch.rs`.
One database holds the warehouse and the failure records. What the nodes, the
resolver and the clocks answer is an argument: a run is followed through as
many passes of its loop as there are rounds, and each call of a node may be
answered differently. Sleeping and printing are left out, and so are the row
checks of the reads of `settle_published`. -/

namespace AmlReal.Bitcoin.IngestionLoop
open AmlReal.Foundations.Json AmlReal.Foundations.StoreProgram
open AmlReal.Foundations.StoreProgram.Program AmlReal.Foundations.SubStore
open AmlReal.Foundations.Checks (context)
open AmlReal.Warehouse.Values AmlReal.Warehouse.Tables AmlReal.Warehouse.Publication
open AmlReal.Bitcoin.Writer (MappedEvidence writeBlock)
open AmlReal.Bitcoin.Failures (Policy Record Stage u32Max)

/-! ## Settings -/

/-- `end` of the source is `last`. -/
structure IngestConfig where
  start : Nat
  last : Option Nat
  confirmations : Nat
  reorgDepth : Nat
  verbosity : Nat

structure PipelineConfig where
  blockBatch : Nat
  blockConcurrency : Nat
  prevoutBatch : Nat
  prevoutConcurrency : Nat
  maxPrevouts : Nat
  maxResolvedBytes : Nat
  fallbackCooldownSeconds : Nat

def PipelineConfig.validate (tuning : PipelineConfig) : Except String Unit :=
  AmlReal.Foundations.Checks.ensure
    ((1 ≤ tuning.blockBatch ∧ tuning.blockBatch ≤ 8) ∧
      (1 ≤ tuning.blockConcurrency ∧ tuning.blockConcurrency ≤ 4) ∧
      (1 ≤ tuning.prevoutBatch ∧ tuning.prevoutBatch ≤ 256) ∧
      (1 ≤ tuning.prevoutConcurrency ∧ tuning.prevoutConcurrency ≤ 4) ∧
      (1 ≤ tuning.maxPrevouts ∧ tuning.maxPrevouts ≤ 500000) ∧
      (1024 ≤ tuning.maxResolvedBytes ∧ tuning.maxResolvedBytes ≤ 128 * 1024 * 1024) ∧
      (1 ≤ tuning.fallbackCooldownSeconds ∧ tuning.fallbackCooldownSeconds ≤ 600))
    "invalid Bitcoin pipeline bounds"

structure RunOptions where
  once : Bool
  repairHeight : Option Nat
  policy : Policy

/-! ## The database -/

structure Store where
  warehouse : Database
  failures : Failures.Store

/-- A block as it was served: by which endpoint, under which head, and when
the gate of its height was asked. -/
structure Served where
  endpoint : Nat
  head : Nat
  gateClock : Nat
  block : Value
  deriving DecidableEq

/-- An insert, with the part of the loop that makes it. The database keeps the
insert alone. -/
inductive Write where
  | failures (rows : List Record)
  | publishing (served : Served) (insert : Insert)
  | rewinding (endpoint : Nat) (insert : Insert)
  deriving DecidableEq

instance : LogStore Store Write where
  append db
    | .failures rows => { db with failures := LogStore.append db.failures rows }
    | .publishing _ w | .rewinding _ w =>
      { db with warehouse := LogStore.append db.warehouse w }

abbrev Owner := Program Store Write String

def onFailures {α : Type} : Failures.Writer α → Owner α := within Store.failures .failures

def tip (db : Store) : State := currentState .bitcoin db.warehouse

/-! ## What the nodes answer -/

/-- What a reading of the clock is for; blocks are counted within their window. -/
inductive Use where
  | source
  | reconcile
  | reconcileFailure
  | fetch
  | gate (position : Nat)
  | resolve (position : Nat)
  | commit (position : Nat)
  | commitFailure (position : Nat)
  | resolved (position : Nat)

/-- What one endpoint, and the resolver on it, answer while it is tried. -/
structure Answers (ρ : Type) where
  validateChain : Except String Unit
  height : Except String Nat
  tipHash : Except String String
  reconcileTip : Nat → Except String String
  reconcileSearch : Nat → Except String String
  reconcileReset : Nat → Except String String
  hashes : List Nat → Except String (List Value)
  block : String → Except String Value
  hashesAfter : List Nat → Except String (List Value)
  resolve : Nat → Value → Except String ρ
  blockHash : Nat → Except String String
  clock : Use → Nat → Nat

/-- One pass of the loop: the clocks it reads and the answers of each endpoint. -/
structure Round (ρ : Type) where
  gateClock : Nat → Nat
  now : Nat
  later : Nat
  endpoint : Nat → Answers ρ

/-- What the run finds before its loop. -/
structure Opening where
  ready : Except String Unit
  migrationReady : Except String Unit
  recoverClock : Nat → Nat
  settleClock : Nat → Nat

/-! ## Fetching a window -/

/-- The identities of a window, and the links between neighbours. -/
def checkWindow : Option Value → List (Nat × String × Value) → Except String Unit
  | _, [] => .ok ()
  | parent, (height, hash, block) :: rest => do
    AmlReal.Foundations.Checks.ensure
      (block["height"].asU64 = some height ∧ block["hash"].asStr = some hash) "RPC block identity mismatch"
    AmlReal.Foundations.Checks.ensure (∀ hash ∈ parent, block["previousblockhash"] = hash)
      "non-contiguous RPC window"
    checkWindow (some block["hash"]) rest

section
variable {ρ : Type}

/-- `fetch::blocks`; `jsonBytes` is the length of a value's JSON text. The blocks come
back in any order and are sorted by height. -/
def blocks (jsonBytes : Value → Nat) (rpc : Answers ρ) (start last limit concurrency : Nat) :
    Except String (List Value) := do
  AmlReal.Foundations.Checks.ensure (start ≤ last ∧ last ≤ u32Max ∧ (1 ≤ limit ∧ limit ≤ 8) ∧
    (1 ≤ concurrency ∧ concurrency ≤ 4)) "invalid block fetch bounds"
  let heights := List.range' start (min last (start + limit - 1) + 1 - start)
  let values ← rpc.hashes heights
  let hashes ← values.mapM fun value => do
    normalizeHash .bitcoin (← context value.asStr "invalid block hash")
  let fetched ← (heights.zip hashes).mapM fun job => do
    pure (job.1, job.2, ← rpc.block job.2)
  AmlReal.Foundations.Checks.ensure
    (fetched.foldl (fun retained job => retained + jsonBytes job.2.2) 0 ≤ 128 * 1024 * 1024)
    "block window exceeds 128 MiB JSON evidence budget; reduce block batch size"
  checkWindow none fetched
  let current ← rpc.hashesAfter heights
  AmlReal.Foundations.Checks.ensure
    ((current.zip hashes).all fun pair => decide (pair.1.asStr = some pair.2))
    "chain changed during block fetch; discard window"
  pure (fetched.map fun job => job.2.2)

/-! ## Committing a block -/

/-- The evidence of a block: how many transactions it has, and what the writer
does with it. -/
structure Evidence where
  transactions : Nat
  mapped : MappedEvidence

/-- The height that follows the tip. -/
def nextHeight (config : IngestConfig) (state : State) : Nat :=
  if state.initialized = 1 then state.lastBlockNumber + 1 else config.start

variable (extract : Value → String → ρ → Except String Evidence)

/-- `commit` -/
def commit (config : IngestConfig) (old : State) (block : Value) (resolved : ρ) (observed now : Nat) :
    Warehouse.Publication.Writer State := do
  let height ← lift (context block["height"].asU64 "missing block height")
  ensure (height = nextHeight config old) "non-contiguous block ingestion"
  ensure (old.initialized = 1 → block["previousblockhash"].asStr = some old.lastBlockHash)
    "block parent changed"
  let hash ← lift (context block["hash"].asStr "missing hash")
  let commitId := s!"rpc-{hash}"
  let evidence ← lift (extract block commitId resolved)
  let time ← lift (context block["time"].asU64 "missing block timestamp")
  ensure (evidence.transactions ≤ u32Max) "out of range integral type conversion attempted"
  writeBlock old
    { blockHeight := height
      blockHash := hash
      parentHash := block["previousblockhash"].asStr.getD ""
      blockTime := time
      commitId
      transactionCount := evidence.transactions }
    evidence.mapped ⟨observed, config.start, "bitcoin_core_rpc", false⟩ now

/-- `reconcile`, each of whose calls the node may answer differently. -/
def reconcileWith (rpc : Answers ρ) (state : State) (reorgDepth head now : Nat) :
    Warehouse.Publication.Writer State :=
  if state.initialized = 0 then pure state
  else do
    let same ← lift (Reconcile.tipAgrees rpc.reconcileTip state head)
    if same then pure state
    else do
      let floor := Reconcile.floorOf state reorgDepth
      let ancestor ← Reconcile.findAncestor rpc.reconcileSearch floor (min state.lastBlockNumber head + 1 - floor)
      Reconcile.resetTo rpc.reconcileReset state reorgDepth head now ancestor

/-- It is `reconcile` when the node answers a height always the same. -/
theorem reconcileWith_eq (rpc : Answers ρ) (h : rpc.reconcileSearch = rpc.reconcileTip)
    (h' : rpc.reconcileReset = rpc.reconcileTip) (state : State) (reorgDepth head now : Nat) :
    reconcileWith rpc state reorgDepth head now =
      Reconcile.reconcile rpc.reconcileTip state reorgDepth head now := by
  unfold reconcileWith Reconcile.reconcile
  rw [h, h']

/-! ## One endpoint -/

/-- `visibility::confirmed_tip` -/
def confirmedTip (observedHeight requiredConfirmations : Nat) : Option Nat :=
  if requiredConfirmations = 0 then none
  else if observedHeight < requiredConfirmations - 1 then none
  else some (observedHeight - (requiredConfirmations - 1))

/-- The last height of a window: confirmed, within the configured range, and
not below the next one. -/
def target (config : IngestConfig) (head next : Nat) : Option Nat :=
  ((confirmedTip head config.confirmations).map fun height => config.last.elim height (min · height)).filter
    fun last => next ≤ last

def reachedLast (config : IngestConfig) (state : State) : Prop :=
  ∃ last ∈ config.last, state.initialized = 1 ∧ last ≤ state.lastBlockNumber

instance (config : IngestConfig) (state : State) : Decidable (reachedLast config state) := by
  unfold reachedLast
  infer_instance

/-- What the node says of itself and of the published tip. -/
def checkSource (options : RunOptions) (rpc : Answers ρ) (index : Nat) (state : State) :
    Except String Nat := do
  rpc.validateChain
  let head ← rpc.height
  AmlReal.Foundations.Checks.ensure (head ≤ u32Max) "RPC height out of range"
  if state.initialized = 1 then
    AmlReal.Foundations.Checks.ensure (state.lastBlockNumber ≤ head)
      "RPC is behind the published checkpoint; refusing rollback"
    if 0 < index ∨ options.repairHeight ≠ none then
      let hash ← rpc.tipHash
      AmlReal.Foundations.Checks.ensure (hash = state.lastBlockHash)
        "fallback disagrees with the published checkpoint; refusing rollback"
  pure head

/-- What is found out about a block before it is committed. -/
def prepare (rpc : Answers ρ) (state : State) (position : Nat) (block : Value) : Except String ρ := do
  AmlReal.Foundations.Checks.ensure
    (state.initialized = 1 → block["previousblockhash"].asStr = some state.lastBlockHash)
    "block parent changed"
  let resolved ← rpc.resolve position block
  let height ← context block["height"].asU64 "missing block height"
  let hash ← rpc.blockHash height
  AmlReal.Foundations.Checks.ensure (block["hash"].asStr = some hash) "chain changed while resolving block"
  let _ ← extract block "rpc-validation" resolved
  pure resolved

/-- How a window ended: all of it committed, held back by the gate, or given up. -/
inductive Window where
  | committed
  | waiting
  | sourceFailed (error : String)

variable (config : IngestConfig) (options : RunOptions)

/-- The outcome of the gate of a block's height; a repair does not ask it. -/
def askGate (rpc : Answers ρ) (position : Nat) (block : Value) : Owner (Option String) :=
  if options.repairHeight = none then do
    let height ← lift (context block["height"].asU64 "missing block height")
    match ← onFailures (Failures.gate height options.policy options.once (rpc.clock (.gate position))) with
    | none => pure none
    | some reason =>
      if options.once then
        lift (.error s!"ingestion blocked by {reason} at height={height}; explicit repair required")
      else pure (some reason)
  else pure none

/-- The commit of a prepared block. An uncertain publication is never retried
blindly: its error, recorded where that is possible, ends the run. -/
def commitOwned (rpc : Answers ρ) (index head position : Nat) (state : State) (block : Value)
    (resolved : ρ) : Owner State := do
  let served : Served := ⟨index, head, rpc.clock (.gate position) 0, block⟩
  let result ← (within Store.warehouse (.publishing served)
    (commit extract config state block resolved head (rpc.clock (.commit position) 0))).attempt
  match result with
  | .ok state => pure state
  | .error error => do
    let _ ← (onFailures (Failures.record (block["height"].asU64.getD 0) block["hash"].asStr .commit
      options.policy (options.repairHeight == none) (rpc.clock (.commitFailure position)))).attempt
    lift (.error error)

/-- The loop over the blocks of a window. -/
def commitBlocks (rpc : Answers ρ) (index head : Nat) : Nat → State → List Value → Owner Window
  | _, _, [] => pure .committed
  | position, state, block :: rest => do
    match ← askGate options rpc position block with
    | some _ => pure .waiting
    | none =>
      match prepare extract rpc state position block with
      | .error error => do
        let height ← lift (context block["height"].asU64 "missing failure height")
        let _ ← onFailures (Failures.record height block["hash"].asStr .resolve options.policy
          (options.repairHeight == none) (rpc.clock (.resolve position)))
        pure (.sourceFailed error)
      | .ok resolved => do
        let next ← commitOwned extract config options rpc index head position state block resolved
        onFailures (Failures.resolved next.lastBlockNumber next.lastBlockHash
          (options.repairHeight == none) (rpc.clock (.resolved position)))
        commitBlocks rpc index head (position + 1) next rest

/-- The state to go on from: reconciled with the primary, unless a repair runs. -/
def reconcileOwned (rpc : Answers ρ) (index head : Nat) (state : State) : Owner State :=
  if index = 0 ∧ options.repairHeight = none then do
    let result ← (within Store.warehouse (.rewinding index)
      (reconcileWith rpc state config.reorgDepth head (rpc.clock .reconcile 0))).attempt
    match result with
    | .ok state => pure state
    | .error error => do
      let _ ← (onFailures (Failures.record (nextHeight config state) none .reconcile options.policy true
        (rpc.clock .reconcileFailure))).attempt
      lift (.error error)
  else pure state

/-- Which endpoint is in use, and until when the primary is not asked first. -/
structure Preference where
  active : Nat
  retryPrimaryAt : Nat

/-- How an endpoint's turn ended. -/
inductive Turn where
  | finished
  | nextPass (preference : Preference)
  | nextSource (error : String)

variable (tuning : PipelineConfig) (jsonBytes : Value → Nat)

/-- The turn of one endpoint. -/
def tryEndpoint (round : Round ρ) (preference : Preference) (index : Nat) : Owner Turn := do
  let rpc := round.endpoint index
  let fail (stage : Stage) (state : State) (use : Use) (error : String) : Owner Turn := do
    let _ ← onFailures (Failures.record (nextHeight config state) none stage options.policy
      (options.repairHeight == none) (rpc.clock use))
    pure (.nextSource error)
  let state ← read tip
  ensure (state.revision = 0 ∨ state.startBlock = config.start)
    "BITCOIN_START_BLOCK differs from persisted history"
  if reachedLast config state then pure .finished
  else
    match checkSource options rpc index state with
    | .error error => fail .source state .source error
    | .ok head => do
      let state ← reconcileOwned config options rpc index head state
      let next := nextHeight config state
      ensure (∀ height ∈ options.repairHeight, height = next)
        "repair cannot rewind or skip the published checkpoint"
      match target config head next with
      | none => pure (if options.once then .finished else .nextPass preference)
      | some last =>
        match blocks jsonBytes rpc next last tuning.blockBatch tuning.blockConcurrency with
        | .error error => fail .fetch state .fetch error
        | .ok blocks => do
          match ← commitBlocks extract config options rpc index head 0 state blocks with
          | .waiting => pure (.nextPass preference)
          | .sourceFailed error => pure (.nextSource error)
          | .committed =>
            let retry := 0 < index ∧ (preference.active ≠ index ∨ preference.retryPrimaryAt ≤ round.later)
            pure (.nextPass ⟨index, if retry then round.later + tuning.fallbackCooldownSeconds
              else preference.retryPrimaryAt⟩)

/-! ## The loop -/

/-- The order in which the endpoints are tried. -/
def endpointOrder (endpoints : Nat) (preference : Preference) (now : Nat) : List Nat :=
  if 0 < preference.active ∧ now < preference.retryPrimaryAt then
    preference.active ::
      ((List.range endpoints).filter fun index => index ≠ preference.active ∧ index ≠ 0) ++ [0]
  else List.range endpoints

/-- The endpoints one after another; `none` ends the run. -/
def tryEndpoints (round : Round ρ) (preference : Preference) :
    Option String → List Nat → Owner (Option Preference)
  | lastError, [] =>
    if options.once then lift (.error (lastError.getD "no usable Bitcoin RPC source"))
    else pure (some preference)
  | _, index :: rest => do
    match ← tryEndpoint extract config options tuning jsonBytes round preference index with
    | .finished => pure none
    | .nextPass preference => pure (some preference)
    | .nextSource error => tryEndpoints round preference (some error) rest

/-- The frontier of a pass: the run is over, its next height is held back, or the pass goes on. -/
inductive Frontier where
  | finished
  | waiting
  | free

def askFrontier (round : Round ρ) : Owner Frontier :=
  if options.repairHeight = none then do
    let state ← read tip
    if reachedLast config state then pure .finished
    else if nextHeight config state ≤ u32Max then do
      match ← onFailures (Failures.gate (nextHeight config state) options.policy options.once
        round.gateClock) with
      | none => pure .free
      | some reason =>
        if options.once then lift (.error
          s!"ingestion blocked by {reason}; inspect failures and explicitly repair the next block")
        else pure .waiting
    else pure .free
  else pure .free

/-- One pass of the loop. -/
def pass (endpoints : Nat) (preference : Preference) (round : Round ρ) : Owner (Option Preference) := do
  match ← askFrontier config options round with
  | .finished => pure none
  | .waiting => pure (some preference)
  | .free =>
    tryEndpoints extract config options tuning jsonBytes round preference none
      (endpointOrder endpoints preference round.now)

/-- Whether the loop came to its end within the rounds. -/
def passes (endpoints : Nat) : Preference → List (Round ρ) → Owner Bool
  | _, [] => pure false
  | preference, round :: rounds => do
    match ← pass extract config options tuning jsonBytes endpoints preference round with
    | none => pure true
    | some preference => passes endpoints preference rounds

/-- What a run does to the failure records before its loop. -/
def settle (opening : Opening) : Owner Unit := do
  onFailures (Failures.recoverInterrupted options.policy opening.recoverClock)
  let db ← read Store.warehouse
  onFailures (Failures.settlePublished (GapScan.fromState (currentState .bitcoin db))
    (fun height => GapScan.hashAt height db) opening.settleClock)

/-- `run_owned`, followed through the given rounds. -/
def runOwned (endpoints : Nat) (opening : Opening) (rounds : List (Round ρ)) : Owner Bool := do
  lift options.policy.validate
  lift tuning.validate
  ensure ((1 ≤ config.confirmations ∧ config.confirmations ≤ 1000) ∧
    (config.verbosity = 2 ∨ config.verbosity = 3) ∧ config.start ≤ u32Max ∧
    ∀ last ∈ config.last, config.start ≤ last ∧ last ≤ u32Max) "invalid ingestion range"
  lift opening.ready
  lift opening.migrationReady
  when (options.repairHeight = none) (settle options opening)
  passes extract config options tuning jsonBytes endpoints ⟨0, 0⟩ rounds

end

end AmlReal.Bitcoin.IngestionLoop
