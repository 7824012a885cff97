import AmlReal.Foundations.Checkpointed
import AmlReal.Foundations.Json
import AmlReal.Warehouse.Values

/-! # The analytics worker of Bitcoin

`analytics/{mod,engine,checkpoint}.rs`: one worker process sweeps addresses,
queues a job for each and runs them one at a time. Its whole state is saved as
one checkpoint file at every step that matters and loaded when it starts again.
What a cycle asks of the database, the clock, the disk and the shutdown signal
is its environment. The digest, the address parser and the serialization of the
state belong to libraries and are parameters. -/

namespace AmlReal.Bitcoin.Analytics
open AmlReal.Foundations.Json AmlReal.Foundations.Checkpointed
open AmlReal.Foundations.Checkpointed.Session
open AmlReal.Foundations.Checks (context)
open AmlReal.Warehouse.Values

def version : String := "bitcoin_analytics_worker_v1"
def maxQueue : Nat := 128
def maxRecent : Nat := 16
def heartbeatSeconds : Nat := 5
def maxBytes : Nat := 1024 * 1024

structure Config where
  directory : String
  pageSize : Nat
  pollSeconds : Nat
  refreshSeconds : Nat
  jobTimeoutSeconds : Nat
  retrySeconds : Nat
  maxAttempts : Nat

def within (low high n : Nat) : Bool := low ≤ n && n ≤ high

def Config.validate (config : Config) : Except String Unit := do
  AmlReal.Foundations.Checks.ensure (config.directory.toList.head? = some '/')
    "analytics state directory must be absolute"
  AmlReal.Foundations.Checks.ensure (within 1 100 config.pageSize ∧ within 1 60 config.pollSeconds ∧
    within 10 86400 config.refreshSeconds ∧ within 1 600 config.jobTimeoutSeconds ∧
    within 1 3600 config.retrySeconds ∧ within 1 20 config.maxAttempts)
    "invalid analytics resource limits"

structure Job where
  id : String
  address : String
  status : String
  attempts : Nat
  nextAttemptUnixMs : Nat
  lastError : String

structure Scan where
  height : Nat
  hash : String
  start : Nat
  afterAddress : String
  exhausted : Bool

structure State where
  contract : String
  networkId : String
  database : String
  definition : Value
  definitionHash : String
  generation : Nat
  pass : Nat
  phase : String
  reason : String
  heartbeatUnixMs : Nat
  nextSweepUnixMs : Nat
  scan : Option Scan
  queue : List Job
  recent : List Value
  succeeded : Nat
  failures : Nat
  abandoned : Nat

/-- What other code computes: the digest of a value, the canonical spelling of an
address, the serialization of a state with the length of its text, and the
definitions of the detectors that a worker records. -/
structure Library where
  digest : Value → String
  address : String → Except String String
  toValue : State → Value
  fromValue : Value → Except String State
  size : Value → Nat
  semanticConfig : Value
  clusterConfig : Value
  riskPolicy : Value

section
variable (L : Library)

def Config.definition (config : Config) : Value := .object [
  ("worker_version", .string version), ("network_id", .string Network.bitcoin.id),
  ("page_size", .ofNat config.pageSize), ("poll_seconds", .ofNat config.pollSeconds),
  ("refresh_seconds", .ofNat config.refreshSeconds),
  ("job_timeout_seconds", .ofNat config.jobTimeoutSeconds),
  ("retry_seconds", .ofNat config.retrySeconds), ("max_attempts", .ofNat config.maxAttempts),
  ("queue_limit", .ofNat maxQueue), ("recent_receipts_limit", .ofNat maxRecent),
  ("concurrency", .ofNat 1), ("activity_roots", .ofNat 25),
  ("heartbeat_seconds", .ofNat heartbeatSeconds),
  ("heartbeat_max_age_seconds", .ofNat (max (config.pollSeconds * 3 + 15) 30)),
  ("semantic_config", L.semanticConfig), ("cluster_config", L.clusterConfig),
  ("exposure_policy", .string "bitcoin_utxo_bounds_v1"), ("risk_policy", L.riskPolicy),
  ("automatic_approval", .bool false), ("whole_chain_analysis_claimed", .bool false)]

def Config.hash (config : Config) : String := L.digest (config.definition L)

def State.new (database : String) (config : Config) : State where
  contract := version
  networkId := Network.bitcoin.id
  database := database
  definition := config.definition L
  definitionHash := config.hash L
  generation := 0
  pass := 0
  phase := "waiting"
  reason := "starting"
  heartbeatUnixMs := 0
  nextSweepUnixMs := 0
  scan := none
  queue := []
  recent := []
  succeeded := 0
  failures := 0
  abandoned := 0

/-- Without collisions a digest tells limits of attempts and addresses of jobs
apart; canonical addresses are spelled canonically, and a serialized state reads
back. -/
structure Library.Sound : Prop where
  config : ∀ a b : Config, a.hash L = b.hash L → a.maxAttempts = b.maxAttempts
  job : ∀ a b c d e f x y, L.digest (.array [a, b, c, .string x]) =
    L.digest (.array [d, e, f, .string y]) → x = y
  address : ∀ raw a, L.address raw = .ok a → L.address a = .ok a
  serialize : ∀ state, L.fromValue (L.toValue state) = .ok state

/-! ## The checkpoint file -/

/-- `contract::identifier` -/
def identifier (value : String) : Except String Unit :=
  AmlReal.Foundations.Checks.ensure (value ≠ "" ∧ value.utf8ByteSize ≤ 128 ∧
    value.toList.all (fun c => c.isAlphanum || c == '_') ∧
    (value.toList.headD '0').isDigit = false) "unsafe SQL identifier"

/-- The file's content: the state under its checksum. -/
def frame (state : State) : Value :=
  .object [("checksum", .string (L.digest (L.toValue state))), ("state", L.toValue state)]

/-- The checks on each job of the queue, with the ids seen before it. -/
def checkJobs : List String → List Job → Except String Unit
  | _, [] => .ok ()
  | ids, job :: rest => do
    let _ ← L.address job.address
    AmlReal.Foundations.Checks.ensure (job.id ∉ ids ∧
      job.status ∈ ["pending", "running", "retry", "failed"] ∧ job.attempts ≤ 20)
      "invalid analytics job"
    checkJobs (job.id :: ids) rest

/-- `checkpoint::load` on the content of the file, if there is one. -/
def load (file : Option Value) (database : String) : Except String (Option State) := do
  identifier database
  match file with
  | none => pure none
  | some frame => do
    AmlReal.Foundations.Checks.ensure (L.size frame ≤ maxBytes)
      "analytics checkpoint exceeds size cap"
    AmlReal.Foundations.Checks.ensure (frame["checksum"] = .string (L.digest frame["state"]))
      "analytics checkpoint checksum mismatch"
    let state ← L.fromValue frame["state"]
    AmlReal.Foundations.Checks.ensure (state.contract = version ∧
      state.networkId = Network.bitcoin.id ∧ state.database = database)
      "analytics checkpoint identity mismatch"
    AmlReal.Foundations.Checks.ensure (state.queue.length ≤ maxQueue ∧
      state.recent.length ≤ maxRecent ∧ state.definitionHash = L.digest state.definition)
      "invalid analytics checkpoint limits/configuration"
    AmlReal.Foundations.Checks.ensure (state.phase ∈ ["waiting", "running", "idle", "failed"])
      "invalid analytics phase"
    checkJobs L [] state.queue
    pure (some state)

/-! ## The environment of a step -/

/-- How writing the file can fail: before the rename commits it, or after. -/
inductive Fault where
  | none
  | before
  | after
  deriving DecidableEq

/-- The synchronization state of the database. -/
structure SyncState where
  initialized : Nat
  startHeight : Nat
  tipHeight : Nat
  tipHash : String
  revision : Nat

/-- What a step meets. The clock and the disk are asked once for each save, which
has a generation of its own; a step is cancelled at one of its awaits. -/
structure Env where
  clock : Nat → Nat
  fault : Nat → Fault
  cancelled : Option Nat
  source : Except String SyncState
  blockHash : Except String (Option String)
  addresses : Except String (List (Option String))
  sourceAfter : Except String SyncState
  now : Nat
  due : Nat
  heartbeats : Nat
  analysis : Except String Value
  finished : Nat

inductive Stop where
  | error (message : String)
  | cancelled

abbrev Action := Session State Value Stop

def fallible {α : Type} (result : Except String α) : Action α := lift (result.mapError .error)

def check (condition : Prop) [Decidable condition] (message : String) : Action Unit :=
  ensure condition (.error message)

/-- The `i`-th await of a step. -/
def await (env : Env) (i : Nat) : Action Unit := ensure (env.cancelled ≠ some i) .cancelled

/-- `checkpoint::save` -/
def save (env : Env) : Action Unit := do
  let s ← get
  let generation ← fallible (context (checkedAdd s.generation 1) "analytics generation exhausted")
  update fun s => { s with generation, heartbeatUnixMs := env.clock generation }
  let s ← get
  check (L.size (frame L s) ≤ maxBytes) "analytics checkpoint exceeds size cap"
  fallible (identifier s.database)
  check (env.fault generation ≠ .before) "cannot commit analytics checkpoint"
  emit (frame L s)
  check (env.fault generation ≠ .after) "cannot sync analytics directory"

/-! ## Jobs -/

/-- An attempt that did not come to its end. -/
def Job.interrupt (config : Config) (note : String) (j : Job) : Job :=
  if j.status = "running" then
    { j with
      status := if j.attempts ≥ config.maxAttempts then "failed" else "retry"
      nextAttemptUnixMs := 0, lastError := note }
  else j

def Job.waiting (j : Job) (now : Nat) : Bool :=
  (j.status = "pending" || j.status = "retry") && j.nextAttemptUnixMs ≤ now

/-- First attempts come first, then the earliest. -/
def Job.before (a b : Job) : Bool :=
  if (a.attempts > 0) = (b.attempts > 0) then a.nextAttemptUnixMs < b.nextAttemptUnixMs
  else b.attempts > 0

/-- `State::due` -/
def State.due (s : State) (now : Nat) : Option Nat :=
  ((s.queue.zipIdx.filter fun p => p.1.waiting now).foldl (fun best p =>
    match best with
    | none => some p
    | some b => if p.1.before b.1 then some p else some b) none).map Prod.snd

/-- The stored text of an error. -/
def errorText (error : String) : String :=
  String.ofList ((error.toList.filter (!isControl ·)).take 256)

def saturating (n : Nat) : Nat := min n (u64Size - 1)

/-- The row of a failed attempt. -/
def Job.fail (config : Config) (now : Nat) (error : String) (j : Job) : Job :=
  { j with
    status := if j.attempts ≥ config.maxAttempts then "failed" else "retry"
    lastError := errorText error
    nextAttemptUnixMs := saturating
      (now + min (config.retrySeconds * 2 ^ min j.attempts 10) 3600 * 1000) }

/-- The receipt of a completed job. -/
def Job.receipt (j : Job) (now : Nat) (result : Value) : Value := .object [
  ("job_id", .string j.id), ("address", .string j.address), ("attempts", .ofNat j.attempts),
  ("completed_at_unix_ms", .ofNat now), ("result", result)]

/-- `State::finish` on the job at `index`. -/
def State.finish (s : State) (index : Nat) (result : Except String Value) (config : Config)
    (now : Nat) : State :=
  match s.queue[index]?, result with
  | none, _ => s
  | some job, .ok value =>
    let recent := s.recent ++ [job.receipt now value]
    { s with
      queue := s.queue.eraseIdx index
      succeeded := saturating (s.succeeded + 1)
      recent := if recent.length > maxRecent then recent.eraseIdx 0 else recent
      phase := "idle", reason := "job_completed" }
  | some job, .error error =>
    { s with
      queue := s.queue.set index (job.fail config now error)
      failures := saturating (s.failures + 1)
      phase := "failed", reason := "job_failed_other_jobs_continue" }

/-! ## Starting, stopping and manual retry -/

/-- What `Worker::open` makes of a loaded state. -/
def State.resume (config : Config) (state : State) : State :=
  let state := if state.definitionHash = config.hash L then state
    else { state with
      abandoned := saturating (state.abandoned + state.queue.length)
      queue := [], scan := none, nextSweepUnixMs := 0
      definition := config.definition L, definitionHash := config.hash L }
  { state with
    queue := state.queue.map
      (Job.interrupt config "interrupted attempt; publication must be revalidated")
    phase := "waiting", reason := "started_or_resumed" }

/-- `Worker::open`: the state it goes on with and what it saves. -/
def openWorker (database : String) (config : Config) (file : Option Value) (env : Env) :
    Except String (Outcome State Value Stop Unit) := do
  config.validate
  let state ← load L file database
  pure (save L env ((state.getD (.new L database config)).resume L config))

def pause (config : Config) (env : Env) : Action Unit := do
  update fun s => { s with
    queue := s.queue.map (Job.interrupt config "interrupted by shutdown")
    phase := "waiting", reason := "stopped" }
  save L env

/-- The first failed job with the id starts over. -/
def retryJob (id : String) : List Job → Option (List Job)
  | [] => none
  | j :: rest =>
    if j.id = id ∧ j.status = "failed" then
      some ({ j with attempts := 0, status := "pending", nextAttemptUnixMs := 0 } :: rest)
    else (retryJob id rest).map (j :: ·)

def retry (id : String) (env : Env) : Action Unit := do
  let s ← get
  let queue ← fallible (context (retryJob id s.queue)
    "failed analytics job not found; pause worker before retry")
  update fun s => { s with queue, reason := "manual_retry_queued" }
  save L env

/-! ## One cycle -/

def beginPass (source : SyncState) : Action Unit := do
  let s ← get
  let pass ← fallible (context (checkedAdd s.pass 1) "analytics pass exhausted")
  update fun s => { s with
    pass
    scan := some ⟨source.tipHeight, source.tipHash, source.startHeight, "", false⟩
    nextSweepUnixMs := 0, reason := "sweeping_canonical_addresses" }

def jobId (s : State) (address : String) : String :=
  "btc-job-" ++ L.digest (.array [.string s.database, .string s.definitionHash, .ofNat s.pass,
    .string address])

/-- An address found by the sweep gets a job, unless it has one. -/
def State.enqueue (s : State) (address : String) : State :=
  let queue := if s.queue.any (·.address = address) then s.queue
    else s.queue ++ [⟨jobId L s address, address, "pending", 0, 0, ""⟩]
  { s with queue, scan := s.scan.map fun scan => { scan with afterAddress := address } }

def discoverRow (row : Option String) : Action Unit := do
  let raw ← fallible (context row "canonical address missing")
  let address ← fallible (L.address raw)
  update fun s => s.enqueue L address

def discover (config : Config) (source : SyncState) (env : Env) : Action Unit := do
  let s ← get
  let scan ← fallible (context s.scan "analytics scan missing")
  when (¬(scan.exhausted = true ∨ s.queue.length ≥ maxQueue)) do
    let count := min config.pageSize (maxQueue - s.queue.length)
    await env 2
    let rows ← fallible env.addresses
    await env 3
    let after ← fallible env.sourceAfter
    check (after.revision = source.revision)
      "source changed during analytics discovery; cursor retained"
    (rows.take count).forM (discoverRow L)
    update fun s => { s with
      scan := s.scan.map fun scan => { scan with exhausted := rows.length ≤ count } }
    save L env

/-- Whether the branch that the sweep started from is still canonical. -/
def branchChanged (source : SyncState) (env : Env) : Option Scan → Action Bool
  | none => pure false
  | some scan =>
    if source.startHeight ≠ scan.start ∨ source.tipHeight < scan.height then pure true
    else do
      await env 1
      let hash ← fallible env.blockHash
      pure (hash ≠ some scan.hash)

def resetBranch (source : SyncState) (env : Env) : Action Unit := do
  let s ← get
  let reset ← branchChanged source env s.scan
  when (reset = true) do
    update fun s => { s with
      abandoned := saturating (s.abandoned + s.queue.length), queue := [] }
    beginPass source
    update fun s => { s with reason := "source_branch_changed_resweep" }
    save L env

def State.active (s : State) : Bool := s.queue.any (·.status ≠ "failed")

def State.exhausted (s : State) : Bool := s.scan.any (·.exhausted)

def sweep (source : SyncState) (env : Env) : Action Unit := do
  let s ← get
  when (s.scan.isNone ∨ (s.exhausted = true ∧ s.active = false ∧ s.nextSweepUnixMs > 0 ∧
      env.now ≥ s.nextSweepUnixMs)) do
    beginPass source
    save L env

/-- The state of a cycle that found no job to run. -/
def State.rest (s : State) (config : Config) (now : Nat) : State :=
  { s with
    nextSweepUnixMs := if s.exhausted = true ∧ s.active = false ∧ s.nextSweepUnixMs = 0 then
        saturating (now + config.refreshSeconds * 1000) else s.nextSweepUnixMs
    phase := if s.queue.any (·.status = "failed") then "failed"
      else if s.active then "waiting" else "idle"
    reason := if s.queue.length ≥ maxQueue then "queue_full_operator_attention_required"
      else if s.active then "retry_backoff"
      else if s.exhausted then "awaiting_next_sweep" else "discovery_pending" }

/-- The state when the attempt of the job at `index` begins. -/
def State.start (s : State) (index : Nat) : State :=
  { s with
    queue := s.queue.modify index fun j => { j with status := "running", attempts := j.attempts + 1 }
    phase := "running", reason := "refreshing_address_analysis" }

/-- The heartbeats while the analysis runs. -/
def heartbeat (env : Env) : Nat → Action Unit
  | 0 => pure ()
  | n + 1 => do
    save L env
    heartbeat env n

def runJob (config : Config) (index : Nat) (env : Env) : Action Bool := do
  update fun s => s.start index
  save L env
  heartbeat L env env.heartbeats
  await env 4
  update fun s => s.finish index env.analysis config env.finished
  save L env
  pure true

def runDue (config : Config) (env : Env) : Action Bool := do
  let s ← get
  match s.due env.due with
  | some index => runJob L config index env
  | none => do
    update fun s => s.rest config env.now
    save L env
    pure false

def cycleInner (config : Config) (env : Env) : Action Bool := do
  await env 0
  let source ← fallible env.source
  if source.initialized = 0 then do
    update fun s => { s with phase := "waiting", reason := "waiting_for_blocks" }
    save L env
    pure false
  else do
    resetBranch L source env
    sweep L source env
    let s ← get
    when (s.due env.now = none) (discover L config source env)
    runDue L config env

/-- `Worker::cycle`; a cancelled cycle never reaches its own error handling. -/
def cycle (config : Config) (database : String) (env : Env) : Action Bool := do
  let s ← get
  check (database = s.database) "analytics database mismatch"
  (cycleInner L config env).onError fun
    | .error _ => do
      update fun s => { s with
        phase := "failed", reason := "source_or_discovery_unavailable_cursor_retained" }
      save L env
    | .cancelled => pure ()

end

/-! ## Runs -/

/-- The files of one database by their directory, and the process that holds the
worker's lock, if any. -/
structure System where
  files : String → Option Value
  worker : Option (Config × State)

def System.init : System := ⟨fun _ => none, none⟩

/-- The content of a file after some saves. -/
def System.saves (system : System) (directory : String) (saved : List Value) : String → Option Value :=
  fun d => if d = directory then (saved.getLast?).or (system.files d) else system.files d

section
variable (L : Library) (database : String)

/-- A step of the worker that holds the lock: a cycle, a pause or a manual retry. -/
inductive Command where
  | cycle (database : String)
  | pause
  | retry (id : String)

def Command.run (config : Config) (env : Env) (s : State) : Command → Outcome State Value Stop Unit
  | .cycle database => let o := Analytics.cycle L config database env s
    ⟨o.state, o.saved, o.result.map fun _ => ()⟩
  | .pause => Analytics.pause L config env s
  | .retry id => Analytics.retry L id env s

/-- A crash leaves the files as they are after some of the saves. -/
inductive Step : System → System → Prop
  | started {system : System} {config : Config} {env : Env} {o : Outcome State Value Stop Unit} :
      system.worker = none →
      openWorker L database config (system.files config.directory) env = .ok o →
      Step system ⟨system.saves config.directory o.saved,
        match o.result with
        | .ok _ => some (config, o.state)
        | .error _ => none⟩
  | crashedAtStart {system : System} {config : Config} {env : Env}
      {o : Outcome State Value Stop Unit} {saved : List Value} :
      system.worker = none →
      openWorker L database config (system.files config.directory) env = .ok o →
      saved <+: o.saved → Step system ⟨system.saves config.directory saved, none⟩
  | ran {system : System} {config : Config} {state : State} (command : Command) (env : Env) :
      system.worker = some (config, state) →
      Step system ⟨system.saves config.directory (command.run L config env state).saved,
        some (config, (command.run L config env state).state)⟩
  | crashed {system : System} {config : Config} {state : State} (command : Command) (env : Env)
      {saved : List Value} : system.worker = some (config, state) →
      saved <+: (command.run L config env state).saved →
      Step system ⟨system.saves config.directory saved, none⟩

inductive Reachable : System → Prop
  | init : Reachable System.init
  | step {a b : System} : Reachable a → Step L database a b → Reachable b

end

end AmlReal.Bitcoin.Analytics
