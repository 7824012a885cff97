import AmlReal.Warehouse.Assets
import AmlReal.Bitcoin.PublicationGuards

/-! # Repairs of failed blocks

`run` of `bitcoin/repair.rs`: the selected heights are taken in their order, each
either found published already, refused, or tried with one run of the ingestion
loop that is bound to it. The writer lock is not seen here. -/

namespace AmlReal.Bitcoin.Repair
open AmlReal.Foundations.Json AmlReal.Foundations.LatestRows AmlReal.Foundations.StoreProgram
open AmlReal.Foundations.StoreProgram.Program AmlReal.Foundations.SubStore
open AmlReal.Foundations.Interleaving
open AmlReal.Foundations.Checks (context context_ok bind_ok ensure_ok mem_of_mapM)
open AmlReal.Warehouse.Values AmlReal.Warehouse.Tables AmlReal.Warehouse.Publication
open AmlReal.Warehouse.Contents AmlReal.Warehouse.Fence
open AmlReal.Warehouse.Operations (sampleHash)
open AmlReal.Bitcoin.StoredBlocks (blocksAt)
open AmlReal.Bitcoin.Failures (Record Policy Stage)
open AmlReal.Bitcoin.IngestionLoop AmlReal.Bitcoin.PublicationGuards

/-! ## The code -/

/-- `height_from_id` of `bitcoin/failures.rs` -/
def heightFromId (value : String) : Except String Nat := do
  let digits ← context (AmlReal.Warehouse.Assets.stripPrefix "bitcoin:block:".toList value.toList)
    "invalid Bitcoin failure id"
  let height ← context (parseU64 (String.ofList digits)) "invalid digit found in string"
  AmlReal.Foundations.Checks.ensure (height ≤ Failures.u32Max ∧ value = Failures.id height)
    "invalid Bitcoin failure id"
  pure height

structure Options where
  ids : List String
  maxBlocks : Nat
  policy : Policy

/-- What a selected height comes to. -/
inductive Outcome where
  | alreadyCanonical
  | gap
  | notNext (next : Nat)
  | resolved
  | failed (ended : Bool)

def Outcome.status : Outcome → String
  | .alreadyCanonical | .resolved => "complete"
  | .gap | .notNext _ => "blocked"
  | .failed _ => "failed"

/-- The entry of `results`. -/
def Outcome.report (height : Nat) : Outcome → Value
  | .alreadyCanonical => .object [("failure_id", .string (Failures.id height)),
      ("status", .string "already_canonical")]
  | .gap => .object [("failure_id", .string (Failures.id height)), ("status", .string "blocked"),
      ("reason", .string "historical_gap_requires_replay")]
  | .notNext next => .object [("failure_id", .string (Failures.id height)), ("status", .string "blocked"),
      ("reason", .string "repair_must_start_at_next_unpublished_block"), ("next_block", .ofNat next)]
  | .resolved => .object [("failure_id", .string (Failures.id height)), ("status", .string "resolved")]
  | .failed ended => .object [("failure_id", .string (Failures.id height)), ("status", .string "failed"),
      ("reason", .string (if ended then "no_confirmed_block_available" else "attempt_failed"))]

/-- What the repair of one height meets outside the database. -/
structure Attempt (ρ : Type) where
  opening : Opening
  rounds : List (Round ρ)
  beginClock : Nat → Nat
  resolvedClock : Nat → Nat
  gapClock : Nat → Nat
  failureClock : Nat → Nat

/-- Reads of the warehouse; they insert nothing, so their mark is never seen. -/
def looking {α : Type} : Warehouse.Publication.Writer α → Owner α := within Store.warehouse (.rewinding 0)

section
variable {ρ : Type} (extract : Value → String → ρ → Except String Evidence) (config : IngestConfig)
  (tuning : PipelineConfig) (jsonBytes : Value → Nat) (endpoints : Nat) (policy : Policy)

/-- One height of the loop; `none` when its run has not ended within the rounds. -/
def repairHeight (attempt : Attempt ρ) (height : Nat) : Owner (Option Outcome) := do
  let state ← read tip
  if state.initialized = 1 ∧ height ≤ state.lastBlockNumber then do
    let healthy ← looking (GapScan.healthy height (GapScan.fromState state))
    let hash ← looking (StoredBlocks.blockHash height)
    if healthy then do
      let hash ← lift (context hash "missing canonical hash")
      onFailures (Failures.resolved height hash false attempt.resolvedClock)
      pure (some .alreadyCanonical)
    else do
      onFailures (Failures.markGap height hash attempt.gapClock)
      pure (some .gap)
  else if height ≠ nextHeight config state then pure (some (.notNext (nextHeight config state)))
  else do
    let _ ← onFailures (Failures.beginRepair height attempt.beginClock)
    let result ← (runOwned extract { config with last := some height } ⟨true, some height, policy⟩ tuning
      jsonBytes endpoints attempt.opening attempt.rounds).attempt
    if result.toOption = some false then pure none
    else do
      let after ← read tip
      let healthy ← looking (GapScan.healthy height (GapScan.fromState after))
      if healthy then do
        onFailures (Failures.resolved height after.lastBlockHash false attempt.resolvedClock)
        pure (some .resolved)
      else do
        let row ← onFailures (Failures.current height)
        let row ← lift (context row "repair failure record disappeared")
        when (row.status = .repairing) do
          let _ ← onFailures (Failures.record height none .source policy false attempt.failureClock)
        pure (some (.failed result.toOption.isSome))

/-- The loop over the heights, up to the first that is not complete. -/
def repairHeights (attempt : Nat → Attempt ρ) : List Nat → Owner (Option (List (Nat × Outcome)))
  | [] => pure (some [])
  | height :: rest => do
    match ← repairHeight extract config tuning jsonBytes endpoints policy (attempt height) height with
    | none => pure none
    | some outcome =>
      if outcome.status = "complete" then do
        let results ← repairHeights attempt rest
        pure (results.map ((height, outcome) :: ·))
      else pure (some [(height, outcome)])

end

/-- The heights that the ids select, in a `BTreeSet`. -/
def selected (ids : List String) : Except String (List Nat) := do
  let heights ← ids.mapM heightFromId
  pure (heights.dedup.insertionSort (· ≤ ·))

def report (options : Options) (before after : State) (results : List (Nat × Outcome)) : Value :=
  .object [("network_id", .string Network.bitcoin.id),
    ("status", .string ((results.getLast?.map fun result => result.2.status).getD "complete")),
    ("results", .array (results.map fun result => result.2.report result.1)),
    ("selected", .ofNat options.ids.length),
    ("checkpoint_changed", .bool (before.revision ≠ after.revision)),
    ("last_synced_block", if after.initialized = 1 then .ofNat after.lastBlockNumber else .null),
    ("revision", .string after.revision.repr),
    ("historical_replay_performed", .bool false)]

/-- `run`; `opening` is what it meets before its loop. -/
def run {ρ : Type} (extract : Value → String → ρ → Except String Evidence) (config : IngestConfig)
    (tuning : PipelineConfig) (jsonBytes : Value → Nat) (endpoints : Nat) (options : Options) (opening : Opening)
    (attempt : Nat → Attempt ρ) : Owner (Option Value) := do
  let heights ← lift (selected options.ids)
  ensure (heights ≠ [] ∧ heights.length = options.ids.length ∧ (1 ≤ options.maxBlocks ∧ options.maxBlocks ≤ 1000) ∧
    heights.length ≤ options.maxBlocks) "select unique failure ids within max-blocks (1..1000)"
  lift options.policy.validate
  lift tuning.validate
  lift opening.ready
  lift opening.migrationReady
  onFailures (Failures.recoverInterrupted options.policy opening.recoverClock)
  let before ← read tip
  ensure (before.revision = 0 ∨ before.startBlock = config.start)
    "BITCOIN_START_BLOCK differs from persisted history"
  heights.forM fun height => do
    let row ← onFailures (Failures.current height)
    ensure (row.isSome) "selected failure does not exist"
  let results ← repairHeights extract config tuning jsonBytes endpoints options.policy attempt heights
  let after ← read tip
  pure (results.map (report options before after))

/-! ## What is guarded -/

/-- A repair publishes selected heights alone, each under the guards of the
ingestion loop, and takes nothing back. -/
def RepairGuarded (config : IngestConfig) (options : Options) (db : IngestionLoop.Store) : Write → Prop
  | .failures rows => ∀ row ∈ rows, Settled db.warehouse row
  | .publishing served w => ∀ next ∈ Insert.stateRows w, Failures.id next.lastBlockNumber ∈ options.ids ∧
      Succeeds { config with last := some next.lastBlockNumber } ⟨true, some next.lastBlockNumber, options.policy⟩
        db served next
  | .rewinding _ _ => False

theorem repairGuarded_onRecords {config : IngestConfig} {options : Options} :
    OnRecords (RepairGuarded config options) := fun _ _ h => h

theorem repairGuarded_of_guarded {config : IngestConfig} {options : Options} {height : Nat}
    (hid : Failures.id height ∈ options.ids) (db : IngestionLoop.Store) (w : Write)
    (h : Guarded { config with last := some height } ⟨true, some height, options.policy⟩ db w) :
    RepairGuarded config options db w := by
  cases w with
  | failures rows => exact h
  | publishing served w =>
    intro next hnext
    have hnext := h next hnext
    have hheight : next.lastBlockNumber = height := Nat.le_antisymm (hnext.last height rfl) (hnext.repair height rfl)
    rw [hheight]
    refine ⟨hid, { hnext with }⟩
  | rewinding endpoint w => exact absurd h.2.1 (by simp)

/-! ## Reads of the warehouse -/

/-- What a part that inserts nothing finds out. -/
theorem alone_looking {α : Type} {G : IngestionLoop.Store → Write → Prop} {p : Warehouse.Publication.Writer α}
    {Q : α → Prop} {db : IngestionLoop.Store}
    (h : Alone (fun _ _ => False) (fun a u => u = db.warehouse ∧ Q a) p db.warehouse) :
    Alone G (fun a u => u = db ∧ Q a) (looking p) db := by
  have hmark : Marks IngestionLoop.Store.warehouse (Write.rewinding 0) := fun _ _ => rfl
  refine (alone_within hmark (K := fun t => t.failures = db.failures) (fun _ _ ht => ht)
    (fun _ _ _ h => h.elim) h rfl).weaken ?_
  rintro a ⟨warehouse, failures⟩ ⟨⟨hwarehouse, hQ⟩, hfailures⟩
  obtain rfl : warehouse = db.warehouse := hwarehouse
  obtain rfl : failures = db.failures := hfailures
  exact ⟨rfl, hQ⟩

section
variable {G : Database → Insert → Prop} {height : Nat} {db : Database}

theorem blockHash_reads : Alone G (fun found u => u = db ∧ found = GapScan.hashAt height db)
    (StoredBlocks.blockHash height) db := by
  refine alone_read (alone_read (under_lift fun _ _ => alone_read (under_ensure fun _ => under_pure ⟨rfl, ?_⟩)))
  unfold GapScan.hashAt
  cases blocksAt height db with
  | nil => rfl
  | cons b rest => rfl

/-- A healthy height is published, and the tip under the published hash. -/
theorem healthy_reads : Alone G (fun answer u => u = db ∧ (answer = true →
      height ≤ (currentState .bitcoin db).lastBlockNumber ∧ ∃ hash, GapScan.hashAt height db = some hash ∧
        (height ≠ (currentState .bitcoin db).lastBlockNumber ∨ (currentState .bitcoin db).lastBlockHash = hash)))
    (GapScan.healthy height (GapScan.fromState (currentState .bitcoin db))) db := by
  unfold GapScan.healthy
  split
  · exact under_pure ⟨rfl, fun h => by cases h⟩
  rename_i hrange
  refine alone_read ?_
  split
  · exact under_pure ⟨rfl, fun h => by cases h⟩
  rename_i row hrow
  refine alone_read ?_
  split
  · exact under_pure ⟨rfl, fun h => by cases h⟩
  refine Under.bind (Under.weaken (Q := fun _ u => u = db) ?_ ?_)
  · unfold GapScan.linked
    split
    · exact Under.bind (blockHash_reads.weaken fun _ _ h => under_pure h.1)
    · exact under_pure rfl
  · rintro linked db rfl
    split
    · exact under_pure ⟨rfl, fun h => by cases h⟩
    · refine under_pure ⟨rfl, fun hanswer => ⟨?_, row.blockHash, ?_, of_decide_eq_true hanswer⟩⟩
      · have hhigh : ¬ height > (currentState .bitcoin db).lastBlockNumber := fun h => hrange (Or.inr (Or.inr h))
        omega
      · unfold GapScan.hashAt
        rw [hrow]
        rfl

end

/-! ## The tip -/

/-- What is true of the current state and of the states inserted stays true of the current one. -/
theorem currentState_append {P : State → Prop} {db : Database} {w : Insert} (habsent : P (.absent .bitcoin))
    (hold : P (currentState .bitcoin db)) (hnew : ∀ next ∈ Insert.stateRows w, P next) :
    P (currentState .bitcoin (LogStore.append db w)) := by
  unfold currentState
  cases hfind : (syncStateCurrent (LogStore.append db w)).find? fun s => s.networkId = .bitcoin with
  | none => exact habsent
  | some s =>
    show P s
    have hnetwork : s.networkId = .bitcoin := by simpa using List.find?_some hfind
    have hmem := List.mem_of_find?_eq_some hfind
    have hrows : (LogStore.append db w).syncState = db.syncState ++ Insert.stateRows w := by
      have hreplay := replay_syncState db [w]
      rw [replay_cons, replay_nil] at hreplay
      rw [hreplay]
      simp [stateRows]
    unfold syncStateCurrent at hmem
    rw [hrows] at hmem
    rcases mem_latest_append hmem with hs | hs
    · have hcurrent : s = currentState s.networkId db := eq_currentState hs
      rw [hcurrent, hnetwork]
      exact hold
    · exact hnew s hs

/-- Under the guards of one height the tip does not go past it. -/
theorem tip_bounded {config : IngestConfig} {policy : Policy} {height : Nat} (db : IngestionLoop.Store) (w : Write)
    (hw : Guarded { config with last := some height } ⟨true, some height, policy⟩ db w)
    (h : (tip db).initialized = 1 → (tip db).lastBlockNumber ≤ height) :
    (tip (LogStore.append db w)).initialized = 1 → (tip (LogStore.append db w)).lastBlockNumber ≤ height := by
  cases w with
  | failures rows => exact h
  | publishing served w =>
    exact currentState_append (P := fun s => s.initialized = 1 → s.lastBlockNumber ≤ height)
      (fun h => by cases h) h fun next hnext _ => (hw next hnext).last height rfl
  | rewinding endpoint w => exact absurd hw.2.1 (by simp)

/-! ## Runs -/

theorem beginRepair_over {P : Record → Prop} (hP : ∀ row : Record, row.status ≠ .resolved → P row) {height : Nat}
    {clock : Nat → Nat} {fs : Failures.Store} :
    Alone (Saving P) (fun _ _ => True) (Failures.beginRepair height clock) fs := by
  refine Under.bind ((current_reads height fs).weaken fun old u _ => ?_)
  refine under_lift fun row _ => under_ensure fun _ => under_lift fun attempts _ => under_lift fun revision _ => ?_
  exact Under.bind ((save_one (hP _ fun h => by cases h)).weaken fun _ _ _ => under_pure trivial)

theorem markGap_over {P : Record → Prop} (hP : ∀ row : Record, row.status ≠ .resolved → P row) {height : Nat}
    {hash : Option String} {clock : Nat → Nat} {fs : Failures.Store} :
    Alone (Saving P) (fun _ _ => True) (Failures.markGap height hash clock) fs := by
  refine Under.bind ((current_reads height fs).weaken fun old u _ => under_lift fun revision _ => ?_)
  exact save_one (hP _ fun h => by cases h)

section
variable {ρ : Type} {extract : Value → String → ρ → Except String Evidence} {config : IngestConfig}
  {tuning : PipelineConfig} {jsonBytes : Value → Nat} {endpoints : Nat} {options : Options} {db : IngestionLoop.Store}

theorem repairHeight_guarded {attempt : Attempt ρ} {height : Nat} (hid : Failures.id height ∈ options.ids) :
    Alone (RepairGuarded config options) (fun _ _ => True)
      (repairHeight extract config tuning jsonBytes endpoints options.policy attempt height) db := by
  have hsaving : ∀ {α : Type} {P : Record → Prop} {p : Failures.Writer α} {Q : α → Failures.Store → Prop}
      {t : IngestionLoop.Store}, Alone (Saving P) Q p t.failures → (∀ row, P row → Settled t.warehouse row) →
      Alone (RepairGuarded config options) (fun _ u => u.warehouse = t.warehouse) (onFailures p) t :=
    fun hp hP => (alone_saving repairGuarded_onRecords hp hP).weaken fun _ _ h => h.2
  refine alone_read ?_
  split
  · -- published already: the height is settled by its own block, or it is a gap
    refine Under.bind ((alone_looking healthy_reads).weaken ?_)
    rintro healthy db ⟨rfl, _⟩
    refine Under.bind ((alone_looking blockHash_reads).weaken ?_)
    rintro hash db ⟨rfl, hhash⟩
    split
    · refine under_lift fun found hfound => Under.bind ((hsaving
        (resolved_over (P := Settled db.warehouse) fun row hid hnormal _ => ?_) fun _ hrow => hrow).weaken
        fun _ _ _ => under_pure trivial)
      exact ⟨height, found, hid, hnormal, Or.inr (hhash.symm.trans (context_ok hfound))⟩
    · exact Under.bind ((hsaving (markGap_over fun _ hrow => hrow) fun _ => settled_of_left).weaken
        fun _ _ _ => under_pure trivial)
  split
  · exact under_pure trivial
  · rename_i hunpublished hnext
    have hbelow : (tip db).initialized = 1 → (tip db).lastBlockNumber ≤ height := by
      intro hinit
      have hheight : height = nextHeight config (tip db) := Decidable.not_not.mp hnext
      unfold nextHeight at hheight
      rw [if_pos hinit] at hheight
      omega
    refine Under.bind ((hsaving (beginRepair_over fun _ hrow => hrow) fun _ => settled_of_left).weaken ?_)
    intro _ u hu
    have hbelow : (tip u).initialized = 1 → (tip u).lastBlockNumber ≤ height := by
      unfold tip at hbelow ⊢
      rw [hu]
      exact hbelow
    refine Under.bind (((alone_ended runOwned_guarded hbelow tip_bounded).guarantee
      (repairGuarded_of_guarded hid)).weaken fun result v hbound => ?_)
    split
    · exact under_pure trivial
    refine alone_read (Under.bind ((alone_looking healthy_reads).weaken ?_))
    rintro healthy v ⟨rfl, hhealthy⟩
    split
    · rename_i hyes
      obtain ⟨hhigh, hash, hhash, htip⟩ := hhealthy hyes
      -- a healthy height has a canonical row, so the range is initialized
      obtain ⟨b, hb, _⟩ := GapScan.hashAt_eq_some.mp hhash
      obtain ⟨hcanonical, hnetwork, _⟩ := StoredBlocks.mem_blocksAt.mp hb
      have hpublished := (published_of_canonical hcanonical).2.initialized
      rw [hnetwork] at hpublished
      have hheight : height = (tip v).lastBlockNumber := Nat.le_antisymm hhigh (hbound hpublished)
      refine Under.bind ((hsaving (resolved_over (P := Settled v.warehouse) fun row hid hnormal _ => ?_)
        fun _ hrow => hrow).weaken fun _ _ _ => under_pure trivial)
      refine ⟨height, _, hid, hnormal, Or.inr ?_⟩
      rw [hhash]
      exact congrArg some (htip.resolve_left fun h => h hheight).symm
    · refine Under.bind ((hsaving (P := fun _ => False) (current_reads height v.failures) fun _ h => h.elim).weaken
        fun found w _ => under_lift fun row _ => ?_)
      refine Under.bind (Under.weaken (Q := fun _ _ => True) (under_when (fun _ => ?_) fun _ => trivial)
        fun _ _ _ => under_pure trivial)
      exact Under.bind ((hsaving (record_over fun _ hrow => hrow) fun _ => settled_of_left).weaken
        fun _ _ _ => under_pure trivial)

theorem repairHeights_guarded {attempt : Nat → Attempt ρ} {heights : List Nat}
    (hids : ∀ height ∈ heights, Failures.id height ∈ options.ids) :
    Alone (RepairGuarded config options) (fun _ _ => True)
      (repairHeights extract config tuning jsonBytes endpoints options.policy attempt heights) db := by
  induction heights generalizing db with
  | nil => exact under_pure trivial
  | cons height rest ih =>
    obtain ⟨hid, hrest⟩ := List.forall_mem_cons.mp hids
    refine Under.bind ((repairHeight_guarded hid).weaken fun outcome u _ => ?_)
    cases outcome with
    | none => exact under_pure trivial
    | some outcome =>
      show Alone _ _ (if outcome.status = "complete" then _ else _) u
      split
      · exact Under.bind ((ih hrest).weaken fun _ _ _ => under_pure trivial)
      · exact under_pure trivial

end

/-- The selected heights are those of the ids. -/
theorem selected_ids {ids : List String} {heights : List Nat} (h : selected ids = .ok heights) :
    ∀ height ∈ heights, Failures.id height ∈ ids := by
  obtain ⟨parsed, hparsed, h⟩ := bind_ok h
  cases h
  intro height hheight
  rw [List.mem_insertionSort, List.mem_dedup] at hheight
  obtain ⟨value, hvalue, hid⟩ := mem_of_mapM hparsed height hheight
  obtain ⟨digits, _, hid⟩ := bind_ok hid
  obtain ⟨number, _, hid⟩ := bind_ok hid
  obtain ⟨_, hcanonical, hid⟩ := bind_ok hid
  cases hid
  rw [← (ensure_ok hcanonical).2]
  exact hvalue

/-- Whatever a repair inserts is guarded where it is inserted. -/
theorem repairs_guarded {ρ : Type} (extract : Value → String → ρ → Except String Evidence) (config : IngestConfig)
    (tuning : PipelineConfig) (jsonBytes : Value → Nat) (endpoints : Nat) (options : Options) (opening : Opening)
    (attempt : Nat → Attempt ρ) (db : IngestionLoop.Store) {before : List Write} {w : Write}
    (h : Writes (run extract config tuning jsonBytes endpoints options opening attempt) db (before ++ [w])) :
    RepairGuarded config options (replay db before) w := by
  have hrun : Alone (RepairGuarded config options) (fun _ _ => True)
      (run extract config tuning jsonBytes endpoints options opening attempt) db := by
    refine under_lift fun heights hheights => under_ensure fun _ => under_lift fun _ _ => under_lift fun _ _ => ?_
    refine under_lift fun _ _ => under_lift fun _ _ => ?_
    refine Under.bind ((alone_saving repairGuarded_onRecords (recoverInterrupted_over fun _ hrow => hrow)
      fun _ => settled_of_left).weaken fun _ u _ => alone_read (under_ensure fun _ => ?_))
    refine Under.bind (Under.weaken (Q := fun _ _ => True) (under_forM trivial fun height _ t _ => ?_) ?_)
    · exact Under.bind ((alone_saving repairGuarded_onRecords (P := fun _ => False) (current_reads height _)
        fun _ h => h.elim).weaken fun row _ _ => alone_quiet (quiet_ensure _ _) fun _ _ => trivial)
    · intro _ v _
      exact Under.bind ((repairHeights_guarded (selected_ids hheights)).weaken fun _ _ _ =>
        alone_read (under_pure trivial))
  exact (hrun.allowedAlong h).last

/-! The repair of a block that failed once. -/

def failedStore : IngestionLoop.Store :=
  ⟨Database.empty .bitcoin, Network.bitcoin.id, [Failures.failed ⟨3, 1⟩ 5 none .fetch none 1 1 1]⟩

def sampleAttempt (_ : Nat) : Attempt Unit :=
  ⟨sampleOpening, [sampleRound, sampleRound], fun _ => 1, fun _ => 1, fun _ => 1, fun _ => 1⟩

def sampleRepair : Owner (Option Value) :=
  run sampleEvidence sampleConfig sampleTuning (fun _ => 1) 1 ⟨["bitcoin:block:5"], 1, ⟨3, 1⟩⟩ sampleOpening
    sampleAttempt

theorem failed_block_repaired : Succeeds { sampleConfig with last := some 5 } ⟨true, some 5, ⟨3, 1⟩⟩
    (replay failedStore ((sampleRepair.exec failedStore).1.take 4)) ⟨0, 5, 1, sampleJson 5 'a' '0'⟩
    ⟨.bitcoin, 1003, 1, 5, 5, sampleHash 'a', 5, 1⟩ :=
  (repairs_guarded _ _ _ _ _ _ _ _ _
    (show (sampleRepair.exec failedStore).1.take 4 ++ [.publishing ⟨0, 5, 1, sampleJson 5 'a' '0'⟩
      (.syncState [⟨.bitcoin, 1003, 1, 5, 5, sampleHash 'a', 5, 1⟩])] <+: (sampleRepair.exec failedStore).1
      by decide +kernel) _ List.mem_cons_self).2

end AmlReal.Bitcoin.Repair
