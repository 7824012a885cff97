import AmlReal.Warehouse.Stages

/-! # Where an operation of the cursor owner may stop

`Stage` lists every initial part of every operation's inserts, with the checks
that were passed on the way there. Both block writers go through the same
stages, so `blockProgram_stage` takes them apart together. -/

namespace AmlReal.Warehouse.Attempts
open AmlReal.Foundations.LatestRows AmlReal.Foundations.StoreProgram
open AmlReal.Foundations.StoreProgram.Program
open AmlReal.Foundations.Checks (context context_ok)
open AmlReal.Warehouse.Values AmlReal.Warehouse.Tables AmlReal.Warehouse.Rules
open AmlReal.Warehouse.Publication AmlReal.Warehouse.Operations AmlReal.Warehouse.Contents
open AmlReal.Warehouse.Stages AmlReal.Bitcoin.Writer

/-- A revision out of `next_revision`: above the publication fence and above
every written block, with room for a reservation below it. -/
structure Fresh (network : Network) (db : Database) (revision : Nat) : Prop where
  fence : (currentState network db).revision + 3 ≤ revision
  written : writtenRevision network db + 3 ≤ revision

/-- The block of an attempt that has inserted something. -/
structure Attempt (network : Network) (db : Database) (block : Block) : Prop where
  sameNetwork : block.networkId = network
  fresh : Fresh network db block.revision
  canonical : block.canonical = 1
  complete : block.ingestionStatus = .complete
  contiguous : (currentState network db).initialized = 1 →
    block.blockNumber = (currentState network db).lastBlockNumber + 1 ∧
    block.parentHash = (currentState network db).lastBlockHash

/-- The state that an attempt publishes for its block. -/
structure Follows (previous : State) (block : Block) (next : State) : Prop where
  networkId : next.networkId = block.networkId
  revision : next.revision = block.revision
  initialized : next.initialized = 1
  startBlock : next.startBlock =
    if previous.initialized = 1 then previous.startBlock else block.blockNumber
  lastBlockNumber : next.lastBlockNumber = block.blockNumber
  lastBlockHash : next.lastBlockHash = block.blockHash

/-- The inserts of an attempt up to its last fact. -/
def started (block : Block) (batch : FactBatch) : List Insert :=
  .blocks [reservation block] :: factInserts batch.tables

/-- The inserts of an attempt up to its complete marker. -/
def marked (block : Block) (batch : FactBatch) : List Insert :=
  started block batch ++ [.blocks [blockRow block batch.counts]]

/-- The inserts of an operation that stopped, by how far it got. -/
inductive Stage (network : Network) (db : Database) : List Insert → Prop
  | idle : Stage network db []
  | facts {ws : List Insert} {block : Block} {batch : FactBatch}
      (attempt : Attempt network db block) (writes : ws <+: started block batch)
      (headers : ∀ f ∈ factRows ws, HasHeader block f.2) : Stage network db ws
  | marker {block : Block} {batch : FactBatch} (attempt : Attempt network db block)
      (headers : ∀ f ∈ factRows (started block batch), HasHeader block f.2)
      (counted : Counted block batch.counts (replay db (started block batch))) :
      Stage network db (marked block batch)
  | forward {block : Block} {batch : FactBatch} {next : State}
      (attempt : Attempt network db block)
      (headers : ∀ f ∈ factRows (started block batch), HasHeader block f.2)
      (counted : Counted block batch.counts (replay db (started block batch)))
      (follows : Follows (currentState network db) block next) :
      Stage network db (marked block batch ++ [.syncState [next]])
  | tombstones {ws : List Insert} {next : State} (fresh : Fresh network db next.revision)
      (checked : PublishChecked network (currentState network db) next db)
      (writes : ws <+: tombstoneInserts network (currentState network db) next db) :
      Stage network db ws
  | publication {next : State} (fresh : Fresh network db next.revision)
      (checked : PublishChecked network (currentState network db) next db) :
      Stage network db
        (tombstoneInserts network (currentState network db) next db ++ [.syncState [next]])

section
variable {network : Network} {db : Database} {ws : List Insert}

theorem tombstoneInserts_of_forward {previous next : State}
    (h : isRollback previous next = false) : tombstoneInserts network previous next db = [] := by
  unfold tombstoneInserts; rw [h]; rfl

/-- A forward publication is no rollback. -/
theorem Follows.isRollback {block : Block} {next : State}
    (hnext : Follows (currentState network db) block next)
    (hcont : (currentState network db).initialized = 1 →
      block.blockNumber = (currentState network db).lastBlockNumber + 1) :
    Publication.isRollback (currentState network db) next = false := by
  unfold Publication.isRollback
  rw [decide_eq_false_iff_not]
  rintro ⟨hinit, hzero | hlow⟩
  · rw [hnext.initialized] at hzero; cases hzero
  · rw [hnext.lastBlockNumber, hcont hinit] at hlow; omega

/-- What a block writer knows when it calls `reserve`. -/
structure Prepared (network : Network) (db : Database) (block : Block) (previous next : State) :
    Prop where
  previous : previous = currentState network db
  fresh : Fresh network db block.revision
  contiguous : (currentState network db).initialized = 1 →
    block.blockNumber = (currentState network db).lastBlockNumber + 1 ∧
    block.parentHash = (currentState network db).lastBlockHash
  follows : Follows (currentState network db) block next

theorem blockProgram_stage {block : Block} {batch : FactBatch} {previous next : State}
    {verify confirm : Writer Unit} (hid : db.identity = network)
    (hprepared : block.networkId = network → Prepared network db block previous next)
    (hverify : Quiet verify) (hconfirm : Quiet confirm)
    (h : Writes (do
      reserve block
      batch.tables.forM fun (table, rows) => facts block table rows
      verify
      complete block batch.counts
      confirm
      publish block.networkId previous next
      pure next) db ws) : Stage network db ws := by
  have hattempt (hres : Reserved block db) : Attempt network db block :=
    have hnetwork := hres.identity.trans hid
    have hprepared := hprepared hnetwork
    ⟨hnetwork, hprepared.fresh, hres.canonical, hres.complete, hprepared.contiguous⟩
  rcases h.bind with h | ⟨first, _, afterReserve, rfl, hreserve, h⟩
  · rcases reserve_writes h with rfl | ⟨rfl, hres⟩
    · exact .idle
    · exact .facts (hattempt hres) (List.prefix_append [_] (factInserts batch.tables))
        (by simp [Insert.factRows])
  obtain ⟨rfl, hres⟩ := reserve_returns hreserve
  have hattempt := hattempt hres
  obtain ⟨rfl, _, hcont, hnext⟩ := hprepared hattempt.sameNetwork
  rcases h.bind with h | ⟨first, _, afterFacts, rfl, hfacts, h⟩
  · obtain ⟨hpre, hheaders⟩ := factTables_writes h
    refine .facts hattempt (List.cons_prefix_cons.mpr ⟨rfl, hpre⟩) ?_
    simpa [Insert.factRows] using hheaders
  obtain ⟨rfl, hheaders⟩ := factTables_returns hfacts
  have hheaders : ∀ f ∈ factRows (started block batch), HasHeader block f.2 := by
    simpa [started, Insert.factRows] using hheaders
  rw [← replay_append] at h
  change Writes _ (replay db (started block batch)) afterFacts at h
  rw [← List.append_assoc]
  change Stage network db (started block batch ++ afterFacts)
  rcases writes_quiet hverify h with rfl | ⟨_, _, h⟩
  · rw [List.append_nil]; exact .facts hattempt (List.prefix_refl _) hheaders
  rcases h.bind with h | ⟨first, _, afterMarker, rfl, hcomplete, h⟩
  · rcases complete_writes h with rfl | ⟨rfl, hcounted⟩
    · rw [List.append_nil]; exact .facts hattempt (List.prefix_refl _) hheaders
    · exact .marker hattempt hheaders hcounted
  obtain ⟨rfl, hcounted⟩ := complete_returns hcomplete
  rw [← replay_append] at h
  change Writes _ (replay db (marked block batch)) afterMarker at h
  rw [← List.append_assoc]
  change Stage network db (marked block batch ++ afterMarker)
  rcases writes_quiet hconfirm h with rfl | ⟨_, _, h⟩
  · rw [List.append_nil]; exact .marker hattempt hheaders hcounted
  have h := Writes.of_quiet_tail (fun _ => quiet_pure next) h
  rcases publish_writes h with rfl | ⟨hchecked, hpre⟩
  · rw [List.append_nil]; exact .marker hattempt hheaders hcounted
  rw [hattempt.sameNetwork, tombstoneInserts_of_forward (hnext.isRollback fun hinit => (hcont hinit).1),
    List.nil_append] at hpre
  rcases List.prefix_cons_iff.mp hpre with rfl | ⟨rest, rfl, hrest⟩
  · rw [List.append_nil]; exact .marker hattempt hheaders hcounted
  · obtain rfl := List.prefix_nil.mp hrest
    exact .forward hattempt hheaders hcounted hnext

/-! ## The operations -/

theorem fresh_of_nextRevision {lower r : Nat} (hlower : (currentState network db).revision ≤ lower)
    (h : Returns (nextRevision network lower) db ws r) : Fresh network db r := by
  obtain ⟨rfl, rfl⟩ := nextRevision_returns h
  constructor <;> omega

theorem checkBatch_ok {previous : State} {block : Block} {batch : FactBatch}
    (h : checkBatch previous block batch = .ok ()) : previous.initialized = 1 →
      block.blockNumber = previous.lastBlockNumber + 1 ∧
      block.parentHash = previous.lastBlockHash := by
  intro hinit
  unfold checkBatch at h
  rw [hinit] at h
  simp only [Bind.bind, Except.bind, throw, throwThe, MonadExceptOf.throw, if_true] at h
  split at h
  · cases h
  split at h
  · cases h
  split at h
  · cases h
  split at h
  · cases h
  rename_i expected hexpected
  split at h
  · cases h
  rename_i hheight
  split at h
  · cases h
  rename_i hparent
  refine ⟨?_, by simpa using hparent⟩
  rw [not_not.mp hheight]
  exact (checkedAdd_eq_some (context_ok hexpected)).1

theorem publishBatch_stage {block : Block} {batch : FactBatch} (hid : db.identity = network)
    (hfresh : Fresh network db block.revision)
    (h : Writes (publishBatch (currentState network db) block batch) db ws) :
    Stage network db ws := by
  rcases writes_lift h with rfl | ⟨⟨⟩, hcheck, h⟩
  · exact .idle
  have hpure : Quiet (pure () : Writer Unit) := quiet_pure ()
  refine blockProgram_stage hid (fun _ => ?_) hpure hpure h
  exact ⟨rfl, hfresh, checkBatch_ok hcheck, ⟨rfl, rfl, rfl, rfl, rfl, rfl⟩⟩

theorem verifyRows_quiet (block : Block) (batch : FactBatch) : Quiet (verifyRows block batch) :=
  Quiet.forM (fun _ => (quiet_read _).bind fun _ => quiet_ensure _ _) _

theorem writeBlock_stage {source : LegacyBlock} {evidence : MappedEvidence} {input : WriteContext}
    {now : Nat} (hid : db.identity = network)
    (h : Writes (writeBlock (currentState .bitcoin db) source evidence input now) db ws) :
    Stage network db ws := by
  rcases writes_lift h with rfl | ⟨_, _, h⟩
  · exact .idle
  rcases writes_lift h with rfl | ⟨height, hheight, h⟩
  · exact .idle
  rcases writes_ensure h with rfl | ⟨hsource, h⟩
  · exact .idle
  rcases writes_ensure h with rfl | ⟨hparent, h⟩
  · exact .idle
  rcases writes_quiet (nextRevision_quiet _ _) h with rfl | ⟨revision, hrevision, h⟩
  · exact .idle
  rcases writes_lift h with rfl | ⟨millis, _, h⟩
  · exact .idle
  rcases writes_lift h with rfl | ⟨batch, _, h⟩
  · exact .idle
  have hfresh := fresh_of_nextRevision (Nat.le_max_left _ _) hrevision
  refine blockProgram_stage hid ?_ (verifyRows_quiet _ _) (quiet_ensure _ _) h
  intro hnetwork
  change .bitcoin = network at hnetwork
  subst hnetwork
  refine ⟨rfl, hfresh, fun hinit => ?_, ⟨rfl, rfl, rfl, ?_, rfl, rfl⟩⟩
  · rw [if_pos hinit] at hheight
    refine ⟨?_, hparent hinit⟩
    rw [← (checkedAdd_eq_some (context_ok hheight)).1]; exact hsource
  · by_cases hinit : (currentState .bitcoin db).initialized = 1
    · simp only [writtenBlock, hinit, if_true]
    · rw [if_neg hinit] at hheight
      simp only [writtenBlock, hinit, if_false]
      rw [Except.ok.inj hheight]; exact hsource.symm

theorem publish_stage {next : State} (hfresh : Fresh network db next.revision)
    (h : Writes (publish network (currentState network db) next) db ws) :
    Stage network db ws := by
  rcases publish_writes h with rfl | ⟨hchecked, hpre⟩
  · exact .idle
  rcases List.prefix_concat_iff.mp hpre with rfl | hpre
  · exact .publication hfresh hchecked
  · exact .tombstones hfresh hchecked hpre

/-- Whatever operation ran, and wherever it stopped, it is at one of the stages. -/
theorem stopped_cases (hid : db.identity = network) (h : Stopped network db ws) :
    Stage network db ws := by
  obtain ⟨op, h⟩ := h
  cases op with
  | publishBatch clock block batch =>
    have h := writes_read h
    rcases writes_quiet (nextRevision_quiet _ _) h with rfl | ⟨revision, hrevision, h⟩
    · exact .idle
    exact publishBatch_stage hid (fresh_of_nextRevision (Nat.le_max_left ..) hrevision) h
  | writeBlock source evidence input now =>
    have h := writes_read h
    exact writeBlock_stage hid h
  | publish clock next =>
    have h := writes_read h
    rcases writes_quiet (nextRevision_quiet _ _) h with rfl | ⟨revision, hrevision, h⟩
    · exact .idle
    exact publish_stage (fresh_of_nextRevision (Nat.le_max_left ..) hrevision)
      (Writes.of_quiet_tail (fun _ => quiet_pure _) h)

end

end AmlReal.Warehouse.Attempts
