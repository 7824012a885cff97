import AmlReal.Foundations.Interleaving
import AmlReal.Tron.Ingestion

/-! # What lies below the checkpoint

Only auto mode moves the checkpoint, and only over blocks that it has completed
or found complete. What a reader sees of them is the latest row: a block stays
visible as long as nothing reopens it. Alone on the store, only a forced replay
does. -/

namespace AmlReal.Tron.CheckpointCoverage
open AmlReal.Foundations.Interleaving AmlReal.Foundations.StoreProgram
open AmlReal.Foundations.StoreProgram.Program AmlReal.Tron.Ingestion

/-- The block was complete at some time. -/
def Ingested (db : Database) (blockNumber : Nat) : Prop :=
  ∃ row ∈ db.ingestedBlocks, row.blockNumber = blockNumber ∧ row.ingestionStatus = "COMPLETE"

/-- The latest status of the block is COMPLETE. -/
def LatestComplete (db : Database) (blockNumber : Nat) : Prop :=
  ∃ row, storedBlockState db blockNumber = some row ∧ row.ingestionStatus = "COMPLETE"

/-- A row that takes a complete block back is one of a block of `reopened`. -/
def Reopens (reopened : Nat → Prop) (db : Database) : Insert → Prop
  | .ingestedBlocks row => row.ingestionStatus ≠ "COMPLETE" →
      LatestComplete db row.blockNumber → reopened row.blockNumber
  | _ => True

/-- Every block from the configured start up to the checkpoint was complete, and
readers see it unless it was reopened. -/
def Covered (config : Config) (reopened : Nat → Prop) (db : Database) : Prop :=
  ∀ last ∈ getLastSyncedBlock db, ∀ n, config.tronStartBlock ≤ n → n ≤ last →
    Ingested db n ∧ (¬reopened n → LatestComplete db n)

structure Sound (config : Config) (reopened : Nat → Prop) (db : Database) : Prop where
  ingested : ∀ last ∈ getLastSyncedBlock db, ∀ n, config.tronStartBlock ≤ n → n ≤ last → Ingested db n
  latest : ∀ n, Ingested db n → ¬reopened n → LatestComplete db n

/-! ## What inserts do to the journal -/

section
variable {config : Config} {reopened : Nat → Prop} {db : Database}

theorem Sound.covered (h : Sound config reopened db) : Covered config reopened db := by
  intro last hlast n hstart hle
  have hn := h.ingested last hlast n hstart hle
  exact ⟨hn, h.latest n hn⟩

theorem storedBlockState_concat (row : IngestedBlockRow) (n : Nat) :
    storedBlockState (LogStore.append db (.ingestedBlocks row)) n =
      if row.blockNumber = n then some row else storedBlockState db n := by
  show ((db.ingestedBlocks ++ [row]).filter _).getLast? = _
  rw [List.filter_append]
  by_cases h : row.blockNumber = n
  · simp [h]
  · simp [h, storedBlockState]

theorem ingested_append {n : Nat} (h : Ingested db n) (w : Insert) :
    Ingested (LogStore.append db w) n := by
  obtain ⟨row, hrow, hfields⟩ := h
  refine ⟨row, ?_, hfields⟩
  cases w with
  | ingestedBlocks other => exact List.mem_append_left _ hrow
  | _ => exact hrow

theorem Ingested.extends {t : Database} {n : Nat} (h : Ingested db n) (ht : Extends db t) :
    Ingested t n :=
  Extends.keep (P := fun s => Ingested s n) (fun _ w h => ingested_append h w) ht h

/-- The row in the journal that a block is read by. -/
theorem mem_of_storedBlockState {row : IngestedBlockRow} {n : Nat}
    (h : storedBlockState db n = some row) : row ∈ db.ingestedBlocks ∧ row.blockNumber = n := by
  simpa using List.mem_filter.mp (List.mem_of_getLast? h)

theorem LatestComplete.ingested {n : Nat} (h : LatestComplete db n) : Ingested db n := by
  obtain ⟨row, hrow, hstatus⟩ := h
  obtain ⟨hmem, hnumber⟩ := mem_of_storedBlockState hrow
  exact ⟨row, hmem, hnumber, hstatus⟩

theorem latestComplete_concat {row : IngestedBlockRow} {n : Nat} :
    LatestComplete (LogStore.append db (.ingestedBlocks row)) n ↔
      if row.blockNumber = n then row.ingestionStatus = "COMPLETE" else LatestComplete db n := by
  unfold LatestComplete
  rw [storedBlockState_concat]
  split <;> simp

/-- No row that is allowed hides a block that was not reopened. -/
theorem latest_append {w : Insert} (h : Sound config reopened db) (hw : Reopens reopened db w)
    (n : Nat) (hn : Ingested (LogStore.append db w) n) (hopen : ¬reopened n) :
    LatestComplete (LogStore.append db w) n := by
  cases w with
  | ingestedBlocks row =>
    rw [latestComplete_concat]
    obtain ⟨stored, hmem, hnumber, hstatus⟩ := hn
    split
    · rename_i hrow
      by_contra hstatus'
      rcases List.mem_append.mp hmem with hmem | hmem
      · have hlatest := h.latest n ⟨stored, hmem, hnumber, hstatus⟩ hopen
        exact hopen (hrow ▸ hw hstatus' (hrow ▸ hlatest))
      · obtain rfl := List.mem_singleton.mp hmem
        exact hstatus' hstatus
    · rename_i hrow
      rcases List.mem_append.mp hmem with hmem | hmem
      · exact h.latest n ⟨stored, hmem, hnumber, hstatus⟩ hopen
      · obtain rfl := List.mem_singleton.mp hmem
        exact absurd hnumber hrow
  | _ => exact h.latest n hn hopen

theorem sound_append {w : Insert} (h : Sound config reopened db) (hw : Reopens reopened db w)
    (hsync : ∀ n, w ≠ .syncState n) : Sound config reopened (LogStore.append db w) := by
  refine ⟨fun last hlast n hstart hle => ingested_append (h.ingested last ?_ n hstart hle) w,
    latest_append h hw⟩
  cases w with
  | syncState n => exact absurd rfl (hsync n)
  | _ => exact hlast

theorem sound_syncState {last : Nat} (h : Sound config reopened db)
    (hlast : ∀ n, config.tronStartBlock ≤ n → n ≤ last → Ingested db n) :
    Sound config reopened (LogStore.append db (.syncState last)) := by
  refine ⟨fun stored hstored n hstart hle => ?_, latest_append h trivial⟩
  have hconcat : getLastSyncedBlock (LogStore.append db (.syncState last)) = some last :=
    List.getLast?_concat
  obtain rfl : last = stored := Option.some.inj (hconcat.symm.trans hstored)
  exact ingested_append (hlast n hstart hle) _

end

/-! ## Every command keeps the journal sound -/

section
variable (config : Config) (reopened : Nat → Prop)

abbrev KeepsSound {α : Type} (p : Work α) (db : Database) (Q : α → Database → Prop) : Prop :=
  Keeps (Sound config reopened) (Reopens reopened) Q p db

/-- What auto mode has behind it at a block. -/
def Behind (options : FetchOptions) (blockNumber : Nat) (db : Database) : Prop :=
  options.advanceCheckpoint = true →
    ∀ n, config.tronStartBlock ≤ n → n < blockNumber → Ingested db n

end

section
variable {config : Config} {reopened : Nat → Prop} {db : Database} {options : FetchOptions}
variable {answers : Answers} {blockNumber : Nat} {blockHash : String} {block : Block}

theorem Behind.extends {t : Database} (h : Behind config options blockNumber db) (ht : Extends db t) :
    Behind config options blockNumber t :=
  fun hadvance n hstart hlt => (h hadvance n hstart hlt).extends ht

theorem Behind.append (h : Behind config options blockNumber db) (w : Insert) :
    Behind config options blockNumber (LogStore.append db w) :=
  h.extends (Extends.append db w)

theorem Behind.next (h : Behind config options blockNumber db) (hn : Ingested db blockNumber) :
    Behind config options (blockNumber + 1) db := by
  intro hadvance n hstart hlt
  rcases Nat.lt_or_eq_of_le (Nat.le_of_lt_succ hlt) with hlt | rfl
  · exact h hadvance n hstart hlt
  · exact hn

/-- A program keeps what lies behind when it keeps the journal sound. -/
theorem KeepsSound.extends {α : Type} {p : Work α} {Q : α → Database → Prop}
    (h : KeepsSound config reopened p db Q) :
    KeepsSound config reopened p db fun a t => Q a t ∧ Extends db t :=
  Under.extends (fun _ _ ht => ht) h

theorem keeps_write {w : Insert} (hsync : ∀ n, w ≠ .syncState n) :
    KeepsSound config reopened (write w) db fun _ _ => True := by
  intro t _ hI hA
  exact ⟨sound_append hI hA hsync, trivial⟩

theorem keeps_insertBatches (batches : List Batch) :
    KeepsSound config reopened (insertBatches batches) db fun _ _ => True :=
  under_forM (K := fun _ => True) trivial fun _ _ _ _ => keeps_write (by simp)

theorem keeps_recordError (txHash stage : String) (error : Error) :
    KeepsSound config reopened
      (recordError config answers.now blockNumber blockHash txHash stage error) db
      fun _ _ => True :=
  under_read fun _ _ _ => keeps_write (by simp)

theorem keeps_resolveIngestionFailures (now : Nat) :
    KeepsSound config reopened (resolveIngestionFailures now blockNumber) db fun _ _ => True :=
  under_read fun _ _ _ => under_when (fun _ => keeps_write (by simp)) fun _ => trivial

theorem keeps_saveSyncState (hbehind : Behind config options (blockNumber + 1) db) :
    KeepsSound config reopened (saveSyncState options blockNumber) db fun _ t =>
      Behind config options (blockNumber + 1) t := by
  refine under_when (fun hadvance t ht hI _ => ?_) fun _ => hbehind
  have hbehind' := hbehind.extends ht
  refine ⟨sound_syncState hI fun n hstart hle => hbehind' hadvance n hstart (Nat.lt_succ_of_le hle), ?_⟩
  exact hbehind'.append _

theorem keeps_completeBlock (hbehind : Behind config options blockNumber db) :
    KeepsSound config reopened (completeBlock options answers blockNumber blockHash block) db
      fun _ t => Behind config options (blockNumber + 1) t := by
  refine Under.bind (under_write fun t ht hI hA => ⟨sound_append hI hA (by simp), ?_⟩)
  refine (keeps_resolveIngestionFailures answers.now).extends.weaken fun _ u hu => ?_
  have hrow : Ingested (LogStore.append t (.ingestedBlocks (blockRow answers.now blockNumber
      blockHash block block.transactions.length "COMPLETE" ""))) blockNumber :=
    ⟨_, List.mem_append_right _ (List.mem_singleton.mpr rfl), rfl, rfl⟩
  have hbehind' := ((hbehind.extends ht).append _).next hrow
  exact keeps_saveSyncState (hbehind'.extends hu.2)

theorem keeps_recordFailedBlock (error : Error) :
    KeepsSound config reopened (recordFailedBlock answers blockNumber blockHash block error) db
      fun _ _ => True :=
  keeps_write (by simp)

theorem keeps_failTransactions (first : Error) :
    KeepsSound config reopened
      (failTransactions config answers blockNumber blockHash block first) db fun _ _ => True := by
  refine Under.bind (Under.weaken (Q := fun _ _ => True) ?_ fun _ t _ => ?_)
  · exact under_forM (K := fun _ => True) trivial fun entry _ t _ => keeps_recordError _ _ _
  refine Under.bind ((keeps_insertBatches _).weaken fun _ u _ => ?_)
  cases (answers.flushBatches blockNumber).outcome with
  | ok _ => exact keeps_recordFailedBlock first
  | error flushError =>
    exact Under.bind ((keeps_recordError _ _ _).weaken fun _ _ _ => keeps_recordFailedBlock first)

theorem keeps_failFlush (error : Error) :
    KeepsSound config reopened (failFlush config answers blockNumber blockHash block error) db
      fun _ _ => True :=
  Under.bind ((keeps_recordError _ _ _).weaken fun _ _ _ => keeps_recordFailedBlock error)

/-- A program that passes on an error has no result. -/
theorem keeps_then_error {α β : Type} {p : Work α} {e : Error} {Q : β → Database → Prop}
    (h : KeepsSound config reopened p db fun _ _ => True) :
    KeepsSound config reopened (p >>= fun _ => (lift (.error e) : Work β)) db Q :=
  Under.bind (h.weaken fun _ _ _ => trivial)

theorem keeps_settleBlock (hbehind : Behind config options blockNumber db) :
    KeepsSound config reopened (settleBlock config options answers blockNumber blockHash block) db
      fun _ t => Behind config options (blockNumber + 1) t := by
  unfold settleBlock
  split
  · exact keeps_then_error (keeps_failTransactions _)
  · refine Under.bind ((keeps_insertBatches _).extends.weaken fun _ t ht => ?_)
    cases (answers.flushBatches blockNumber).outcome with
    | error error => exact keeps_then_error (keeps_failFlush error)
    | ok _ => exact keeps_completeBlock (hbehind.extends ht.2)

/-- Where the loop goes on after a block, the block is behind it. -/
def Passed (config : Config) (options : FetchOptions) (blockNumber : Nat) :
    Option Nat → Database → Prop
  | none, _ => True
  | some _, db => Behind config options (blockNumber + 1) db

theorem keeps_ingestBlock {totalTxs txCount : Nat} (hbehind : Behind config options blockNumber db) :
    KeepsSound config reopened
      (ingestBlock config options answers totalTxs txCount blockNumber blockHash block) db
      (Passed config options blockNumber) := by
  refine under_write fun t ht hI hA => ⟨sound_append hI hA (by simp), ?_⟩
  have hopened := (hbehind.extends ht).append (.ingestedBlocks
    (blockRow answers.now blockNumber blockHash block block.transactions.length "PROCESSING" ""))
  split
  · exact Under.bind ((keeps_completeBlock hopened).weaken fun _ _ h => h)
  split
  · trivial
  refine under_lift fun _ _ => Under.bind (Under.weaken (Q := fun _ u => Behind config options blockNumber u)
    ?_ fun _ u hu => Under.bind ((keeps_settleBlock hu).weaken fun _ _ h => h))
  exact under_forM (K := Behind config options blockNumber) hopened fun tx _ u hu =>
    (keeps_insertBatches _).extends.weaken fun _ _ hv => hu.extends hv.2

theorem keeps_skipBlock {txCount : Nat} (hbehind : Behind config options (blockNumber + 1) db) :
    KeepsSound config reopened (skipBlock options answers txCount blockNumber) db
      (Passed config options blockNumber) := by
  refine Under.bind ((keeps_resolveIngestionFailures _).extends.weaken fun _ t ht => ?_)
  exact Under.bind ((keeps_saveSyncState (hbehind.extends ht.2)).weaken fun _ _ h => h)

/-- A block is skipped only where its latest status is COMPLETE. -/
theorem decideBlockIngestion_skip {existing : Option IngestedBlockRow} {forceReplay : Bool}
    (h : decideBlockIngestion blockNumber blockHash existing forceReplay = .ok .skip) :
    ∃ row, existing = some row ∧ row.ingestionStatus = "COMPLETE" := by
  unfold decideBlockIngestion at h
  split at h
  · cases h
  · rename_i row
    split at h
    · rename_i hrow; exact ⟨row, rfl, hrow.2⟩
    · split at h <;> cases h

theorem keeps_fetchBlock {totalTxs txCount : Nat} (hbehind : Behind config options blockNumber db) :
    KeepsSound config reopened
      (fetchBlock config options answers totalTxs txCount blockNumber) db
      (Passed config options blockNumber) := by
  unfold fetchBlock
  split
  · exact keeps_then_error (keeps_recordError _ _ _)
  split
  · exact keeps_then_error (keeps_recordError _ _ _)
  refine under_read fun t ht _ => ?_
  split
  · exact keeps_then_error (keeps_recordError _ _ _)
  · rename_i hskip
    obtain ⟨row, hrow, hstatus⟩ := decideBlockIngestion_skip hskip
    exact keeps_skipBlock ((hbehind.extends ht).next (LatestComplete.ingested ⟨row, hrow, hstatus⟩))
  · exact keeps_ingestBlock (hbehind.extends ht)

theorem keeps_fetchBlocks {totalTxs : Nat} (count txCount : Nat)
    (hbehind : Behind config options blockNumber db) :
    KeepsSound config reopened
      (fetchBlocks config options answers totalTxs count blockNumber txCount) db
      fun _ _ => True := by
  induction count generalizing blockNumber txCount db with
  | zero => trivial
  | succ count ih =>
    unfold fetchBlocks
    split
    · trivial
    refine Under.bind ((keeps_fetchBlock hbehind).weaken fun counted t ht => ?_)
    cases counted with
    | none => trivial
    | some txCount => exact ih txCount ht

theorem keeps_fetchTronWithOptions {startBlock totalTxs : Nat}
    (hbehind : Behind config options startBlock db) :
    KeepsSound config reopened
      (fetchTronWithOptions config options answers startBlock totalTxs) db fun _ _ => True := by
  refine under_lift fun latestBlock _ => under_ensure fun _ => ?_
  refine Under.bind ((keeps_fetchBlocks _ 0 hbehind).weaken fun _ t _ => ?_)
  refine Under.bind ((keeps_insertBatches _).weaken fun _ u _ => ?_)
  cases answers.finalFlush.outcome <;> trivial

theorem keeps_validateReplayRange {startBlock endBlock : Nat} {p : Work Unit}
    (h : startBlock ≤ endBlock → KeepsSound config reopened p db fun _ _ => True) :
    KeepsSound config reopened (validateReplayRange startBlock endBlock >>= fun _ => p) db
      fun _ _ => True := by
  refine Under.bind (under_ensure fun hle => under_ensure fun _ => ?_)
  unfold Program.ensure
  split
  · exact h hle
  · trivial

end

section
variable {config : Config} {reopened : Nat → Prop} {db : Database}

/-- The next block of the loop has every block from the configured start below it. -/
theorem behind_resume {nextBlock : Nat} {options : FetchOptions} (hsound : Sound config reopened db)
    (hnext : Behind config options nextBlock db) :
    Behind config options (((getLastSyncedBlock db).map saturatingNext).getD nextBlock) db := by
  intro hadvance n hstart hlt
  cases hlast : getLastSyncedBlock db with
  | none => rw [hlast] at hlt; exact hnext hadvance n hstart hlt
  | some last =>
    rw [hlast] at hlt
    refine hsound.ingested last hlast n hstart (Nat.le_of_lt_succ (Nat.lt_of_lt_of_le hlt ?_))
    exact Nat.min_le_left _ _

theorem keeps_tronLoop (passes : List Answers) {nextBlock : Nat}
    (hbehind : Behind config ⟨none, false, true⟩ nextBlock db) :
    KeepsSound config reopened (tronLoop config passes nextBlock) db fun _ _ => True := by
  induction passes generalizing nextBlock db with
  | nil => trivial
  | cons answers passes ih =>
    have hpass : KeepsSound config reopened (fetchTron config answers nextBlock) db fun _ t =>
        True ∧ Extends db t := (keeps_fetchTronWithOptions hbehind).extends
    refine Under.bind (Under.weaken (Q := fun _ t => Extends db t) ?_ fun result t ht => ?_)
    · exact under_attempt (fun _ _ h => h) (hpass.weaken fun _ _ h => h.2) fun _ _ h => h
    have hbehind' := hbehind.extends ht
    cases result with
    | ok _ =>
      exact under_read fun u hu hI => ih (behind_resume hI (hbehind'.extends hu))
    | error e =>
      cases e with
      | finalizedHashConflict _ _ _ => trivial
      | other _ => exact ih hbehind'

theorem keeps_program (command : Command) :
    KeepsSound config reopened (command.program config) db fun _ _ => True := by
  cases command with
  | auto passes =>
    refine under_read fun t _ hI => keeps_tronLoop passes (behind_resume hI fun _ n hstart hlt => ?_)
    exact absurd hstart (Nat.not_le_of_lt hlt)
  | ingest answers startBlock endBlock =>
    exact keeps_validateReplayRange fun _ => keeps_fetchTronWithOptions fun hadvance => by cases hadvance
  | replay answers startBlock endBlock =>
    exact keeps_validateReplayRange fun _ => keeps_fetchTronWithOptions fun hadvance => by cases hadvance
  | flush batches => exact keeps_insertBatches batches

end

/-! ## What a command reopens when it is alone -/

section
variable (config : Config) (reopened : Nat → Prop)

abbrev ReopensOnly {α : Type} (p : Work α) (db : Database) (Q : α → Database → Prop) : Prop :=
  Alone (Reopens reopened) Q p db

/-- The block may be reopened, if it is complete. -/
def MayReopen (blockNumber : Nat) (db : Database) : Prop :=
  LatestComplete db blockNumber → reopened blockNumber

end

section
variable {config : Config} {reopened : Nat → Prop} {db : Database} {options : FetchOptions}
variable {answers : Answers} {blockNumber : Nat} {blockHash : String} {block : Block}

theorem MayReopen.congr {t : Database} (h : MayReopen reopened blockNumber db)
    (ht : t.ingestedBlocks = db.ingestedBlocks) : MayReopen reopened blockNumber t := by
  unfold MayReopen LatestComplete storedBlockState at *
  rwa [ht]

/-- A row that is no block state. -/
theorem only_write {w : Insert} (hw : ∀ row, w ≠ .ingestedBlocks row) :
    ReopensOnly reopened (write w) db fun _ t => t.ingestedBlocks = db.ingestedBlocks := by
  cases w with
  | ingestedBlocks row => exact absurd rfl (hw row)
  | _ => exact alone_insert trivial rfl

end

/-! ## Runs -/

section
variable (config : Config) (reopened : Nat → Prop)

/-- A command as it starts. -/
def Started (p : Work Unit) : Prop := ∃ command : Command, p = command.program config

end

/-! ## A replay that crashes -/

def sampleConfig : Config := ⟨1, 0, id⟩

/-- Two solid blocks without transactions. -/
def sampleAnswers : Answers where
  solidBlockNumber := .ok 2
  getBlock _ := .ok ⟨some "0xb", "0xa", 0, []⟩
  refreshIfDue _ := .ok ()
  flushBatches _ := ⟨[], .ok ()⟩
  finalFlush := ⟨[], .ok ()⟩
  now := 0

def sampleCommands : List (Command × Nat) := [(.auto [sampleAnswers], 6), (.replay sampleAnswers 2 2, 1)]

/-- What some commands insert that run one after another, each cut off after a number of inserts. -/
def insertsOf (config : Config) : Database → List (Command × Nat) → List (List Insert)
  | _, [] => []
  | db, (command, made) :: rest =>
    let ws := ((command.program config).exec db).1.take made
    ws :: insertsOf config (replay db ws) rest

/-- The store after the two blocks were ingested and the replay of the second crashed. -/
def sampleStore : Database :=
  replay Database.empty (insertsOf sampleConfig Database.empty sampleCommands).flatten

end AmlReal.Tron.CheckpointCoverage
