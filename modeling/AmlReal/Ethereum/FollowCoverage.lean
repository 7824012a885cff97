import AmlReal.Ethereum.Ingestion

/-! # What the follower leaves behind it

The cursor moves to every persisted block that is not below it, whichever
command persisted it. It stays above complete blocks only, exactly as long as
no block moves it across one that is missing. -/

namespace AmlReal.Ethereum.FollowCoverage
open AmlReal.Foundations.Interleaving AmlReal.Foundations.StoreProgram
open AmlReal.Foundations.StoreProgram.Program AmlReal.Ethereum.Ingestion

section
variable (config : AppConfig)

/-- The block has its complete marker. -/
def Complete (db : Database) (blockNumber : Nat) : Prop :=
  ∃ row ∈ db.ingestedBlocks, row.networkId = config.ethNetworkId ∧
    row.blockNumber = blockNumber ∧ row.ingestionStatus = "complete"

/-- The stored cursor, when there is one. -/
def cursor (db : Database) : Option Nat := (checkpoint config db).map SyncStateRow.lastSyncedBlock

/-- Every block from the configured start up to the cursor is complete. -/
def Covered (db : Database) : Prop :=
  ∀ last ∈ cursor config db, ∀ n, config.ethStartBlock ≤ n → n ≤ last → Complete config db n

/-- A cursor row passes over no block that is missing: what lies between the
stored cursor and the row's block is complete. -/
def Gapless (db : Database) : Insert → Prop
  | .syncState row => row.networkId = config.ethNetworkId →
      ∀ n, config.ethStartBlock ≤ n → n < row.lastSyncedBlock →
        (∃ last ∈ cursor config db, n ≤ last) ∨ Complete config db n
  | _ => True

end

section
variable {config : AppConfig} {db : Database}

/-! ## What inserts do to the cursor -/

theorem complete_append {n : Nat} (h : Complete config db n) (w : Insert) :
    Complete config (LogStore.append db w) n := by
  obtain ⟨row, hrow, hfields⟩ := h
  refine ⟨row, ?_, hfields⟩
  cases w with
  | ingestedBlocks other => exact List.mem_append_left _ hrow
  | _ => exact hrow

theorem complete_marker {row : IngestedBlockRow} (hnetwork : row.networkId = config.ethNetworkId)
    (hstatus : row.ingestionStatus = "complete") :
    Complete config (LogStore.append db (.ingestedBlocks row)) row.blockNumber :=
  ⟨row, List.mem_append_right _ (by simp), hnetwork, rfl, hstatus⟩

theorem cursor_syncState (row : SyncStateRow) :
    cursor config (LogStore.append db (.syncState row)) =
      if row.networkId = config.ethNetworkId then some row.lastSyncedBlock
      else cursor config db := by
  unfold cursor checkpoint
  show (((db.syncState ++ [row]).filter _).getLast?).map _ = _
  rw [List.filter_append]
  by_cases h : row.networkId = config.ethNetworkId
  · simp [h]
  · simp [h]

/-- A cursor row keeps the coverage exactly when it passes over no gap. -/
theorem covered_syncState_iff (hcovered : Covered config db) {row : SyncStateRow}
    (hnetwork : row.networkId = config.ethNetworkId)
    (hcomplete : Complete config db row.lastSyncedBlock) :
    Covered config (LogStore.append db (.syncState row)) ↔ Gapless config db (.syncState row) := by
  unfold Covered
  rw [cursor_syncState, if_pos hnetwork]
  constructor
  · intro h _ n hstart hlt
    obtain ⟨stored, hstored, hfields⟩ := h _ rfl n hstart (Nat.le_of_lt hlt)
    exact Or.inr ⟨stored, hstored, hfields⟩
  · rintro hgap last hlast n hstart hle
    obtain rfl := Option.some.inj hlast
    refine complete_append ?_ _
    rcases Nat.lt_or_eq_of_le hle with hlt | rfl
    · rcases hgap hnetwork n hstart hlt with ⟨stored, hstored, hn⟩ | hn
      · exact hcovered stored hstored n hstart hn
      · exact hn
    · exact hcomplete

theorem covered_append (hcovered : Covered config db) {w : Insert}
    (hw : ∀ row, w ≠ .syncState row) : Covered config (LogStore.append db w) := by
  intro last hlast n hstart hle
  refine complete_append (hcovered last ?_ n hstart hle) w
  cases w with
  | syncState row => exact absurd rfl (hw row)
  | _ => exact hlast

/-! ## Every command keeps the coverage -/

abbrev KeepsCoverage (config : AppConfig) {α : Type} (p : Work α) (db : Database)
    (Q : α → Database → Prop) : Prop := Keeps (Covered config) (Gapless config) Q p db

/-- An insert that is no cursor row. -/
theorem keeps_write {w : Insert} (hw : ∀ row, w ≠ .syncState row) :
    KeepsCoverage config (write w) db fun _ _ => True := by
  intro t _ hI _
  exact ⟨covered_append hI hw, trivial⟩

theorem keeps_insertFacts (table : FactTable) (rows : List AmlReal.Foundations.Json.Value) :
    KeepsCoverage config (insertFacts config table rows) db fun _ _ => True :=
  under_forM (K := fun _ => True) trivial fun _ _ _ _ => keeps_write (by simp)

theorem keeps_advanceCheckpoint {block : IngestedBlockRow}
    (hnetwork : block.networkId = config.ethNetworkId)
    (hcomplete : Complete config db block.blockNumber) :
    KeepsCoverage config (advanceCheckpoint config block) db fun _ _ => True := by
  refine under_read fun t ht _ => under_when (fun _ u hu hI hgap => ⟨?_, trivial⟩) fun _ => trivial
  have hstored : Complete config u block.blockNumber :=
    Extends.keep (P := fun s => Complete config s block.blockNumber)
      (fun _ w h => complete_append h w) (ht.trans hu) hcomplete
  exact (covered_syncState_iff hI hnetwork hstored).mpr hgap

theorem keeps_persistBlock (blockNumber : Nat) (fetched : Fetched) :
    KeepsCoverage config (persistBlock config (extractBlock config blockNumber fetched)) db
      fun _ _ => True := by
  refine Under.bind (Under.weaken (Q := fun _ _ => True) ?_ fun _ t _ => ?_)
  · exact under_read fun t _ _ => under_ensure fun _ => under_read fun u _ _ => by
      unfold Program.ensure
      split <;> trivial
  refine Under.bind (Under.weaken (Q := fun _ _ => True) ?_ fun _ t _ => ?_)
  · exact under_forM (K := fun _ => True) trivial fun table _ u _ => keeps_insertFacts table _
  refine under_write fun u _ hI _ => ⟨covered_append hI (by simp), ?_⟩
  -- the cursor row comes after the marker of its own block
  exact keeps_advanceCheckpoint rfl (complete_marker rfl rfl)

theorem keeps_ingestOne (answers : Answers) (blockNumber : Nat) :
    KeepsCoverage config (ingestOne config answers blockNumber) db fun _ _ => True := by
  refine under_read fun t _ _ => ?_
  split
  · trivial
  · refine Under.bind (Under.weaken (Q := fun _ _ => True) ?_ fun result u _ => ?_)
    · exact under_attempt (fun _ _ h => h)
        (under_lift fun fetched _ => keeps_persistBlock blockNumber fetched) fun _ _ _ => trivial
    · cases result with
      | ok _ => trivial
      | error message =>
        exact under_write fun v _ hI _ => ⟨covered_append hI (by simp), trivial⟩

theorem keeps_followTo (answers : Answers) (maxBlocks : Option Nat) (count : Nat) (f : Following) :
    KeepsCoverage config (followTo config answers maxBlocks count f) db fun _ _ => True := by
  induction count generalizing f db with
  | zero => trivial
  | succ count ih =>
    refine Under.bind ((keeps_ingestOne answers _).weaken fun completed t _ => ?_)
    show KeepsCoverage config (if maxBlocks.any _ = true then _ else _) t _
    split
    · trivial
    · exact ih _

theorem keeps_followPolls (answers : Answers) (maxBlocks : Option Nat)
    (polls : List (Except String Nat)) (f : Following) :
    KeepsCoverage config (followPolls config answers maxBlocks polls f) db fun _ _ => True := by
  induction polls generalizing f db with
  | nil => trivial
  | cons head polls ih =>
    refine under_lift fun finalized _ => Under.bind
      ((keeps_followTo answers maxBlocks _ f).weaken fun reached t _ => ?_)
    obtain ⟨finished, f'⟩ := reached
    show KeepsCoverage config (if finished = true then _ else _) t _
    split
    · trivial
    · exact ih f'

theorem keeps_program (command : Command) :
    KeepsCoverage config (command.program config) db fun _ _ => True := by
  cases command with
  | range answers finalized fromBlock toBlock =>
    refine under_ensure fun _ => under_lift fun head _ => under_ensure fun _ => ?_
    exact under_forM (K := fun _ => True) trivial fun n _ t _ =>
      Under.bind ((keeps_ingestOne answers n).weaken fun _ _ _ => trivial)
  | follow answers polls maxBlocks =>
    exact under_ensure fun _ => under_read fun t _ _ => keeps_followPolls answers maxBlocks polls _

end

/-! ## Runs -/

/-- A program of the pool: a command as it starts. -/
def Started (config : AppConfig) (p : Work Unit) : Prop :=
  ∃ command : Command, p = command.program config

def sampleConfig : AppConfig where
  ethNetworkId := "ethereum"
  ethStartBlock := 0
  tracesRequired := false
  ethIngestionBatchMaxRows := 100
  ethRpcMaxRetries := 3
  sha256 := id

def sampleAnswers : Answers where
  fetch _ := .ok ⟨"0xb", "0xa", true, 0, fun _ => []⟩
  now := 0

/-- One block, ingested on its own. -/
def sampleRange (blockNumber : Nat) : Command :=
  .range sampleAnswers (.ok blockNumber) blockNumber blockNumber

/-- What the command inserts into an empty database. -/
def sampleInserts (blockNumber : Nat) : List Insert :=
  [.ingestedBlocks (extractBlock sampleConfig blockNumber ⟨"0xb", "0xa", true, 0, fun _ => []⟩).block,
    .syncState ⟨"ethereum", blockNumber, "0xb", 0⟩]

end AmlReal.Ethereum.FollowCoverage
