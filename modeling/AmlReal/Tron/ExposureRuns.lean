import Mathlib.Data.List.Perm.Basic
import Mathlib.Data.Rat.Defs
import AmlReal.Foundations.Interleaving
import AmlReal.Foundations.LatestRows

/-! # TRON exposure runs

`run_exposure_scan` writes a RUNNING row, its exposure rows and a COMPLETE row;
a reader joins the latest exposure rows to the latest run row of their seed
(`exposure_task.rs`, `wallet_exposure.rs`). Every call has its own run id, so the
calls are a function of it; what a call computes is data of it. A snapshot is
whole as long as each call finds its own RUNNING row to be the latest one of its
seed when it writes its rows and when it completes. -/

namespace AmlReal.Tron.ExposureRuns
open AmlReal.Foundations.Interleaving AmlReal.Foundations.LatestRows
open AmlReal.Foundations.StoreProgram AmlReal.Foundations.StoreProgram.Program

/-! ## Tables -/

structure ExposureAggregate where
  hopDistance : Nat
  exposureScore : ℚ
  pathCount : Nat
  lastTxHash : String
  lastSeenBlock : Nat
  amountShare : ℚ
  timeWeight : ℚ
  serviceMediated : Nat
  deriving DecidableEq

structure AddressExposureRow where
  sourceAddress : String
  exposedAddress : String
  hopDistance : Nat
  exposureScore : ℚ
  pathCount : Nat
  lastTxHash : String
  lastSeenBlock : Nat
  exposureType : String
  bestPathAmountShare : ℚ
  bestPathTimeWeight : ℚ
  serviceMediated : Nat
  propagationRunId : String
  deriving DecidableEq

structure ExposureRunRow where
  sourceAddress : String
  propagationRunId : String
  status : String
  maxHops : Nat
  rowCount : Nat
  completedAtUnixMs : Nat
  deriving DecidableEq

structure Database where
  exposureRuns : List ExposureRunRow
  addressExposure : List AddressExposureRow

def Database.empty : Database := ⟨[], []⟩

inductive Insert where
  | exposureRuns (row : ExposureRunRow)
  | addressExposure (rows : List AddressExposureRow)

instance : LogStore Database Insert where
  append db
    | .exposureRuns row => { db with exposureRuns := db.exposureRuns ++ [row] }
    | .addressExposure rows => { db with addressExposure := db.addressExposure ++ rows }

abbrev Work := Program Database Insert String

/-- `ORDER BY (source_address, exposed_address)` -/
def exposureKey (row : AddressExposureRow) : String × String := (row.sourceAddress, row.exposedAddress)

def latestExposure (db : Database) : List AddressExposureRow := newest exposureKey db.addressExposure

def latestRuns (db : Database) : List ExposureRunRow :=
  newest ExposureRunRow.sourceAddress db.exposureRuns

/-- The rows of a seed that are joined with a complete run. -/
def joinedExposure (db : Database) (seed : String) : List AddressExposureRow :=
  (latestExposure db).filter fun row => row.sourceAddress = seed ∧
    (latestRuns db).any fun run => run.sourceAddress = row.sourceAddress ∧
      run.propagationRunId = row.propagationRunId ∧ run.status = "COMPLETE"

/-! ## A scan -/

/-- What the propagation found, by exposed address. -/
structure Aggregates where
  entries : List (String × ExposureAggregate)
  nodup : (entries.map Prod.fst).Nodup

/-- A call with what it computes. -/
structure Scan where
  seed : String
  maxHops : Nat
  propagated : Except String Aggregates
  completedAtUnixMs : Nat

section
variable (runId : String) (scan : Scan)

def exposureRow (entry : String × ExposureAggregate) : AddressExposureRow where
  sourceAddress := scan.seed
  exposedAddress := entry.1
  hopDistance := entry.2.hopDistance
  exposureScore := entry.2.exposureScore
  pathCount := entry.2.pathCount
  lastTxHash := entry.2.lastTxHash
  lastSeenBlock := entry.2.lastSeenBlock
  exposureType := if entry.2.serviceMediated = 1 then "SERVICE_MEDIATED" else "DIRECTED_FUND_FLOW"
  bestPathAmountShare := entry.2.amountShare
  bestPathTimeWeight := entry.2.timeWeight
  serviceMediated := entry.2.serviceMediated
  propagationRunId := runId

def exposureRows (aggregates : Aggregates) : List AddressExposureRow :=
  aggregates.entries.map (exposureRow runId scan)

def runningRow : ExposureRunRow := ⟨scan.seed, runId, "RUNNING", scan.maxHops, 0, 0⟩

def completeRow (rowCount : Nat) : ExposureRunRow :=
  ⟨scan.seed, runId, "COMPLETE", scan.maxHops, rowCount, scan.completedAtUnixMs⟩

def runExposureScan : Work Nat := do
  write (.exposureRuns (runningRow runId scan))
  let aggregates ← lift scan.propagated
  let rows := exposureRows runId scan aggregates
  Program.when (rows ≠ []) do write (.addressExposure rows)
  write (.exposureRuns (completeRow runId scan rows.length))
  pure rows.length

end

/-! ## Snapshots -/

/-- The calls by their run ids. -/
abbrev Scans := String → Scan

def Started (scans : Scans) (p : Work Nat) : Prop := ∃ runId, p = runExposureScan runId (scans runId)

/-- The RUNNING row of the run is the latest row of its seed. -/
def Owns (db : Database) (seed runId : String) : Prop :=
  ∃ run ∈ latestRuns db, run.sourceAddress = seed ∧ run.propagationRunId = runId ∧
    run.status = "RUNNING"

/-- Runs of one seed do not overlap: a run id is new when it starts, and its run
owns the seed whenever it writes again. -/
def Fenced (db : Database) : Insert → Prop
  | .exposureRuns row =>
    if row.status = "RUNNING" then ∀ run ∈ db.exposureRuns, run.propagationRunId ≠ row.propagationRunId
    else Owns db row.sourceAddress row.propagationRunId
  | .addressExposure rows => ∀ row ∈ rows, Owns db row.sourceAddress row.propagationRunId

/-- No row of the seed is joined, or exactly the rows that one call computed. -/
def AllOrNothing (scans : Scans) (db : Database) (seed : String) : Prop :=
  joinedExposure db seed = [] ∨ ∃ run ∈ latestRuns db, run.sourceAddress = seed ∧
    ∃ aggregates, (scans run.propagationRunId).propagated = .ok aggregates ∧
      (joinedExposure db seed).Perm
        (exposureRows run.propagationRunId (scans run.propagationRunId) aggregates) ∧
      run.rowCount = (joinedExposure db seed).length

/-- The run row is one that its call writes. -/
def FromScan (scans : Scans) (run : ExposureRunRow) : Prop :=
  run = runningRow run.propagationRunId (scans run.propagationRunId) ∨
    ∃ aggregates, (scans run.propagationRunId).propagated = .ok aggregates ∧
      run = completeRow run.propagationRunId (scans run.propagationRunId) aggregates.entries.length

/-- The call's rows, when it has computed them. -/
def rowsOf (scans : Scans) (runId : String) : List AddressExposureRow :=
  match (scans runId).propagated with
  | .ok aggregates => exposureRows runId (scans runId) aggregates
  | .error _ => []

def Written (scans : Scans) (db : Database) (runId : String) : Prop :=
  ∀ row ∈ rowsOf scans runId, row ∈ db.addressExposure

structure Sound (scans : Scans) (db : Database) : Prop where
  runs : ∀ run ∈ db.exposureRuns, FromScan scans run
  rows : ∀ row ∈ db.addressExposure, row ∈ rowsOf scans row.propagationRunId
  started : ∀ row ∈ db.addressExposure, ∃ run ∈ db.exposureRuns,
    run.propagationRunId = row.propagationRunId
  current : ∀ run ∈ latestRuns db, Written scans db run.propagationRunId →
    ∀ row ∈ rowsOf scans run.propagationRunId, row ∈ latestExposure db
  complete : ∀ run ∈ db.exposureRuns, run.status = "COMPLETE" → Written scans db run.propagationRunId

section
variable {scans : Scans} {db : Database}

theorem nodup_keys (runId : String) : ((rowsOf scans runId).map exposureKey).Nodup := by
  unfold rowsOf
  split
  · rename_i aggregates _
    have hmap : (exposureRows runId (scans runId) aggregates).map exposureKey =
        (aggregates.entries.map Prod.fst).map fun address => ((scans runId).seed, address) := by
      simp [exposureRows, exposureKey, exposureRow]
    rw [hmap]
    exact aggregates.nodup.map fun a b hab => (Prod.mk.inj hab).2
  · exact List.nodup_nil

theorem source_of_rowsOf {runId : String} {row : AddressExposureRow} (h : row ∈ rowsOf scans runId) :
    row.sourceAddress = (scans runId).seed ∧ row.propagationRunId = runId := by
  unfold rowsOf at h
  split at h
  · obtain ⟨entry, _, rfl⟩ := List.mem_map.mp h
    exact ⟨rfl, rfl⟩
  · cases h

theorem source_of_run {run : ExposureRunRow} (h : FromScan scans run) :
    run.sourceAddress = (scans run.propagationRunId).seed := by
  rcases h with h | ⟨aggregates, _, h⟩
  · rw [h]; rfl
  · rw [h]; rfl

theorem latestRuns_unique {a b : ExposureRunRow} (ha : a ∈ latestRuns db) (hb : b ∈ latestRuns db)
    (h : a.sourceAddress = b.sourceAddress) : a = b := latest_unique ha hb h

theorem written_append {runId : String} (h : Written scans db runId) (w : Insert) :
    Written scans (LogStore.append db w) runId := by
  intro row hrow
  cases w with
  | exposureRuns other => exact h row hrow
  | addressExposure rows => exact List.mem_append_left rows (h row hrow)

/-! ## Every insert keeps the snapshots whole -/

theorem sound_running {runId : String} (hs : Sound scans db)
    (hfenced : Fenced db (.exposureRuns (runningRow runId (scans runId)))) :
    Sound scans (LogStore.append db (.exposureRuns (runningRow runId (scans runId)))) := by
  have hnew : ∀ run ∈ db.exposureRuns, run.propagationRunId ≠ runId := hfenced
  refine ⟨fun run hrun => ?_, hs.rows, fun row hrow => ?_, fun run hrun hwritten row hrow => ?_,
    fun run hrun hcomplete => ?_⟩
  · rcases List.mem_append.mp hrun with hrun | hrun
    · exact hs.runs run hrun
    · rw [List.mem_singleton.mp hrun]
      exact Or.inl rfl
  · obtain ⟨run, hrun, hid⟩ := hs.started row hrow
    exact ⟨run, List.mem_append_left _ hrun, hid⟩
  · rcases mem_newest_concat.mp hrun with rfl | ⟨hrun, _⟩
    · -- nothing of a new run is written yet
      obtain ⟨other, hother, hid⟩ := hs.started row (hwritten row hrow)
      exact absurd (hid.trans (source_of_rowsOf hrow).2) (hnew other hother)
    · exact hs.current run hrun hwritten row hrow
  · rcases List.mem_append.mp hrun with hrun | hrun
    · exact hs.complete run hrun hcomplete
    · rw [List.mem_singleton.mp hrun] at hcomplete
      exact absurd hcomplete (by simp [runningRow])

theorem sound_complete {runId : String} {aggregates : Aggregates} (hs : Sound scans db)
    (haggregates : (scans runId).propagated = .ok aggregates) (hwritten : Written scans db runId)
    (hfenced : Fenced db (.exposureRuns (completeRow runId (scans runId) aggregates.entries.length))) :
    Sound scans (LogStore.append db
      (.exposureRuns (completeRow runId (scans runId) aggregates.entries.length))) := by
  obtain ⟨owner, howner, hseed, hid, _⟩ : Owns db (scans runId).seed runId := hfenced
  refine ⟨fun run hrun => ?_, hs.rows, fun row hrow => ?_, fun run hrun hrunWritten row hrow => ?_,
    fun run hrun hcomplete => ?_⟩
  · rcases List.mem_append.mp hrun with hrun | hrun
    · exact hs.runs run hrun
    · rw [List.mem_singleton.mp hrun]
      exact Or.inr ⟨aggregates, haggregates, rfl⟩
  · obtain ⟨run, hrun, hid⟩ := hs.started row hrow
    exact ⟨run, List.mem_append_left _ hrun, hid⟩
  · rcases mem_newest_concat.mp hrun with rfl | ⟨hrun, _⟩
    · -- the run owned the seed, so its rows were the latest ones already
      refine hs.current owner howner ?_ row ?_
      · rw [hid]; exact hwritten
      · rw [hid]; exact hrow
    · exact hs.current run hrun hrunWritten row hrow
  · rcases List.mem_append.mp hrun with hrun | hrun
    · exact hs.complete run hrun hcomplete
    · rw [List.mem_singleton.mp hrun]
      exact hwritten

theorem sound_rows {runId : String} (hs : Sound scans db) (hne : rowsOf scans runId ≠ [])
    (hfenced : Fenced db (.addressExposure (rowsOf scans runId))) :
    Sound scans (LogStore.append db (.addressExposure (rowsOf scans runId))) := by
  have howns : Owns db (scans runId).seed runId := by
    obtain ⟨row, hrow⟩ := List.exists_mem_of_ne_nil _ hne
    have hrowOwns := hfenced row hrow
    rwa [(source_of_rowsOf hrow).1, (source_of_rowsOf hrow).2] at hrowOwns
  obtain ⟨owner, howner, hseed, hid, _⟩ := howns
  have hlatest : ∀ row, row ∈ latestExposure (LogStore.append db (.addressExposure (rowsOf scans runId))) ↔
      row ∈ rowsOf scans runId ∨
        (row ∈ latestExposure db ∧ exposureKey row ∉ (rowsOf scans runId).map exposureKey) :=
    fun row => mem_newest_append (nodup_keys runId)
  refine ⟨hs.runs, fun row hrow => ?_, fun row hrow => ?_, fun run hrun hwritten row hrow => ?_,
    fun run hrun hcomplete => written_append (hs.complete run hrun hcomplete) _⟩
  · rcases List.mem_append.mp hrow with hrow | hrow
    · exact hs.rows row hrow
    · rw [(source_of_rowsOf hrow).2]
      exact hrow
  · rcases List.mem_append.mp hrow with hrow | hrow
    · exact hs.started row hrow
    · exact ⟨owner, mem_of_mem_latest howner, hid.trans (source_of_rowsOf hrow).2.symm⟩
  · refine (hlatest row).mpr ?_
    have hrun' : run ∈ latestRuns db := hrun
    by_cases hsame : run.sourceAddress = (scans runId).seed
    · obtain rfl : run = owner := latestRuns_unique hrun' howner (hsame.trans hseed.symm)
      rw [hid] at hrow
      exact Or.inl hrow
    · -- rows of another seed have other keys
      have hsource : ∀ other ∈ rowsOf scans run.propagationRunId,
          other.sourceAddress ≠ (scans runId).seed := by
        intro other hother
        rw [(source_of_rowsOf hother).1, ← source_of_run (hs.runs run (mem_of_mem_latest hrun'))]
        exact hsame
      have hbefore : Written scans db run.propagationRunId := by
        intro other hother
        rcases List.mem_append.mp (hwritten other hother) with hmem | hmem
        · exact hmem
        · exact absurd (source_of_rowsOf hmem).1 (hsource other hother)
      refine Or.inr ⟨hs.current run hrun' hbefore row hrow, fun hkey => ?_⟩
      obtain ⟨other, hother, hkeys⟩ := List.mem_map.mp hkey
      have hsources : other.sourceAddress = row.sourceAddress := (Prod.mk.inj hkeys).1
      exact hsource row hrow (hsources.symm.trans (source_of_rowsOf hother).1)

abbrev KeepsSound {α : Type} (scans : Scans) (Q : α → Database → Prop) (p : Work α) (db : Database) :
    Prop := Keeps (Sound scans) Fenced Q p db

theorem keeps_runExposureScan (runId : String) :
    KeepsSound scans (fun _ _ => True) (runExposureScan runId (scans runId)) db := by
  refine under_write fun t _ hs hfenced => ⟨sound_running hs hfenced, ?_⟩
  refine under_lift fun aggregates haggregates => ?_
  have hrows : rowsOf scans runId = exposureRows runId (scans runId) aggregates := by
    simp [rowsOf, haggregates]
  refine Under.bind (Under.weaken (Q := fun _ u => Written scans u runId) ?_ fun _ u hwritten => ?_)
  · refine under_when (fun hne => ?_) fun hnil => ?_
    · rw [← hrows] at hne ⊢
      intro u _ hs hfenced
      exact ⟨sound_rows hs hne hfenced, fun row hrow => List.mem_append_right _ hrow⟩
    · rw [not_not] at hnil
      intro row hrow
      rw [hrows, hnil] at hrow
      cases hrow
  · refine under_write fun v hv hs hfenced => ⟨?_, trivial⟩
    have hlater : Written scans v runId :=
      Extends.keep (P := fun s => Written scans s runId) (fun _ w h => written_append h w) hv hwritten
    have hlength : (exposureRows runId (scans runId) aggregates).length = aggregates.entries.length :=
      List.length_map ..
    rw [hlength] at hfenced ⊢
    exact sound_complete hs haggregates hlater hfenced

theorem sound_empty : Sound scans Database.empty := by
  refine ⟨?_, ?_, ?_, ?_, ?_⟩
  all_goals intro row hrow; cases hrow

/-! ## What is joined -/

theorem mem_joinedExposure {seed : String} {row : AddressExposureRow} :
    row ∈ joinedExposure db seed ↔ row ∈ latestExposure db ∧ row.sourceAddress = seed ∧
      ∃ run ∈ latestRuns db, run.sourceAddress = row.sourceAddress ∧
        run.propagationRunId = row.propagationRunId ∧ run.status = "COMPLETE" := by
  simp [joinedExposure]

theorem allOrNothing_of_sound (hs : Sound scans db) (seed : String) : AllOrNothing scans db seed := by
  by_cases hcomplete : ∃ run ∈ latestRuns db, run.sourceAddress = seed ∧ run.status = "COMPLETE"
  · obtain ⟨run, hrun, rfl, hstatus⟩ := hcomplete
    have hlog := mem_of_mem_latest hrun
    obtain ⟨aggregates, haggregates, hrow⟩ : ∃ aggregates,
        (scans run.propagationRunId).propagated = .ok aggregates ∧
        run = completeRow run.propagationRunId (scans run.propagationRunId) aggregates.entries.length := by
      rcases hs.runs run hlog with hrunning | hcomplete
      · rw [hrunning] at hstatus
        exact absurd hstatus (by simp [runningRow])
      · exact hcomplete
    have hrows : rowsOf scans run.propagationRunId =
        exposureRows run.propagationRunId (scans run.propagationRunId) aggregates := by
      simp [rowsOf, haggregates]
    have hwritten := hs.complete run hlog hstatus
    have hmem : ∀ row, row ∈ joinedExposure db run.sourceAddress ↔
        row ∈ rowsOf scans run.propagationRunId := by
      intro row
      rw [mem_joinedExposure]
      constructor
      · rintro ⟨hlatest, hsource, other, hother, hotherSource, hid, _⟩
        obtain rfl := latestRuns_unique hother hrun (hotherSource.trans hsource)
        rw [hid]
        exact hs.rows row (mem_of_mem_latest hlatest)
      · intro hrow
        obtain ⟨hsource, hid⟩ := source_of_rowsOf hrow
        have hsame := hsource.trans (source_of_run (hs.runs run hlog)).symm
        exact ⟨hs.current run hrun hwritten row hrow, hsame, run, hrun, hsame.symm, hid.symm, hstatus⟩
    have hperm : (joinedExposure db run.sourceAddress).Perm (rowsOf scans run.propagationRunId) :=
      (List.perm_ext_iff_of_nodup ((latest_nodup _).filter _)
        (List.Nodup.of_map _ (nodup_keys run.propagationRunId))).mpr hmem
    refine Or.inr ⟨run, hrun, rfl, aggregates, haggregates, hrows ▸ hperm, ?_⟩
    rw [hperm.length_eq, hrows, hrow]
    exact (List.length_map ..).symm
  · refine Or.inl (List.eq_nil_iff_forall_not_mem.mpr fun row hrow => hcomplete ?_)
    obtain ⟨_, hsource, run, hrun, hrunSource, _, hstatus⟩ := mem_joinedExposure.mp hrow
    exact ⟨run, hrun, hrunSource.trans hsource, hstatus⟩

/-- However the runs overlap in time, the joined rows of every seed are all or
nothing, as long as runs of one seed do not. -/
theorem snapshot_whole {pool : Pool Database Insert String Nat}
    (h : Reachable (Started scans) Fenced Database.empty pool) (seed : String) :
    AllOrNothing scans pool.store seed := by
  refine allOrNothing_of_sound (h.invariant (I := Sound scans) sound_empty ?_).1 seed
  rintro p ⟨runId, rfl⟩ db _
  exact keeps_runExposureScan runId

end

/-! ## Two runs of one seed -/

def sampleAggregate : ExposureAggregate := ⟨1, 1 / 2, 1, "0xt", 7, 1 / 2, 1, 0⟩

def bothFound : Aggregates := ⟨[("x", sampleAggregate), ("y", sampleAggregate)], by decide⟩

def oneFound : Aggregates := ⟨[("x", sampleAggregate)], by decide⟩

/-- The first run finds two addresses, every other run one of them. -/
def sampleScans : Scans := fun runId =>
  ⟨"seed", 3, .ok (if runId = "first" then bothFound else oneFound), 0⟩

abbrev SamplePool := Pool Database Insert String Nat

/-- The inserts of a run that finds something. -/
def sampleInserts (runId : String) (aggregates : Aggregates) : List Insert :=
  let scan := sampleScans runId
  let rows := exposureRows runId scan aggregates
  [.exposureRuns (runningRow runId scan), .addressExposure rows,
    .exposureRuns (completeRow runId scan rows.length)]

/-- A run on its own shows its rows. -/
theorem sample_whole :
    (joinedExposure (replay Database.empty (sampleInserts "first" bothFound)) "seed").length = 2 ∧
      AllOrNothing sampleScans (replay Database.empty (sampleInserts "first" bothFound)) "seed" := by
  have hlaunched : Reachable (Started sampleScans) Fenced Database.empty
      ⟨Database.empty, [runExposureScan "first" (sampleScans "first")]⟩ :=
    Reachable.init.step (.launch ⟨"first", rfl⟩)
  have hreach := hlaunched.exec (List.prefix_refl (sampleInserts "first" bothFound)) ?_
  · exact ⟨by decide +kernel, snapshot_whole hreach "seed"⟩
  · have howns : Owns (replay Database.empty ((sampleInserts "first" bothFound).take 1)) "seed"
        "first" := ⟨_, List.mem_singleton.mpr rfl, rfl, rfl, rfl⟩
    refine ⟨?_, ?_, howns, trivial⟩
    · intro run hrun
      cases hrun
    · intro row hrow
      obtain ⟨entry, _, rfl⟩ := List.mem_map.mp hrow
      exact howns

/-- The second run starts and writes its row before the first completes. -/
def overlapped : Database :=
  replay Database.empty ((sampleInserts "first" bothFound).take 2 ++
    (sampleInserts "second" oneFound).take 2 ++ (sampleInserts "first" bothFound).drop 2)

/-- One of the two rows of the first run is shown, under its count of two. -/
theorem overlap_shows_part : ¬∀ scans pool seed,
    Reachable (Started scans) (fun _ _ => True) Database.empty pool →
      AllOrNothing scans (pool : SamplePool).store seed := by
  intro h
  have hfirst : Reachable (Started sampleScans) (fun _ _ => True) Database.empty
      ⟨Database.empty, [runExposureScan "first" (sampleScans "first")]⟩ :=
    Reachable.init.step (.launch ⟨"first", rfl⟩)
  have hrows := (hfirst.insert trivial).insert trivial
  have hsecond := hrows.step (.launch ⟨"second", rfl⟩)
  have hpart := hsecond.exec (List.take_prefix 2 (sampleInserts "second" oneFound))
    ⟨trivial, trivial, trivial⟩
  have hcomplete := hpart.insert trivial
  have hshown : (joinedExposure overlapped "seed").length = 1 := by decide +kernel
  rcases h sampleScans _ "seed" hcomplete with hnone | ⟨run, hrun, _, aggregates, _, _, hcount⟩
  · have hempty : joinedExposure overlapped "seed" = [] := hnone
    rw [hempty] at hshown
    cases hshown
  · have hlatest : ∀ run ∈ latestRuns overlapped, run.rowCount = 2 := by decide +kernel
    have htwo : run.rowCount = 2 := hlatest run hrun
    have hone : run.rowCount = (joinedExposure overlapped "seed").length := hcount
    rw [hshown, htwo] at hone
    cases hone

end AmlReal.Tron.ExposureRuns
