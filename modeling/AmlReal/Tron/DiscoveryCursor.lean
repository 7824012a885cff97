import Mathlib.Algebra.Group.Nat.Defs
import AmlReal.Foundations.Checks
import AmlReal.Foundations.StoreProgram

/-! # TRON discovery cursor

`cluster_range` and `cycle` of `tasks/analytics.rs`, and the worker that calls
`cycle` until it fails and is then restarted from `progress.json`. What the
queries and the stages return is data of a cycle, and a stage that cannot write
its status fails. The list of ranges records the completed cycles since the
cursor was last reset; no step reads it. -/

namespace AmlReal.Tron.DiscoveryCursor
open AmlReal.Foundations AmlReal.Foundations.StoreProgram AmlReal.Foundations.StoreProgram.Program

def u64Max : Nat := 2 ^ 64 - 1

def saturatingAdd (a b : Nat) : Nat := min (a + b) u64Max

structure Settings where
  batchBlocks : Nat
  overlapBlocks : Nat
  exposureInterval : Nat
  /-- `TRON_START_BLOCK`, where ingestion starts without a checkpoint. -/
  tronStartBlock : Nat
  batch_pos : 1 ≤ batchBlocks
  start_le : tronStartBlock ≤ u64Max

structure Progress where
  lastClusterBlock : Option Nat
  lastClusterHash : Option String
  lastExposureUnixMs : Nat
  deriving DecidableEq

def Progress.default : Progress := ⟨none, none, 0⟩

/-- The file and, for the record, the ranges of the completed cycles. -/
structure Disk where
  progress : Progress
  ranges : List (Nat × Nat)

inductive Save where
  | clustered (progress : Progress) (range : Nat × Nat) (restarted : Bool)
  | exposed (progress : Progress)

instance : LogStore Disk Save where
  append disk
    | .clustered progress range restarted =>
      ⟨progress, if restarted then [range] else disk.ranges ++ [range]⟩
    | .exposed progress => { disk with progress }

/-- What the queries and stages of a cycle return. -/
structure Environment where
  source : Except String Unit
  tip : Except String (Option Nat)
  openingHash : Nat → Except String (Option String)
  boundaryHash : Nat → Except String (Option String)
  discovery : Except String Unit
  closingHash : Nat → Except String (Option String)
  progressFile : Except String Unit
  nowMs : Nat
  exposure : Except String Unit
  exposedMs : Nat
  exposureFile : Except String Unit
  status : Except String Unit

def clusterRange (last : Option Nat) (tip batch overlap : Nat) : Nat × Nat :=
  let next := match last with
    | none => 0
    | some n => saturatingAdd n 1
  if tip < next then (tip - (batch - 1), tip)
  else (next - overlap, min (saturatingAdd next (batch - 1)) tip)

section
variable (settings : Settings) (env : Environment)

/-- Whether the cursor is reset. -/
def restarts (tip : Nat) (progress : Progress) : Except String Bool :=
  match progress.lastClusterBlock with
  | none => .ok false
  | some last =>
    if tip < last then .ok true
    else do
      let hash ← env.openingHash last
      .ok (hash ≠ progress.lastClusterHash)

/-- The part of a cycle before the progress is saved. -/
def clustering (tip : Nat) (progress : Progress) :
    Except String (Progress × (Nat × Nat) × Bool) := do
  let restarted ← restarts env tip progress
  let progress := if restarted then Progress.default else progress
  let range := clusterRange progress.lastClusterBlock tip settings.batchBlocks settings.overlapBlocks
  let boundary ← env.boundaryHash range.2
  let hash ← Checks.context boundary "analysis boundary is not a complete block"
  env.discovery
  let closing ← env.closingHash range.2
  Checks.ensure (closing = some hash)
    "analysis boundary changed during discovery; cursor not advanced"
  pure ({ progress with lastClusterBlock := some range.2, lastClusterHash := some hash }, range,
    restarted)

def exposureDue (progress : Progress) : Prop :=
  settings.exposureInterval * 1000 ≤ env.nowMs - progress.lastExposureUnixMs

instance (progress : Progress) : Decidable (exposureDue settings env progress) :=
  inferInstanceAs (Decidable (_ ≤ _))

/-- The part of a cycle after the cursor is saved. -/
def exposing (progress : Progress) : Program Disk Save String Progress :=
  if exposureDue settings env progress then do
    lift env.exposure
    let progress := { progress with lastExposureUnixMs := env.exposedMs }
    lift env.exposureFile
    write (.exposed progress)
    pure progress
  else pure progress

def cycle (progress : Progress) : Program Disk Save String Progress := do
  lift env.source
  let tip ← lift env.tip
  match tip with
  | none =>
    lift env.status
    pure progress
  | some tip =>
    let (progress, range, restarted) ← lift (clustering settings env tip progress)
    lift env.progressFile
    write (.clustered progress range restarted)
    let progress ← exposing settings env progress
    lift env.status
    pure progress

end

/-! ## Runs of the worker -/

/-- The worker between two cycles, and the last tip it saw. -/
structure Worker where
  disk : Disk
  memory : Progress
  tip : Nat

def Worker.start : Worker := ⟨⟨.default, []⟩, .default, 0⟩

/-- The tip has grown and every block from the start to it is complete. -/
def Fits (settings : Settings) (seen : Nat) (env : Environment) (tip : Nat) : Prop :=
  seen ≤ tip ∧ tip ≤ u64Max ∧ settings.tronStartBlock ≤ tip ∧
    ∀ block, settings.tronStartBlock ≤ block → block ≤ tip →
      env.openingHash block ≠ .ok none ∧ env.boundaryHash block ≠ .ok none ∧
        env.closingHash block ≠ .ok none

inductive Run (settings : Settings) : Worker → Prop
  | start : Run settings .start
  | waited {w : Worker} {env : Environment} {progress : Progress} : Run settings w →
      env.tip = .ok none → Returns (cycle settings env w.memory) w.disk [] progress →
        Run settings { w with memory := progress }
  | completed {w : Worker} {env : Environment} {tip : Nat} {saves : List Save} {progress : Progress} :
      Run settings w → env.tip = .ok (some tip) → Fits settings w.tip env tip →
        Returns (cycle settings env w.memory) w.disk saves progress →
        Run settings ⟨replay w.disk saves, progress, tip⟩
  /-- A cycle fails or the worker crashes; it starts again from the file. -/
  | restarted {w : Worker} {env : Environment} {tip : Nat} {saves : List Save} :
      Run settings w → (∀ answer, env.tip = .ok (some answer) → answer = tip) →
        Fits settings w.tip env tip → Writes (cycle settings env w.memory) w.disk saves →
        Run settings ⟨replay w.disk saves, (replay w.disk saves).progress, tip⟩

/-! ## What a cycle does -/

section
variable {settings : Settings} {env : Environment} {tip : Nat} {progress : Progress}

theorem clusterRange_none {batch overlap : Nat} (htip : tip ≤ u64Max) :
    clusterRange none tip batch overlap = (0, min (batch - 1) tip) := by
  unfold clusterRange saturatingAdd
  simp only [Nat.not_lt_zero, if_false, Nat.zero_sub, Nat.zero_add, Prod.mk.injEq, true_and]
  omega

/-- The range of a cycle starts at the next block or before it, and ends as far
on as the batch and the tip allow. -/
theorem clusterRange_some {last batch overlap : Nat} (hlast : last ≤ tip) (htip : tip ≤ u64Max)
    (hbatch : 1 ≤ batch) : (clusterRange (some last) tip batch overlap).1 ≤ last + 1 ∧
      (clusterRange (some last) tip batch overlap).1 ≤ (clusterRange (some last) tip batch overlap).2 ∧
      (clusterRange (some last) tip batch overlap).2 = last + min batch (tip - last) := by
  unfold clusterRange saturatingAdd
  dsimp only
  split
  · refine ⟨?_, ?_, ?_⟩ <;> dsimp only <;> omega
  · refine ⟨?_, ?_, ?_⟩ <;> dsimp only <;> omega

/-- Where a cycle continues: nowhere, after a reset. -/
def continued (restarted : Bool) (progress : Progress) : Progress :=
  if restarted then .default else progress

/-- A cycle that gets as far as saving the cursor has scanned the range that
follows from the cursor, up to the block that it saves. -/
theorem clustering_ok {next : Progress} {range : Nat × Nat} {restarted : Bool}
    (h : clustering settings env tip progress = .ok (next, range, restarted)) :
    restarts env tip progress = .ok restarted ∧
      range = clusterRange (continued restarted progress).lastClusterBlock tip
        settings.batchBlocks settings.overlapBlocks ∧
      next.lastClusterBlock = some range.2 ∧ ∃ hash, env.boundaryHash range.2 = .ok (some hash) := by
  unfold clustering at h
  obtain ⟨flag, hflag, h⟩ := Checks.bind_ok h
  obtain ⟨boundary, hboundary, h⟩ := Checks.bind_ok h
  obtain ⟨hash, hhash, h⟩ := Checks.bind_ok h
  obtain ⟨_, _, h⟩ := Checks.bind_ok h
  obtain ⟨closing, _, h⟩ := Checks.bind_ok h
  obtain ⟨_, _, h⟩ := Checks.bind_ok h
  obtain ⟨rfl, hrest⟩ := Prod.mk.inj (Except.ok.inj h)
  obtain ⟨rfl, rfl⟩ := Prod.mk.inj hrest
  exact ⟨hflag, rfl, rfl, hash, Checks.context_ok hhash ▸ hboundary⟩

/-- The saves that a cycle can make. -/
inductive Saves (settings : Settings) (env : Environment) (progress : Progress) : List Save → Prop
  | none : Saves settings env progress []
  | clustered {tip : Nat} {next : Progress} {range : Nat × Nat} {restarted : Bool} :
      env.tip = .ok (some tip) → clustering settings env tip progress = .ok (next, range, restarted) →
        Saves settings env progress [.clustered next range restarted]
  | exposed {tip exposedMs : Nat} {next : Progress} {range : Nat × Nat} {restarted : Bool} :
      env.tip = .ok (some tip) → clustering settings env tip progress = .ok (next, range, restarted) →
        Saves settings env progress [.clustered next range restarted,
          .exposed { next with lastExposureUnixMs := exposedMs }]

theorem exposing_writes {disk : Disk} {saves : List Save}
    (h : Writes (exposing settings env progress) disk saves) :
    saves = [] ∨ saves = [.exposed { progress with lastExposureUnixMs := env.exposedMs }] := by
  unfold exposing at h
  split at h
  · rcases writes_lift h with rfl | ⟨_, _, h⟩
    · exact Or.inl rfl
    rcases writes_lift h with rfl | ⟨_, _, h⟩
    · exact Or.inl rfl
    rcases writes_write h with rfl | ⟨rest, rfl, hrest⟩
    · exact Or.inl rfl
    · rw [writes_pure hrest]
      exact Or.inr rfl
  · exact Or.inl (writes_pure h)

theorem cycle_writes {disk : Disk} {saves : List Save}
    (h : Writes (cycle settings env progress) disk saves) : Saves settings env progress saves := by
  unfold cycle at h
  rcases writes_lift h with rfl | ⟨_, _, h⟩
  · exact .none
  rcases writes_lift h with rfl | ⟨answer, htip, h⟩
  · exact .none
  cases answer with
  | none =>
    rcases writes_lift h with rfl | ⟨_, _, h⟩
    · exact .none
    · rw [writes_pure h]
      exact .none
  | some tip =>
    rcases writes_lift h with rfl | ⟨⟨next, range, restarted⟩, hclustering, h⟩
    · exact .none
    rcases writes_lift h with rfl | ⟨_, _, h⟩
    · exact .none
    rcases writes_write h with rfl | ⟨rest, rfl, hrest⟩
    · exact .none
    have hexposing := Writes.of_quiet_tail
      (fun a => (quiet_lift env.status).bind fun _ => quiet_pure a) hrest
    rcases exposing_writes hexposing with rfl | rfl
    · exact .clustered htip hclustering
    · exact .exposed htip hclustering

theorem exposing_returns {disk : Disk} {saves : List Save} {final : Progress}
    (h : Returns (exposing settings env progress) disk saves final)
    (hprogress : disk.progress = progress) : (replay disk saves).progress = final := by
  unfold exposing at h
  split at h
  · obtain ⟨_, _, _, rfl, h1, h⟩ := h.bind
    obtain ⟨rfl, _⟩ := returns_lift h1
    obtain ⟨_, _, _, rfl, h2, h⟩ := h.bind
    obtain ⟨rfl, _⟩ := returns_lift h2
    obtain ⟨_, _, _, rfl, h3, h⟩ := h.bind
    obtain rfl := returns_write h3
    obtain ⟨rfl, rfl⟩ := returns_pure h
    rfl
  · obtain ⟨rfl, rfl⟩ := returns_pure h
    exact hprogress

/-- A cycle that succeeds leaves its progress in the file. -/
theorem cycle_returns {disk : Disk} {saves : List Save} {final : Progress}
    (h : Returns (cycle settings env progress) disk saves final) (htip : env.tip = .ok (some tip)) :
    (replay disk saves).progress = final := by
  unfold cycle at h
  obtain ⟨_, _, _, rfl, h1, h⟩ := h.bind
  obtain ⟨rfl, _⟩ := returns_lift h1
  obtain ⟨_, answer, _, rfl, h2, h⟩ := h.bind
  obtain ⟨rfl, hanswer⟩ := returns_lift h2
  rw [htip] at hanswer
  obtain rfl := Except.ok.inj hanswer
  obtain ⟨_, ⟨next, range, restarted⟩, _, rfl, h3, h⟩ := h.bind
  obtain ⟨rfl, _⟩ := returns_lift h3
  obtain ⟨_, _, _, rfl, h4, h⟩ := h.bind
  obtain ⟨rfl, _⟩ := returns_lift h4
  obtain ⟨_, _, _, rfl, h5, h⟩ := h.bind
  obtain rfl := returns_write h5
  obtain ⟨exposed, _, _, rfl, h6, h⟩ := h.bind
  obtain ⟨_, _, _, rfl, h7, h⟩ := h.bind
  obtain ⟨rfl, _⟩ := returns_lift h7
  obtain ⟨rfl, rfl⟩ := returns_pure h
  have hfinal := exposing_returns h6 rfl
  simpa using hfinal

theorem cycle_waits {disk : Disk} {final : Progress}
    (h : Returns (cycle settings env progress) disk [] final) (htip : env.tip = .ok none) :
    final = progress := by
  unfold cycle at h
  obtain ⟨_, _, _, _, h1, h⟩ := h.bind
  obtain ⟨rfl, _⟩ := returns_lift h1
  obtain ⟨_, answer, _, _, h2, h⟩ := h.bind
  obtain ⟨rfl, hanswer⟩ := returns_lift h2
  rw [htip] at hanswer
  obtain rfl := Except.ok.inj hanswer
  obtain ⟨_, _, _, _, h3, h⟩ := h.bind
  exact (returns_pure h).2.symm

/-! ## Coverage -/

structure Sound (settings : Settings) (disk : Disk) (tip : Nat) : Prop where
  ranges : ∀ range ∈ disk.ranges, range.1 ≤ range.2 ∧ range.2 ≤ tip
  behind : ∀ last, disk.progress.lastClusterBlock = some last → last ≤ tip
  covered : ∀ last, disk.progress.lastClusterBlock = some last → ∀ block ≤ last,
    ∃ range ∈ disk.ranges, range.1 ≤ block ∧ block ≤ range.2
  beyond : settings.tronStartBlock < settings.batchBlocks →
    ∀ last, disk.progress.lastClusterBlock = some last → settings.tronStartBlock ≤ last

variable {disk : Disk} {seen : Nat}

theorem sound_clustered {next : Progress} {range : Nat × Nat} {restarted : Bool}
    (h : Sound settings disk seen) (hfits : Fits settings seen env tip)
    (hclustering : clustering settings env tip disk.progress = .ok (next, range, restarted)) :
    Sound settings (LogStore.append disk (.clustered next range restarted)) tip := by
  obtain ⟨_, hrange, hnext, _⟩ := clustering_ok hclustering
  obtain ⟨hseen, htip, hstart, _⟩ := hfits
  have hbatch := settings.batch_pos
  have hmem : range ∈ (LogStore.append disk (.clustered next range restarted)).ranges := by
    cases restarted <;> simp [LogStore.append]
  have hbounds : range.1 ≤ range.2 ∧ range.2 ≤ tip → ∀ r ∈ (LogStore.append disk
      (.clustered next range restarted)).ranges, r.1 ≤ r.2 ∧ r.2 ≤ tip := by
    intro hnew r hr
    have hcases : r ∈ disk.ranges ∨ r = range := by
      cases restarted with
      | true => exact Or.inr (List.mem_singleton.mp hr)
      | false => simpa [LogStore.append] using hr
    rcases hcases with hold | rfl
    · obtain ⟨hle, hend⟩ := h.ranges r hold
      exact ⟨hle, hend.trans hseen⟩
    · exact hnew
  have hlast : ∀ last, (LogStore.append disk (.clustered next range restarted)).progress.lastClusterBlock
      = some last → last = range.2 := by
    intro last hlast
    have hsome : some range.2 = some last := hnext.symm.trans hlast
    exact (Option.some.inj hsome).symm
  cases hcursor : (continued restarted disk.progress).lastClusterBlock with
  | none =>
    rw [hcursor, clusterRange_none htip] at hrange
    subst hrange
    refine ⟨hbounds ⟨Nat.zero_le _, Nat.min_le_right _ _⟩, fun last h => ?_,
      fun last h block hblock => ⟨_, hmem, Nat.zero_le _, ?_⟩, fun hless last h => ?_⟩
    · rw [hlast last h]
      exact Nat.min_le_right _ _
    · rwa [← hlast last h]
    · have hend := hlast last h
      simp only at hend
      omega
  | some cursor =>
    have hkept : restarted = false ∧ disk.progress.lastClusterBlock = some cursor := by
      cases restarted with
      | true => cases hcursor
      | false => exact ⟨rfl, hcursor⟩
    obtain ⟨rfl, hdisk⟩ := hkept
    have hbehind := h.behind cursor hdisk
    obtain ⟨hfirst, hnonempty, hend⟩ := @clusterRange_some tip cursor settings.batchBlocks
      settings.overlapBlocks (hbehind.trans hseen) htip hbatch
    rw [hcursor] at hrange
    rw [← hrange] at hfirst hnonempty hend
    refine ⟨hbounds ⟨hnonempty, by omega⟩, fun last h => ?_, fun last h' block hblock => ?_,
      fun hless last h' => ?_⟩
    · have := hlast last h
      omega
    · rw [hlast last h'] at hblock
      by_cases hold : block ≤ cursor
      · obtain ⟨r, hr, hbelow, habove⟩ := h.covered cursor hdisk block hold
        exact ⟨r, List.mem_append_left _ hr, hbelow, habove⟩
      · exact ⟨range, hmem, by omega, hblock⟩
    · have hcursorStart := h.beyond hless cursor hdisk
      have := hlast last h'
      omega

theorem sound_exposed {exposedMs : Nat} (h : Sound settings disk tip) :
    Sound settings (LogStore.append disk
      (.exposed { disk.progress with lastExposureUnixMs := exposedMs })) tip :=
  ⟨h.ranges, h.behind, h.covered, h.beyond⟩

theorem sound_grows (h : Sound settings disk seen) (hseen : seen ≤ tip) : Sound settings disk tip :=
  ⟨fun range hrange => ⟨(h.ranges range hrange).1, (h.ranges range hrange).2.trans hseen⟩,
    fun last hlast => (h.behind last hlast).trans hseen, h.covered, h.beyond⟩

theorem sound_saves {saves : List Save} (h : Sound settings disk seen)
    (hfits : ∀ answer, env.tip = .ok (some answer) → answer = tip) (htip : Fits settings seen env tip)
    (hsaves : Saves settings env disk.progress saves) : Sound settings (replay disk saves) tip := by
  cases hsaves with
  | none => exact sound_grows h htip.1
  | clustered hanswer hclustering =>
    obtain rfl := hfits _ hanswer
    exact sound_clustered h htip hclustering
  | exposed hanswer hclustering =>
    obtain rfl := hfits _ hanswer
    exact sound_exposed (sound_clustered h htip hclustering)

theorem run_sound {w : Worker} (h : Run settings w) :
    w.memory = w.disk.progress ∧ Sound settings w.disk w.tip := by
  induction h with
  | start =>
    refine ⟨rfl, fun range hrange => ?_, fun last hlast => ?_, fun last hlast => ?_,
      fun _ last hlast => ?_⟩
    · cases hrange
    · cases hlast
    · cases hlast
    · cases hlast
  | waited _ hanswer hreturns ih =>
    exact ⟨(cycle_waits hreturns hanswer).trans ih.1, ih.2⟩
  | completed _ hanswer hfits hreturns ih =>
    obtain ⟨hmemory, hsound⟩ := ih
    refine ⟨(cycle_returns hreturns hanswer).symm, sound_saves hsound ?_ hfits ?_⟩
    · intro answer h
      rw [hanswer] at h
      exact (Option.some.inj (Except.ok.inj h)).symm
    · rw [← hmemory]
      exact cycle_writes hreturns.writes
  | restarted _ hanswer hfits hwrites ih =>
    obtain ⟨hmemory, hsound⟩ := ih
    refine ⟨rfl, sound_saves hsound hanswer hfits ?_⟩
    rw [← hmemory]
    exact cycle_writes hwrites

/-! ## Progress -/

/-- Nothing that a cycle does fails, and the journal does not change under it. -/
structure Steady (env : Environment) (tip : Nat) (journal : Nat → Option String) : Prop where
  source : env.source = .ok ()
  answer : env.tip = .ok (some tip)
  opening : ∀ block, env.openingHash block = .ok (journal block)
  boundary : ∀ block, env.boundaryHash block = .ok (journal block)
  discovery : env.discovery = .ok ()
  closing : ∀ block, env.closingHash block = .ok (journal block)
  progressFile : env.progressFile = .ok ()
  exposure : env.exposure = .ok ()
  exposureFile : env.exposureFile = .ok ()
  status : env.status = .ok ()

/-- The number of blocks behind the cursor. -/
def position : Option Nat → Nat
  | none => 0
  | some last => last + 1

/-- The cursor advances by a batch, or to the tip. -/
def Advances (settings : Settings) (w : Worker) (env : Environment) (tip : Nat) : Prop :=
  ∃ restarted saves progress last, restarts env tip w.memory = .ok restarted ∧
    Returns (cycle settings env w.memory) w.disk saves progress ∧
    progress.lastClusterBlock = some last ∧
    position (some last) = position (continued restarted w.memory).lastClusterBlock +
      min settings.batchBlocks (tip + 1 - position (continued restarted w.memory).lastClusterBlock)

/-- The ranges cover what is behind the cursor, none is empty or beyond the tip,
and a cycle in which nothing fails advances. -/
def Meets (settings : Settings) : Prop :=
  ∀ w, Run settings w →
    (∀ last, w.disk.progress.lastClusterBlock = some last →
      ∀ block, settings.tronStartBlock ≤ block → block ≤ last →
        ∃ range ∈ w.disk.ranges, range.1 ≤ block ∧ block ≤ range.2) ∧
    (∀ range ∈ w.disk.ranges, range.1 ≤ range.2 ∧ range.2 ≤ w.tip) ∧
    ∀ env tip journal, Steady env tip journal → Fits settings w.tip env tip →
      Advances settings w env tip

theorem restarts_steady {journal : Nat → Option String} (h : Steady env tip journal)
    (progress : Progress) : ∃ restarted, restarts env tip progress = .ok restarted := by
  unfold restarts
  cases progress.lastClusterBlock with
  | none => exact ⟨false, rfl⟩
  | some last =>
    by_cases hless : tip < last
    · exact ⟨true, if_pos hless⟩
    · refine ⟨decide (journal last ≠ progress.lastClusterHash), ?_⟩
      simp only [if_neg hless, h.opening]
      rfl

theorem exposing_steady {journal : Nat → Option String} (h : Steady env tip journal)
    (progress : Progress) (disk : Disk) : ∃ saves final,
      Returns (exposing settings env progress) disk saves final ∧
        final.lastClusterBlock = progress.lastClusterBlock := by
  unfold exposing
  by_cases hdue : exposureDue settings env progress
  · rw [if_pos hdue, h.exposure, h.exposureFile]
    exact ⟨_, _, rfl, rfl⟩
  · rw [if_neg hdue]
    exact ⟨_, _, rfl, rfl⟩

theorem clustering_steady {journal : Nat → Option String} {restarted : Bool} {range : Nat × Nat}
    {hash : String} (h : Steady env tip journal)
    (hrestarts : restarts env tip progress = .ok restarted)
    (hrange : range = clusterRange (continued restarted progress).lastClusterBlock tip
      settings.batchBlocks settings.overlapBlocks) (hhash : journal range.2 = some hash) :
    clustering settings env tip progress = .ok ({ continued restarted progress with
      lastClusterBlock := some range.2, lastClusterHash := some hash }, range, restarted) := by
  subst hrange
  unfold clustering
  rw [hrestarts, Checks.ok_bind]
  show (env.boundaryHash (clusterRange (continued restarted progress).lastClusterBlock tip
    settings.batchBlocks settings.overlapBlocks).2 >>= _) = _
  rw [h.boundary, hhash, Checks.ok_bind, Checks.context_some, Checks.ok_bind, h.discovery,
    Checks.ok_bind]
  show (env.closingHash (clusterRange (continued restarted progress).lastClusterBlock tip
    settings.batchBlocks settings.overlapBlocks).2 >>= _) = _
  rw [h.closing, hhash, Checks.ok_bind, Checks.ensure_eq rfl, Checks.ok_bind]
  rfl

theorem cycle_steady {journal : Nat → Option String} {restarted : Bool} {range : Nat × Nat}
    {hash : String} (h : Steady env tip journal)
    (hrestarts : restarts env tip progress = .ok restarted)
    (hrange : range = clusterRange (continued restarted progress).lastClusterBlock tip
      settings.batchBlocks settings.overlapBlocks) (hhash : journal range.2 = some hash) (disk : Disk) :
    ∃ saves final, Returns (cycle settings env progress) disk saves final ∧
      final.lastClusterBlock = some range.2 := by
  let next : Progress := { continued restarted progress with
    lastClusterBlock := some range.2, lastClusterHash := some hash }
  have hclustering : clustering settings env tip progress = .ok (next, range, restarted) :=
    clustering_steady h hrestarts hrange hhash
  obtain ⟨saves, final, hexposing, hfinal⟩ := @exposing_steady settings env tip journal h next
    (LogStore.append disk (.clustered next range restarted))
  have hstatus : Returns (lift env.status >>= fun _ => pure final)
      (replay (LogStore.append disk (.clustered next range restarted)) saves) [] final := by
    rw [h.status]
    rfl
  have hsaved : Returns (write (.clustered next range restarted) : Program Disk Save String Unit) disk
      [.clustered next range restarted] () := rfl
  refine ⟨[.clustered next range restarted] ++ (saves ++ []), final, ?_, hfinal⟩
  unfold cycle
  rw [h.source, h.answer, h.progressFile]
  show Returns (lift (clustering settings env tip progress) >>= _) disk _ final
  rw [hclustering]
  exact hsaved.then (hexposing.then hstatus)

/-- The range that a cycle would scan ends at a complete block, when the first
batch reaches the start of ingestion. -/
theorem boundary_complete {journal : Nat → Option String} (restarted : Bool) {range : Nat × Nat}
    (h : Sound settings disk seen) (hless : settings.tronStartBlock < settings.batchBlocks)
    (hsteady : Steady env tip journal) (hfits : Fits settings seen env tip)
    (hrange : range = clusterRange (continued restarted disk.progress).lastClusterBlock tip
      settings.batchBlocks settings.overlapBlocks) :
    (∃ hash, journal range.2 = some hash) ∧
      position (some range.2) = position (continued restarted disk.progress).lastClusterBlock +
        min settings.batchBlocks
          (tip + 1 - position (continued restarted disk.progress).lastClusterBlock) := by
  obtain ⟨hseen, htip, hstart, hcomplete⟩ := hfits
  have hbatch := settings.batch_pos
  have hhash : settings.tronStartBlock ≤ range.2 → range.2 ≤ tip → ∃ hash, journal range.2 = some hash := by
    intro hbelow habove
    have hboundary := (hcomplete range.2 hbelow habove).2.1
    rw [hsteady.boundary] at hboundary
    exact Option.ne_none_iff_exists'.mp fun hnone => hboundary (congrArg Except.ok hnone)
  cases hcursor : (continued restarted disk.progress).lastClusterBlock with
  | none =>
    rw [hcursor, clusterRange_none htip] at hrange
    subst hrange
    refine ⟨hhash ?_ (Nat.min_le_right _ _), ?_⟩
    · exact Nat.le_min.mpr ⟨by omega, hstart⟩
    · simp only [position]
      omega
  | some cursor =>
    have hdisk : disk.progress.lastClusterBlock = some cursor := by
      cases restarted with
      | true => cases hcursor
      | false => exact hcursor
    have hbehind := h.behind cursor hdisk
    have hbeyond := h.beyond hless cursor hdisk
    obtain ⟨_, _, hend⟩ := @clusterRange_some tip cursor settings.batchBlocks
      settings.overlapBlocks (hbehind.trans hseen) htip hbatch
    rw [hcursor] at hrange
    rw [← hrange] at hend
    refine ⟨hhash (by omega) (by omega), ?_⟩
    simp only [position]
    omega

theorem advances_of_less {w : Worker} {journal : Nat → Option String} (h : Run settings w)
    (hless : settings.tronStartBlock < settings.batchBlocks) (hsteady : Steady env tip journal)
    (hfits : Fits settings w.tip env tip) : Advances settings w env tip := by
  obtain ⟨hmemory, hsound⟩ := run_sound h
  obtain ⟨restarted, hrestarts⟩ := restarts_steady hsteady w.memory
  have hboundary := boundary_complete restarted hsound hless hsteady hfits rfl
  rw [← hmemory] at hboundary
  obtain ⟨⟨hash, hhash⟩, hposition⟩ := hboundary
  obtain ⟨saves, final, hreturns, hlast⟩ := cycle_steady hsteady hrestarts rfl hhash w.disk
  exact ⟨restarted, saves, final, _, hrestarts, hreturns, hlast, hposition⟩

end

/-! ## Where the scan starts -/

/-- The chain has reached the start of ingestion, and there is nothing before it. -/
def startReached (settings : Settings) : Environment where
  source := .ok ()
  tip := .ok (some settings.tronStartBlock)
  openingHash block := .ok (if block = settings.tronStartBlock then some "hash" else none)
  boundaryHash block := .ok (if block = settings.tronStartBlock then some "hash" else none)
  discovery := .ok ()
  closingHash block := .ok (if block = settings.tronStartBlock then some "hash" else none)
  progressFile := .ok ()
  nowMs := 0
  exposure := .ok ()
  exposedMs := 0
  exposureFile := .ok ()
  status := .ok ()

section
variable {settings : Settings}

theorem startReached_steady : Steady (startReached settings) settings.tronStartBlock
    fun block => if block = settings.tronStartBlock then some "hash" else none :=
  ⟨rfl, rfl, fun _ => rfl, fun _ => rfl, rfl, fun _ => rfl, rfl, rfl, rfl, rfl⟩

theorem startReached_fits : Fits settings 0 (startReached settings) settings.tronStartBlock := by
  refine ⟨Nat.zero_le _, settings.start_le, Nat.le_refl _, fun block hbelow habove => ?_⟩
  have hblock : block = settings.tronStartBlock := by omega
  simp [startReached, hblock]

/-- A first batch that ends before ingestion starts ends at no complete block. -/
theorem not_advances_of_le (h : settings.batchBlocks ≤ settings.tronStartBlock) :
    ¬Advances settings .start (startReached settings) settings.tronStartBlock := by
  rintro ⟨_, saves, progress, last, _, hreturns, hlast, _⟩
  have hprogress := cycle_returns hreturns rfl
  have hfailed : ∀ {tip : Nat} {next : Progress} {range : Nat × Nat} {restarted : Bool},
      (startReached settings).tip = .ok (some tip) →
        clustering settings (startReached settings) tip Progress.default ≠ .ok (next, range, restarted) := by
    intro tip next range restarted htip hclustering
    obtain rfl : settings.tronStartBlock = tip := Option.some.inj (Except.ok.inj htip)
    obtain ⟨hrestarts, hrange, _, hash, hhash⟩ := clustering_ok hclustering
    obtain rfl : false = restarted := Except.ok.inj hrestarts
    have hend : range = (0, min (settings.batchBlocks - 1) settings.tronStartBlock) :=
      hrange.trans (clusterRange_none settings.start_le)
    have hbatch := settings.batch_pos
    have hne : range.2 ≠ settings.tronStartBlock := by
      rw [hend]
      show min (settings.batchBlocks - 1) settings.tronStartBlock ≠ settings.tronStartBlock
      omega
    simp [startReached, hne] at hhash
  cases cycle_writes hreturns.writes with
  | none =>
    rw [← hprogress] at hlast
    cases hlast
  | clustered htip hclustering => exact hfailed htip hclustering
  | exposed htip hclustering => exact hfailed htip hclustering

/-- The cursor covers and advances as it should exactly when the first batch,
which starts at block 0, reaches the block that ingestion starts at. -/
theorem cursor_advances_iff (settings : Settings) :
    Meets settings ↔ settings.tronStartBlock < settings.batchBlocks := by
  constructor
  · intro h
    by_contra hle
    obtain ⟨_, _, hadvances⟩ := h .start .start
    exact not_advances_of_le (Nat.not_lt.mp hle)
      (hadvances _ _ _ startReached_steady startReached_fits)
  · intro hless w hrun
    obtain ⟨_, hsound⟩ := run_sound hrun
    exact ⟨fun last hlast block _ hblock => hsound.covered last hlast block hblock, hsound.ranges,
      fun env tip journal hsteady hfits => advances_of_less hrun hless hsteady hfits⟩

end

/-- The default batch, and an ingestion that starts at block 70 million. -/
def lateStart : Settings := ⟨100000, 10000, 3600, 70000000, by decide, by decide⟩

theorem late_start_stuck : ¬Meets lateStart := by
  intro h
  obtain ⟨_, _, hadvances⟩ := h .start .start
  exact not_advances_of_le (by decide) (hadvances _ _ _ startReached_steady startReached_fits)

end AmlReal.Tron.DiscoveryCursor
