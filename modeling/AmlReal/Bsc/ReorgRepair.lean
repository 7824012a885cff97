import AmlReal.Bsc.Service
import AmlReal.Foundations.Interleaving

/-! # What a repair of a reorganisation leaves

A repair goes down from the suspect height to the first stored block that the
nodes agree with, marks the blocks above it up to the cursor as orphaned and
moves the cursor back. Blocks above the cursor are not looked at: whether one of
them stays canonical depends on nothing else. -/

namespace AmlReal.Bsc.ReorgRepair
open AmlReal.Bsc.Model AmlReal.Bsc.Store AmlReal.Bsc.Service AmlReal.Foundations.Interleaving
open AmlReal.Foundations.StoreProgram AmlReal.Foundations.StoreProgram.Program

/-- The stored block of a height has the hash that the nodes give for it. -/
def Agrees (db : Database) (identity : Identities) (n : Nat) (block : BlockRow) : Prop :=
  canonicalBlock db n = some block ∧ identity n = .ok block.blockHash

/-- The highest block up to `tip` that agrees, or none where no block does. -/
def Ancestor (db : Database) (identity : Identities) (tip : Nat) : Option BlockRow → Prop
  | some block => block.blockNumber ≤ tip ∧ Agrees db identity block.blockNumber block ∧
      ∀ n, block.blockNumber < n → n ≤ tip → ∀ other, ¬Agrees db identity n other
  | none => ∀ n, n ≤ tip → ∀ other, ¬Agrees db identity n other

/-- What a repair that returned `r` promises of the store `after` it. -/
structure Repaired (db after : Database) (identity : Identities) (tip r : Nat)
    (ancestor : Option BlockRow) : Prop where
  found : Ancestor db identity tip ancestor
  restart : r = ancestor.elim 0 fun block => block.blockNumber + 1
  cursor : (checkpoint after).map
      (fun row => (row.nextBlock, row.lastFinalizedBlock, row.lastFinalizedBlockHash)) =
    some (r, r - 1, ancestor.elim "" BlockRow.blockHash)
  orphaned : ∀ n, r ≤ n → canonicalBlock after n = none
  untouched : ∀ n, n < r → canonicalBlock after n = canonicalBlock db n
  facts : after.facts = db.facts
  /-- Whatever is inserted afterwards, a block found from `r` on is one of the inserts. -/
  retry : ∀ ws block, block ∈ ingestedBlocksCanonical (replay after ws) → r ≤ block.blockNumber →
    Insert.ingestedBlocks block ∈ ws

/-! ## Invalidating blocks -/

/-- The blocks of the heights are canonical no more, and nothing else has changed. -/
structure Invalidated (db t : Database) (startBlock endBlock : Nat) : Prop where
  canonical : ∀ block, block ∈ ingestedBlocksCanonical t ↔ block ∈ ingestedBlocksCanonical db ∧
    ¬(startBlock ≤ block.blockNumber ∧ block.blockNumber ≤ endBlock)
  syncState : t.syncState = db.syncState
  facts : t.facts = db.facts

section
variable {db : Database} {G : Database → Insert → Prop} {provider version : String} {now : Nat}

theorem mem_canonical_tombstone {block other : BlockRow} (h : block ∈ ingestedBlocksCanonical db) :
    other ∈ ingestedBlocksCanonical
        (LogStore.append db (.ingestedBlocks (tombstone provider version now block))) ↔
      other ∈ ingestedBlocksCanonical db ∧ other ≠ block := by
  have hrevision : currentRevision db block.blockNumber ≤ block.stateRevision + 1 := by
    rw [currentRevision_eq h]; exact Nat.le_succ _
  refine Iff.trans (mem_canonical_concat hrevision) ⟨?_, ?_⟩
  · rintro (⟨_, hcanonical, _⟩ | ⟨hmem, hn⟩)
    · exact absurd hcanonical (by simp [tombstone])
    · refine ⟨hmem, ?_⟩
      rintro rfl
      exact hn rfl
  · rintro ⟨hmem, hne⟩
    exact Or.inr ⟨hmem, fun hn => hne (canonical_unique hmem h hn)⟩

/-- A round of tombstones takes exactly its blocks out of the view. -/
theorem alone_invalidateBlocks {blocks : List BlockRow}
    (hG : ∀ t marker, marker.canonical = 0 → G t (.ingestedBlocks marker))
    (hcanonical : ∀ block ∈ blocks, block ∈ ingestedBlocksCanonical db) (hnodup : blocks.Nodup) :
    Alone G (fun _ t => (∀ block, block ∈ ingestedBlocksCanonical t ↔
        block ∈ ingestedBlocksCanonical db ∧ block ∉ blocks) ∧
        t.syncState = db.syncState ∧ t.facts = db.facts)
      (blocks.forM (invalidateBlock provider version now)) db := by
  induction blocks generalizing db with
  | nil => exact under_pure ⟨fun block => by simp, rfl, rfl⟩
  | cons block blocks ih =>
    obtain ⟨hnot, hnodup⟩ := List.nodup_cons.mp hnodup
    have hblock := hcanonical block (by simp)
    refine Under.bind (under_ensure fun _ => alone_insert (hG _ _ rfl) ?_)
    refine (ih ?_ hnodup).weaken ?_
    · intro other hother
      refine (mem_canonical_tombstone hblock).mpr ⟨hcanonical other (by simp [hother]), ?_⟩
      rintro rfl
      exact hnot hother
    · rintro _ t ⟨hmem, hsync, hfacts⟩
      refine ⟨fun other => ?_, hsync, hfacts⟩
      rw [hmem, mem_canonical_tombstone hblock, List.mem_cons, not_or, and_assoc]

theorem mem_canonicalBlocks {startBlock endBlock : Nat} {block : BlockRow} :
    block ∈ canonicalBlocks db startBlock endBlock ↔ block ∈ ingestedBlocksCanonical db ∧
      startBlock ≤ block.blockNumber ∧ block.blockNumber ≤ endBlock := by
  simp [canonicalBlocks]

theorem nodup_canonicalBlocks (startBlock endBlock : Nat) :
    (canonicalBlocks db startBlock endBlock).Nodup := by
  refine (List.perm_insertionSort _ _).nodup_iff.mpr (List.Nodup.filter _ ?_)
  exact (AmlReal.Foundations.LatestRows.latest_nodup _).filter _

theorem alone_invalidateRange {startBlock endBlock : Nat} {Q : Nat → Database → Prop}
    (hG : ∀ t marker, marker.canonical = 0 → G t (.ingestedBlocks marker))
    (hQ : ∀ count t, Invalidated db t startBlock endBlock → Q count t) :
    Alone G Q (invalidateRange startBlock endBlock provider version now) db := by
  unfold invalidateRange
  split
  · rename_i hrange
    refine under_pure (hQ 0 db ⟨fun block => ⟨fun h => ⟨h, fun hn => ?_⟩, And.left⟩, rfl, rfl⟩)
    exact absurd (Nat.le_trans hn.1 hn.2) (Nat.not_le_of_lt hrange)
  · refine alone_read (Under.bind ?_)
    refine (alone_invalidateBlocks hG (fun block hblock => (mem_canonicalBlocks.mp hblock).1)
      (nodup_canonicalBlocks startBlock endBlock)).weaken ?_
    rintro _ t ⟨hmem, hsync, hfacts⟩
    refine under_pure (hQ _ t ⟨fun block => ?_, hsync, hfacts⟩)
    rw [hmem, mem_canonicalBlocks]
    exact and_congr_right fun hblock => not_congr (by simp [hblock])

end

/-! ## The ancestor -/

section
variable {config : IngestionConfig} {db : Database} {identity : Identities} {ws : List Insert}

theorem quiet_asked {α : Type} (answer : Answer α) : Quiet (asked answer) := by
  intro s
  cases answer <;> rfl

theorem returns_asked {α : Type} {answer : Answer α} {a : α} (h : Returns (asked answer) db ws a) :
    answer = .ok a := by
  cases answer with
  | error e => cases h
  | ok b => exact congrArg _ (Except.ok.inj (Prod.mk.inj h).2)

theorem quiet_compareBlock (candidate : Nat) : Quiet (compareBlock identity candidate) := by
  refine (quiet_read _).bind fun existing => ?_
  cases existing with
  | none => exact quiet_pure _
  | some block => exact (quiet_asked _).bind fun remote => quiet_pure _

theorem returns_compareBlock {candidate : Nat} {found : Option BlockRow}
    (h : Returns (compareBlock identity candidate) db ws found) :
    ∀ block, found = some block ↔ Agrees db identity candidate block := by
  obtain ⟨_, existing, rest, _, hread, h⟩ := h.bind
  obtain ⟨rfl, rfl⟩ := returns_read hread
  intro block
  unfold Agrees
  cases hlocal : canonicalBlock db candidate with
  | none =>
    simp only [hlocal] at h
    rw [← (returns_pure h).2]
    simp
  | some local' =>
    simp only [hlocal] at h
    obtain ⟨_, remote, _, _, hremote, h⟩ := h.bind
    rw [returns_asked hremote, ← (returns_pure h).2]
    split
    · rename_i heq
      constructor
      · rintro ⟨rfl⟩
        exact ⟨rfl, by rw [heq]⟩
      · rintro ⟨hsome, _⟩
        exact hsome
    · rename_i hne
      constructor
      · intro hnone; cases hnone
      · rintro ⟨⟨rfl⟩, hok⟩
        exact absurd (Except.ok.inj hok).symm hne

theorem quiet_findAncestor (tip candidate examined : Nat) :
    Quiet (findAncestor config identity tip candidate examined) := by
  induction candidate generalizing examined with
  | zero => exact quiet_compareBlock 0
  | succ candidate ih =>
    refine (quiet_compareBlock _).bind fun found => ?_
    cases found with
    | some block => exact quiet_pure _
    | none => exact (quiet_ensure _ _).bind fun _ => ih _

/-- The search goes down from the candidate, over heights that do not agree. -/
theorem returns_findAncestor {tip candidate examined : Nat} {ancestor : Option BlockRow}
    (h : Returns (findAncestor config identity tip candidate examined) db ws ancestor) :
    Ancestor db identity candidate ancestor := by
  induction candidate generalizing examined ws with
  | zero =>
    have hfound := returns_compareBlock h
    cases ancestor with
    | none =>
      intro n hn other hagrees
      obtain rfl := Nat.le_zero.mp hn
      exact absurd ((hfound other).mpr hagrees) (by simp)
    | some block =>
      have hagrees := (hfound block).mp rfl
      have hnumber := (canonicalBlock_eq_some.mp hagrees.1).2
      refine ⟨Nat.le_of_eq hnumber, by rwa [hnumber], fun n hlt hle => ?_⟩
      exact absurd hlt (by omega)
  | succ candidate ih =>
    obtain ⟨first, found, rest, _, hcompare, h⟩ := h.bind
    obtain rfl := (quiet_compareBlock (candidate + 1)).returns hcompare
    have hfound := returns_compareBlock hcompare
    cases found with
    | some block =>
      obtain rfl := (returns_pure h).2
      have hagrees := (hfound block).mp rfl
      have hnumber := (canonicalBlock_eq_some.mp hagrees.1).2
      refine ⟨Nat.le_of_eq hnumber, by rwa [hnumber], fun n hlt hle => ?_⟩
      exact absurd hlt (by omega)
    | none =>
      have hnone : ∀ n, candidate < n → n ≤ candidate + 1 → ∀ other, ¬Agrees db identity n other := by
        intro n hlt hle other hagrees
        obtain rfl : n = candidate + 1 := Nat.le_antisymm hle hlt
        exact absurd ((hfound other).mpr hagrees) (by simp)
      obtain ⟨_, _, _, _, hensure, h⟩ := h.bind
      obtain ⟨rfl, _⟩ := returns_ensure hensure
      have hbelow := ih h
      cases ancestor with
      | none =>
        intro n hn
        rcases Nat.lt_or_ge candidate n with hlt | hle
        · exact hnone n hlt hn
        · exact hbelow n hle
      | some block =>
        obtain ⟨hle, hagrees, hgreatest⟩ := hbelow
        refine ⟨Nat.le_succ_of_le hle, hagrees, fun n hlt hn => ?_⟩
        rcases Nat.lt_or_ge candidate n with hlt' | hle'
        · exact hnone n hlt' hn
        · exact hgreatest n hlt hle'

end

/-! ## The rewound cursor -/

def rewindRow (ancestor : Option BlockRow) (stateRevision nowUnixMs : Nat) : SyncStateRow :=
  ⟨repairStart ancestor, ancestor.elim 0 BlockRow.blockNumber, ancestor.elim "" BlockRow.blockHash,
    stateRevision, nowUnixMs⟩

section
variable {config : IngestionConfig} {db : Database} {identity : Identities} {now suspectTip : Nat}
variable {G : Database → Insert → Prop}

/-- The revision of the next row is above all others. -/
theorem alone_nextSyncRevision {Q : Nat → Database → Prop}
    (hQ : ∀ revision, (∀ row ∈ db.syncState, row.stateRevision ≤ revision) → Q revision db) :
    Alone G Q (nextSyncRevision (checkpoint db)) db := by
  refine under_ensure fun _ => under_pure (hQ _ fun row hrow => ?_)
  cases hcheckpoint : checkpoint db with
  | none =>
    rw [checkpoint_eq_none hcheckpoint] at hrow
    cases hrow
  | some current => exact Nat.le_succ_of_le ((checkpoint_eq_some hcheckpoint).2 row hrow)

/-- Every insert of a repair: tombstones, then one row that moves the cursor back. -/
theorem alone_repairReorg {Q : Nat → Database → Prop}
    (hG : ∀ t marker, marker.canonical = 0 → G t (.ingestedBlocks marker))
    (hrewind : ∀ current ancestor t revision, checkpoint db = some current →
      Ancestor db identity (min current.lastFinalizedBlock suspectTip) ancestor →
      Invalidated db t (repairStart ancestor) current.lastFinalizedBlock →
      (∀ row ∈ t.syncState, row.stateRevision ≤ revision) →
        G t (.syncState (rewindRow ancestor revision now)) ∧
        Q (repairStart ancestor) (LogStore.append t (.syncState (rewindRow ancestor revision now)))) :
    Alone G Q (repairReorg config identity now suspectTip) db := by
  refine alone_read ?_
  cases hcheckpoint : checkpoint db with
  | none => trivial
  | some current =>
    refine Under.bind (alone_quiet (quiet_findAncestor _ _ _) fun ancestor hancestor => ?_)
    have hfound := returns_findAncestor hancestor
    refine Under.bind (Under.mapError (alone_invalidateRange hG fun _ t hinvalidated => ?_))
    refine Under.bind (Under.mapError (alone_read (Under.bind (alone_nextSyncRevision fun revision hrevision => ?_))))
    obtain ⟨hrow, hQ⟩ := hrewind current ancestor t revision hcheckpoint hfound hinvalidated hrevision
    exact alone_insert hrow (under_pure hQ)

end

/-! ## Every cursor row has a next block -/

/-- The height after the row's is a 64-bit number. -/
def Bounded (db : Database) : Prop := ∀ row ∈ db.syncState, row.lastFinalizedBlock + 1 < 2 ^ 64

def BoundedInsert : Insert → Prop
  | .syncState row => row.lastFinalizedBlock + 1 < 2 ^ 64
  | _ => True

section
variable {db : Database}

theorem bounded_append {w : Insert} (hdb : Bounded db) (hw : BoundedInsert w) :
    Bounded (LogStore.append db w) := by
  cases w with
  | syncState row =>
    intro other hother
    rcases List.mem_append.mp hother with hother | hother
    · exact hdb other hother
    · obtain rfl := List.mem_singleton.mp hother
      exact hw
  | _ => exact hdb

abbrev KeepsBounded {ε α : Type} (Q : α → Database → Prop) (p : Program Database Insert ε α)
    (db : Database) : Prop := Keeps Bounded (fun _ _ => True) Q p db

theorem keeps_of_only {ε α : Type} {p : Program Database Insert ε α} (h : Only BoundedInsert p)
    (db : Database) : KeepsBounded (fun _ _ => True) p db :=
  under_only (K := fun _ => True) h trivial (fun _ _ _ _ _ => trivial)
    fun _ _ hw hI _ => ⟨bounded_append hI hw, trivial⟩

theorem only_insertFacts (input : CommitInput) (revision : Nat) (facts : List Fact) :
    Only BoundedInsert (insertFacts input revision facts) := (only_write trivial).when _

theorem only_commitBlock (input : CommitInput) : Only BoundedInsert (commitBlock input) := by
  refine Only.bind ?_ fun revision => Only.bind ?_ fun _ => Only.bind ?_ fun _ => ?_
  · exact (only_read _).bind fun _ => (only_ensure _ _).bind fun _ => only_pure _
  · exact (only_ensure _ _).bind fun _ => (only_ensure _ _).bind fun _ => (only_ensure _ _).bind
      fun _ => (only_ensure _ _).bind fun _ => only_ensure _ _
  · refine (only_insertFacts _ _ _).bind fun _ => (only_insertFacts _ _ _).bind fun _ =>
      (only_insertFacts _ _ _).bind fun _ => Only.bind ?_ fun _ =>
      (only_insertFacts _ _ _).bind fun _ => only_insertFacts _ _ _
    exact (only_read _).bind fun _ => only_insertFacts _ _ _
  · exact (only_write trivial).bind fun _ => only_pure _

theorem only_resolveFailure (blockNumber now : Nat) :
    Only BoundedInsert (resolveFailure blockNumber now) := by
  refine (only_read _).bind fun existing => ?_
  cases existing with
  | none => exact only_pure _
  | some row => exact (only_write trivial).when _

theorem only_requeueFailure (blockNumber now : Nat) :
    Only BoundedInsert (requeueFailure blockNumber now) := by
  refine (only_read _).bind fun existing => ?_
  cases existing with
  | none => exact only_pure _
  | some row => exact only_write trivial

theorem only_advanceCheckpoint (blockNumber : Nat) (blockHash : String) (now : Nat) :
    Only BoundedInsert (advanceCheckpoint blockNumber blockHash now) := by
  have hfrom : ∀ current, Only BoundedInsert (advanceFrom current blockNumber blockHash now) := by
    intro current
    refine Only.bind ?_ fun revision => only_ensure_bind fun hnext => only_write hnext
    exact (only_ensure _ _).bind fun _ => only_pure _
  refine (only_read _).bind fun current => ?_
  cases current with
  | none => exact hfrom none
  | some row =>
    show Only _ (if _ then _ else _)
    split
    · exact only_ensure _ _
    · exact (only_ensure _ _).bind fun _ => hfrom _

end

section
variable {config : IngestionConfig} {answers : RangeAnswers} {options : RangeOptions}

theorem only_asked {α : Type} {P : Insert → Prop} (answer : Answer α) : Only P (asked answer) :=
  (only_lift answer).mapError

theorem only_processBlock (s : RangeState) (entry : Nat × Option BlockRow) :
    Only BoundedInsert (processBlock config answers options s entry) := by
  have hpass : ∀ hash, Only BoundedInsert (passBlock answers options entry.1 hash) := fun hash =>
    (only_resolveFailure _ _).mapError.bind fun _ => (only_advanceCheckpoint _ _ _).mapError.when _
  refine Only.bind ?_ fun _ => ?_
  · cases entry.2 with
    | none => exact only_pure _
    | some block => exact (only_ensure _ _).bind fun _ => only_ensure _ _
  cases skippable config options entry.2 with
  | some block => exact (hpass _).bind fun _ => only_pure _
  | none =>
    refine Only.bind (Only.attempt ?_) fun result => ?_
    · refine Only.bind (only_lift _).mapError fun prepared => ?_
      exact (only_ensure _ _).bind fun _ => (only_ensure _ _).bind fun _ => (only_ensure _ _).bind
        fun _ => (only_commitBlock _).mapError
    · cases result with
      | ok commit => exact (hpass _).bind fun _ => only_pure _
      | error error =>
        refine Only.bind (Only.mapError ?_) fun _ => only_lift _
        exact (only_read _).bind fun _ => only_write trivial

theorem only_readExisting {P : Insert → Prop} (numbers : List Nat) : Only P (readExisting numbers) := by
  induction numbers with
  | nil => exact only_pure _
  | cons n rest ih => exact (only_read _).bind fun _ => ih.bind fun _ => only_pure _

theorem only_processRange (startBlock endBlock : Nat) :
    Only BoundedInsert (processRange config answers options startBlock endBlock) := by
  have hblocks : ∀ entries s, Only BoundedInsert (processBlocks config answers options entries s) := by
    intro entries
    induction entries with
    | nil => exact fun s => only_pure _
    | cons entry rest ih => exact fun s => (only_processBlock s entry).bind ih
  have hchunks : ∀ chunks s, Only BoundedInsert (processChunks config answers options chunks s) := by
    intro chunks
    induction chunks with
    | nil => exact fun s => only_pure _
    | cons chunk rest ih =>
      exact fun s => (only_readExisting _).bind fun entries => (hblocks _ _).bind ih
  refine Only.bind ((only_ensure _ _).bind fun _ => only_pure _) fun count => ?_
  refine (only_ensure _ _).bind fun _ => (only_asked _).bind fun _ => (only_ensure _ _).bind fun _ => ?_
  exact (only_read _).bind fun _ => (hchunks _ _).bind fun _ => only_pure _

end

section
variable {config : IngestionConfig} {identity : Identities} {now : Nat}

theorem under_asked {R : Database → Database → Prop} {I : Database → Prop}
    {A G : Database → Insert → Prop} {α : Type} {answer : Answer α} {Q : α → Database → Prop}
    {db : Database} (h : ∀ a, answer = .ok a → Q a db) : Under R I A G Q (asked answer) db := by
  cases answer with
  | error e => trivial
  | ok a => exact h a rfl

/-- The ancestor is not above the first candidate. -/
theorem keeps_findAncestor (tip candidate examined : Nat) (db : Database) :
    KeepsBounded (fun ancestor _ => ∀ block ∈ ancestor, block.blockNumber ≤ candidate)
      (findAncestor config identity tip candidate examined) db := by
  have hcompare : ∀ n t, KeepsBounded (fun found _ => ∀ block ∈ found, block.blockNumber = n)
      (compareBlock identity n) t := by
    intro n t
    refine under_read fun t _ _ => ?_
    cases hlocal : canonicalBlock t n with
    | none => exact under_pure (by simp)
    | some block =>
      refine Under.bind (under_asked fun remote _ => under_pure ?_)
      have hnumber := (canonicalBlock_eq_some.mp hlocal).2
      split
      · rintro _ ⟨rfl⟩; exact hnumber
      · simp
  induction candidate generalizing examined db with
  | zero => exact (hcompare 0 db).weaken fun _ _ h block hblock => Nat.le_of_eq (h block hblock)
  | succ candidate ih =>
    refine Under.bind ((hcompare (candidate + 1) db).weaken fun found t hfound => ?_)
    cases found with
    | some block =>
      refine under_pure ?_
      rintro _ ⟨rfl⟩
      exact Nat.le_of_eq (hfound block rfl)
    | none =>
      refine under_ensure fun _ => (ih _ t).weaken fun _ _ h block hblock => ?_
      exact Nat.le_succ_of_le (h block hblock)

theorem only_rewindTo (current : SyncStateRow) {ancestor : Option BlockRow}
    (h : ∀ block ∈ ancestor, block.blockNumber + 1 < 2 ^ 64) :
    Only BoundedInsert (rewindTo config now current ancestor) := by
  refine Only.bind (Only.mapError ?_) fun _ => Only.bind (Only.mapError ?_) fun _ => only_pure _
  · unfold invalidateRange
    split
    · exact only_pure _
    · refine (only_read _).bind fun blocks => Only.bind (Only.forM (fun block => ?_) _) fun _ => only_pure _
      exact (only_ensure _ _).bind fun _ => only_write trivial
  · refine (only_read _).bind fun current => Only.bind ?_ fun _ => only_write ?_
    · exact (only_ensure _ _).bind fun _ => only_pure _
    · cases ancestor with
      | none => show 0 + 1 < 2 ^ 64; decide
      | some block => exact h block rfl

theorem keeps_repairReorg (suspectTip : Nat) (db : Database) :
    KeepsBounded (fun _ _ => True) (repairReorg config identity now suspectTip) db := by
  refine under_read fun t _ hbounded => ?_
  cases hcheckpoint : checkpoint t with
  | none => trivial
  | some current =>
    refine Under.bind ((keeps_findAncestor _ _ _ t).weaken fun ancestor u hancestor => ?_)
    refine keeps_of_only (only_rewindTo current fun block hblock => ?_) u
    have hcurrent := hbounded current (checkpoint_eq_some hcheckpoint).1
    have hle := hancestor block hblock
    exact Nat.lt_of_le_of_lt (Nat.succ_le_succ (Nat.le_trans hle (Nat.min_le_left _ _))) hcurrent

theorem keeps_verifyCheckpoint (identity' : Identities) (db : Database) :
    KeepsBounded (fun _ _ => True) (verifyCheckpoint config identity identity' now) db := by
  refine under_read fun t _ _ => ?_
  cases checkpoint t with
  | none => trivial
  | some current =>
    show KeepsBounded _ (if _ then _ else _) t
    split
    · trivial
    · refine under_read fun u _ _ => ?_
      cases canonicalBlock u current.lastFinalizedBlock with
      | none => trivial
      | some block =>
        refine under_ensure fun _ => Under.bind (under_asked fun remote _ => ?_)
        split
        · trivial
        · exact Under.bind ((keeps_repairReorg _ u).weaken fun _ _ _ => trivial)

theorem keeps_settleBatch (answers : SyncAnswers) (requested finalizedHeight : Nat)
    (repairedFrom : Option Nat) (result : Except IngestionError IngestionReport) (db : Database) :
    KeepsBounded (fun _ _ => True)
      (settleBatch config answers requested finalizedHeight repairedFrom result) db := by
  cases result with
  | ok report => trivial
  | error error =>
    cases hconflict : error.conflictHeight with
    | none =>
      simp only [settleBatch, hconflict]
      trivial
    | some height =>
      simp only [settleBatch, hconflict]
      refine Under.bind ((keeps_repairReorg height db).weaken fun repairFrom t _ => ?_)
      refine under_read fun u _ _ => Under.bind ?_
      exact (keeps_of_only (only_processRange _ _) u).weaken fun _ _ _ => trivial

theorem keeps_syncOnce (answers : SyncAnswers) (initialStart maximumBlocks : Option Nat)
    (db : Database) :
    KeepsBounded (fun _ _ => True) (syncOnce config answers initialStart maximumBlocks) db := by
  refine Under.bind (under_asked fun finalizedHeight _ => ?_)
  refine Under.bind ((keeps_verifyCheckpoint _ db).weaken fun repairedFrom t _ => ?_)
  refine under_read fun u _ _ => ?_
  split
  · trivial
  · split
    · trivial
    · refine Under.bind ((keeps_of_only (only_processRange _ _).attempt u).weaken fun result v _ => ?_)
      refine Under.bind ((keeps_settleBatch _ _ _ _ result v).weaken fun settled _ _ => ?_)
      exact under_read fun _ _ _ => trivial

theorem only_repairRange (finalized : Answer Nat) (answers : Nat → RangeAnswers)
    (startBlock endBlock : Nat) (includeDead : Bool) :
    Only BoundedInsert
      (repairRange config finalized answers now startBlock endBlock includeDead) := by
  have hblocks : ∀ numbers, Only BoundedInsert (repairBlocks config answers numbers) := by
    intro numbers
    induction numbers with
    | nil => exact only_pure _
    | cons n rest ih => exact (only_processRange n n).bind fun _ => ih
  refine Only.bind ((only_ensure _ _).bind fun _ => only_pure _) fun count => ?_
  refine (only_ensure _ _).bind fun _ => (only_asked _).bind fun _ => (only_ensure _ _).bind fun _ => ?_
  refine (only_read _).bind fun found => (only_read _).bind fun dead => Only.bind ?_ fun _ => ?_
  · exact (Only.forM (fun _ => (only_requeueFailure _ _).mapError) _).when _
  · exact (hblocks _).bind fun _ => only_pure _

end

theorem keeps_program (i : Invocation) (db : Database) :
    KeepsBounded (fun _ _ => True) (i.command.program i.config) db := by
  rcases i with ⟨config, command⟩
  cases command with
  | syncOnce answers initialStart maximumBlocks =>
    exact Under.bind ((keeps_syncOnce answers initialStart maximumBlocks db).weaken fun _ _ _ => trivial)
  | ingestRange answers startBlock endBlock =>
    exact keeps_of_only ((only_processRange startBlock endBlock).bind fun _ => only_pure _) db
  | replayRange answers startBlock endBlock =>
    exact keeps_of_only ((only_processRange startBlock endBlock).bind fun _ => only_pure _) db
  | replayHash answers identity =>
    refine keeps_of_only (Only.bind ((only_asked _).bind fun found => ?_) fun _ => only_pure _) db
    exact only_processRange _ _
  | repairRange finalized answers now startBlock endBlock includeDead =>
    exact keeps_of_only ((only_repairRange finalized answers startBlock endBlock includeDead).bind
      fun _ => only_pure _) db

/-- In every run each cursor row has a next block. -/
theorem bounded {events : List (Event Invocation Insert)} (h : Trace Ran Database.empty events) :
    Bounded (replayEvents Database.empty events) := by
  refine h.invariant (I := Bounded) (fun row hrow => ?_) fun db i ws hdb hran => ?_
  · cases hrow
  · exact (keeps_program i db).invariant Extends.refl hdb hran
      (allowedAlong_of_forall (fun _ _ _ => trivial) db)

/-! ## Every repair that returns -/

section
variable {db : Database} {identity : Identities} {ancestor : Option BlockRow}
variable {tip now revision : Nat}

theorem repairStart_eq (h : ∀ block ∈ ancestor, block.blockNumber + 1 < 2 ^ 64) :
    repairStart ancestor = ancestor.elim 0 fun block => block.blockNumber + 1 := by
  cases ancestor with
  | none => rfl
  | some block =>
    have hblock := h block rfl
    show min (block.blockNumber + 1) (2 ^ 64 - 1) = block.blockNumber + 1
    omega

theorem Invalidated.canonicalBlock {t : Database} {startBlock endBlock n : Nat}
    (h : Invalidated db t startBlock endBlock) (hn : n < startBlock) :
    canonicalBlock t n = canonicalBlock db n := by
  refine canonicalBlock_congr fun block hnumber => (h.canonical block).trans ?_
  exact and_iff_left fun hrange => absurd hrange.1 (by omega)

/-- The cursor after a repair, and the blocks at both sides of it. -/
theorem repaired_of_invalidated {current : SyncStateRow} {t : Database}
    (hancestor : Ancestor db identity (min current.lastFinalizedBlock tip) ancestor)
    (hstart : repairStart ancestor = ancestor.elim 0 fun block => block.blockNumber + 1)
    (hinvalidated : Invalidated db t (repairStart ancestor) current.lastFinalizedBlock)
    (hrevision : ∀ row ∈ t.syncState, row.stateRevision ≤ revision)
    (habove : ∀ block ∈ ingestedBlocksCanonical db, block.blockNumber ≤ current.lastFinalizedBlock) :
    Repaired db (LogStore.append t (.syncState (rewindRow ancestor revision now))) identity
      (min current.lastFinalizedBlock tip) (repairStart ancestor) ancestor := by
  have horphaned : ∀ n, repairStart ancestor ≤ n →
      canonicalBlock (LogStore.append t (.syncState (rewindRow ancestor revision now))) n = none := by
    intro n hn
    refine canonicalBlock_eq_none.mpr fun block hblock hnumber => ?_
    obtain ⟨hmem, hrange⟩ := (hinvalidated.canonical block).mp hblock
    exact hrange ⟨by rw [hnumber]; exact hn, habove block hmem⟩
  refine ⟨hancestor, hstart, ?_, horphaned, fun n hn => ?_, hinvalidated.facts, ?_⟩
  · rw [checkpoint_concat hrevision]
    cases ancestor with
    | none => rfl
    | some block =>
      rw [hstart]
      simp [rewindRow, hstart]
  · exact hinvalidated.canonicalBlock hn
  · intro ws block hblock hn
    rcases canonical_replay hblock with hmem | hmem
    · exact absurd rfl (canonicalBlock_eq_none.mp (horphaned _ hn) block hmem)
    · exact hmem

/-- A repair that returns leaves what it promises if and only if no canonical
block was stored above the cursor. -/
theorem repairReorg_repaired {events : List (Event Invocation Insert)}
    (h : Trace Ran Database.empty events) {config : IngestionConfig} {suspectTip r : Nat}
    {ws : List Insert}
    (hreturns : Returns (repairReorg config identity now suspectTip)
      (replayEvents Database.empty events) ws r) :
    ∃ current, checkpoint (replayEvents Database.empty events) = some current ∧
      ((∃ ancestor, Repaired (replayEvents Database.empty events)
          (replay (replayEvents Database.empty events) ws) identity
          (min current.lastFinalizedBlock suspectTip) r ancestor) ↔
        ∀ block ∈ ingestedBlocksCanonical (replayEvents Database.empty events),
          block.blockNumber ≤ current.lastFinalizedBlock) := by
  have hbounded := bounded h
  generalize replayEvents Database.empty events = db at hbounded hreturns ⊢
  have halone : Alone (fun _ _ => True) (fun r after => ∃ current, checkpoint db = some current ∧
      ((∃ ancestor, Repaired db after identity (min current.lastFinalizedBlock suspectTip) r ancestor) ↔
        ∀ block ∈ ingestedBlocksCanonical db, block.blockNumber ≤ current.lastFinalizedBlock))
      (repairReorg config identity now suspectTip) db := by
    refine alone_repairReorg (fun _ _ _ => trivial) ?_
    intro current ancestor t revision hcurrent hancestor hinvalidated hrevision
    refine ⟨trivial, current, hcurrent, ?_⟩
    have hlast := hbounded current (checkpoint_eq_some hcurrent).1
    have hbelow : ∀ block ∈ ancestor, block.blockNumber ≤ current.lastFinalizedBlock := by
      rintro block ⟨rfl⟩
      exact Nat.le_trans hancestor.1 (Nat.min_le_left _ _)
    have hstart := repairStart_eq fun block hblock =>
      Nat.lt_of_le_of_lt (Nat.succ_le_succ (hbelow block hblock)) hlast
    constructor
    · rintro ⟨_, hrepaired⟩ block hblock
      by_contra hnot
      -- the block is above the range that was invalidated, so it is canonical still
      have hstill : block ∈ ingestedBlocksCanonical
          (LogStore.append t (.syncState (rewindRow ancestor revision now))) :=
        (hinvalidated.canonical block).mpr ⟨hblock, fun hrange => hnot hrange.2⟩
      have hle : repairStart ancestor ≤ block.blockNumber := by
        rw [hstart]
        cases ancestor with
        | none => exact Nat.zero_le _
        | some found =>
          have hfound := hbelow found rfl
          show found.blockNumber + 1 ≤ block.blockNumber
          omega
      exact canonicalBlock_eq_none.mp (hrepaired.orphaned _ hle) block hstill rfl
    · exact fun habove => ⟨ancestor, repaired_of_invalidated hancestor hstart hinvalidated hrevision habove⟩
  exact halone.returns hreturns

end

/-! ## A block above the cursor -/

def sampleConfig : IngestionConfig where
  startBlock := some 0
  batchSize := 2
  maxBlocksPerRun := 8
  repairMaxBlocks := 8
  reorgMaxDepth := 8
  blockFetchConcurrency := 2
  failureMaxAttempts := 3
  traceRequired := false
  rpcProvider := "node"
  rpcClientVersion := "v1"

/-- The hashes of a chain, from the first block on. -/
def sampleIdentities (chain : List String) : Identities := fun n =>
  chain[n]?.elim (.error ⟨"unavailable", true⟩) .ok

def sampleAnswers (chain : List String) : RangeAnswers where
  finalizedHeight := .ok (chain.length - 1)
  prepareBlock n := chain[n]?.elim (.error (.rpc ⟨"unavailable", true⟩)) fun hash =>
    .ok ⟨⟨n, hash, if n = 0 then "" else chain.getD (n - 1) "", 0, [], []⟩, ⟨[], [], true⟩⟩
  classifyBlock _ _ := ⟨[], []⟩
  nowUnixMs := 0

def sampleSync (chain : List String) : Command :=
  .syncOnce {
    finalizedHeight := .ok (chain.length - 1)
    checkpointIdentity := sampleIdentities chain
    verifyIdentity := sampleIdentities chain
    range := sampleAnswers chain
    conflictIdentity := sampleIdentities chain
    retry := sampleAnswers chain
    nowUnixMs := 0 } none none

/-- Commands of which each stops after a number of inserts. -/
def sampleRun (commands : List (Command × Nat)) : List (Event Invocation Insert) :=
  eventsOf (fun i => i.command.program i.config) Database.empty
    (commands.map fun c => (⟨sampleConfig, c.1⟩, c.2))

theorem sampleRun_trace (commands : List (Command × Nat)) :
    Trace Ran Database.empty (sampleRun commands) :=
  trace_eventsOf (fun i : Invocation => i.command.program i.config) Trace.nil _

/-- Two blocks are synced, of which the nodes replace the second. -/
def sampleStore : Database := replayEvents Database.empty (sampleRun [(sampleSync ["0xa", "0xb"], 8)])

theorem sample_repaired : ∃ ws current ancestor, checkpoint sampleStore = some current ∧
    Repaired sampleStore (replay sampleStore ws) (sampleIdentities ["0xa", "0xd"])
      (min current.lastFinalizedBlock 1) 1 ancestor := by
  have hreturns : Returns (repairReorg sampleConfig (sampleIdentities ["0xa", "0xd"]) 0 1) sampleStore
      ((repairReorg sampleConfig (sampleIdentities ["0xa", "0xd"]) 0 1).exec sampleStore).1 1 :=
    Prod.ext rfl (by decide +kernel)
  obtain ⟨current, hcurrent, hiff⟩ := repairReorg_repaired (sampleRun_trace _) hreturns
  have habove : ∀ block ∈ ingestedBlocksCanonical sampleStore,
      block.blockNumber ≤ (checkpoint sampleStore).elim 0 SyncStateRow.lastFinalizedBlock := by
    decide +kernel
  rw [show checkpoint sampleStore = some current from hcurrent] at habove
  obtain ⟨ancestor, hrepaired⟩ := hiff.mpr habove
  exact ⟨_, current, ancestor, hcurrent, hrepaired⟩

/-- A block of the old chain is stored above two blocks of the new one. -/
def staleStore : Database := replayEvents Database.empty
  (sampleRun [(.ingestRange (sampleAnswers ["0xa", "0xb", "0xc"]) 2 2, 8), (sampleSync ["0xa", "0xd"], 8)])

/-- The repair leaves it canonical, and the retry fails at it once more. -/
theorem stale_block_remains :
    (¬∀ events, Trace Ran Database.empty events → ∀ config identity now suspectTip ws r current,
      checkpoint (replayEvents Database.empty events) = some current →
      Returns (repairReorg config identity now suspectTip) (replayEvents Database.empty events) ws r →
        ∃ ancestor, Repaired (replayEvents Database.empty events)
          (replay (replayEvents Database.empty events) ws) identity
          (min current.lastFinalizedBlock suspectTip) r ancestor) ∧
    (((sampleSync ["0xa", "0xd", "0xe"]).program sampleConfig).exec staleStore).2 =
      .error (.parentHashMismatch 2 "0xc" "0xd" "0xb") := by
  refine ⟨fun h => ?_, by decide +kernel⟩
  have hreturns : Returns (repairReorg sampleConfig (sampleIdentities ["0xa", "0xd", "0xe"]) 0 2)
      staleStore
      ((repairReorg sampleConfig (sampleIdentities ["0xa", "0xd", "0xe"]) 0 2).exec staleStore).1 2 :=
    Prod.ext rfl (by decide +kernel)
  obtain ⟨_, hrepaired⟩ := h _ (sampleRun_trace _) _ _ _ _ _ _
    ⟨2, 1, "0xd", 2, 0⟩ (by decide +kernel) hreturns
  exact absurd (hrepaired.orphaned 2 (Nat.le_refl 2)) (by decide +kernel)

end AmlReal.Bsc.ReorgRepair
