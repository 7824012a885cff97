import AmlReal.Bsc.ReorgRepair

/-! # The cursor and the chain below it

The cursor row names a block, and the blocks that the cursor has covered form a
chain up to it. Every command keeps this with every insert but the tombstones of
a repair, which come before the row that moves the cursor back: a run keeps it
as long as no command stops between the two. -/

namespace AmlReal.Bsc.CursorChain
open AmlReal.Bsc.Model AmlReal.Bsc.Store AmlReal.Bsc.Service AmlReal.Bsc.ReorgRepair
open AmlReal.Foundations.Interleaving AmlReal.Foundations.StoreProgram
open AmlReal.Foundations.StoreProgram.Program

/-- The canonical blocks of the heights are all there, each on top of the one below. -/
structure Chain (db : Database) (first last : Nat) : Prop where
  present : ∀ n, first ≤ n → n ≤ last → (canonicalBlock db n).isSome
  linked : ∀ n, first ≤ n → n < last →
    (canonicalBlock db (n + 1)).map BlockRow.parentHash = (canonicalBlock db n).map BlockRow.blockHash

/-- The row names a block, whose successor is the next block. -/
def Covering (row : SyncStateRow) : Prop := row.nextBlock = row.lastFinalizedBlock + 1

/-- The row of a repair that has found no ancestor. -/
def Cleared (row : SyncStateRow) : Prop :=
  row.nextBlock = 0 ∧ row.lastFinalizedBlock = 0 ∧ row.lastFinalizedBlockHash = ""

structure Sound (db : Database) : Prop where
  bounded : Bounded db
  rows : ∀ row ∈ db.syncState, Covering row ∨ Cleared row
  marker : ∀ current, checkpoint db = some current → Covering current →
    (canonicalBlock db current.lastFinalizedBlock).map BlockRow.blockHash =
      some current.lastFinalizedBlockHash
  chain : ∀ current, checkpoint db = some current → Covering current →
    ∀ row ∈ db.syncState, Covering row → Chain db row.lastFinalizedBlock current.lastFinalizedBlock

/-! ## Chains -/

section
variable {db t : Database} {first last : Nat}

theorem Chain.congr (h : Chain db first last)
    (hsame : ∀ n, n ≤ last → canonicalBlock t n = canonicalBlock db n) : Chain t first last := by
  refine ⟨fun n hfirst hlast => ?_, fun n hfirst hlast => ?_⟩
  · rw [hsame n hlast]; exact h.present n hfirst hlast
  · rw [hsame n (Nat.le_of_lt hlast), hsame (n + 1) hlast]
    exact h.linked n hfirst hlast

theorem Chain.mono (h : Chain db first last) {n : Nat} (hn : n ≤ last) : Chain db first n :=
  ⟨fun m hfirst hm => h.present m hfirst (Nat.le_trans hm hn),
    fun m hfirst hm => h.linked m hfirst (Nat.lt_of_lt_of_le hm hn)⟩

theorem chain_of_le (hle : last ≤ first) (h : (canonicalBlock db last).isSome) :
    Chain db first last := by
  refine ⟨fun n hfirst hlast => ?_, fun n hfirst hlast => ?_⟩
  · obtain rfl : n = last := Nat.le_antisymm hlast (Nat.le_trans hle hfirst)
    exact h
  · exact absurd hlast (by omega)

theorem Chain.extend (h : Chain db first last) {block : BlockRow}
    (hblock : canonicalBlock db (last + 1) = some block)
    (hparent : (canonicalBlock db last).map BlockRow.blockHash = some block.parentHash) :
    Chain db first (last + 1) := by
  refine ⟨fun n hfirst hlast => ?_, fun n hfirst hlast => ?_⟩
  · rcases Nat.lt_or_eq_of_le hlast with hlt | rfl
    · exact h.present n hfirst (Nat.le_of_lt_succ hlt)
    · rw [hblock]; rfl
  · rcases Nat.lt_or_eq_of_le (Nat.le_of_lt_succ hlast) with hlt | rfl
    · exact h.linked n hfirst hlt
    · rw [hblock, hparent]; rfl

end

/-! ## Inserts that keep the cursor sound -/

section
variable {db t : Database}

/-- Neither a marker nor a cursor row has come. -/
structure SameLog (db t : Database) : Prop where
  ingestedBlocks : t.ingestedBlocks = db.ingestedBlocks
  syncState : t.syncState = db.syncState

theorem SameLog.canonicalBlock (h : SameLog db t) (n : Nat) :
    canonicalBlock t n = canonicalBlock db n := by
  unfold Store.canonicalBlock ingestedBlocksCanonical
  rw [h.ingestedBlocks]

theorem SameLog.checkpoint (h : SameLog db t) : checkpoint t = checkpoint db := by
  unfold Store.checkpoint
  rw [h.syncState]

theorem SameLog.sound (h : SameLog db t) (hs : Sound db) : Sound t := by
  refine ⟨fun row hrow => hs.bounded row (h.syncState ▸ hrow),
    fun row hrow => hs.rows row (h.syncState ▸ hrow), fun current hcurrent hcovering => ?_,
    fun current hcurrent hcovering row hrow hrowCovering => ?_⟩
  · rw [h.canonicalBlock]
    exact hs.marker current (h.checkpoint ▸ hcurrent) hcovering
  · exact (hs.chain current (h.checkpoint ▸ hcurrent) hcovering row (h.syncState ▸ hrow)
      hrowCovering).congr fun n _ => h.canonicalBlock n

/-- The block takes the place of a block with its hash, and lies on top of the block below. -/
structure Fits (db : Database) (input : CommitInput) : Prop where
  hash : ∀ old, canonicalBlock db input.block.number = some old → old.blockHash = input.block.hash
  parent : ∀ hash, previousHash db input.block.number = some hash → hash = input.block.parentHash

theorem canonicalBlock_marker {input : CommitInput} {revision : Nat}
    (h : currentRevision db input.block.number ≤ revision) (n : Nat) :
    canonicalBlock (LogStore.append db (.ingestedBlocks (blockMarker input revision))) n =
      if n = input.block.number then some (blockMarker input revision) else canonicalBlock db n := by
  have hmem : ∀ block, block ∈ ingestedBlocksCanonical
        (LogStore.append db (.ingestedBlocks (blockMarker input revision))) ↔
      block = blockMarker input revision ∨
        (block ∈ ingestedBlocksCanonical db ∧ block.blockNumber ≠ input.block.number) := by
    intro block
    refine (mem_canonical_concat h).trans (or_congr_left ?_)
    exact and_iff_left ⟨rfl, rfl⟩
  split
  · rename_i hn
    exact canonicalBlock_eq_some.mpr ⟨(hmem _).mpr (Or.inl rfl), hn.symm⟩
  · rename_i hn
    refine canonicalBlock_congr fun block hnumber => (hmem block).trans ?_
    constructor
    · rintro (rfl | ⟨hblock, _⟩)
      · exact absurd hnumber.symm hn
      · exact hblock
    · exact fun hblock => Or.inr ⟨hblock, by rw [hnumber]; exact hn⟩

/-- A block that fits leaves every chain a chain. -/
theorem Chain.marker {input : CommitInput} {revision first last : Nat} (h : Chain db first last)
    (hfits : Fits db input) (hrevision : currentRevision db input.block.number ≤ revision) :
    Chain (LogStore.append db (.ingestedBlocks (blockMarker input revision))) first last := by
  refine ⟨fun n hfirst hlast => ?_, fun n hfirst hlast => ?_⟩
  · rw [canonicalBlock_marker hrevision]
    split
    · rfl
    · exact h.present n hfirst hlast
  · have hlinked := h.linked n hfirst hlast
    obtain ⟨block, hblock⟩ := Option.isSome_iff_exists.mp (h.present n hfirst (Nat.le_of_lt hlast))
    rw [canonicalBlock_marker hrevision, canonicalBlock_marker hrevision]
    by_cases hn : n = input.block.number
    · -- the block above keeps its parent, which has the same hash
      have hhash := hfits.hash block (hn ▸ hblock)
      rw [if_neg (by omega), if_pos hn, hlinked, hblock]
      exact congrArg some hhash
    · rw [if_neg hn, hblock]
      by_cases hnext : n + 1 = input.block.number
      · have hparent := hfits.parent block.blockHash (by
          rw [← hnext]
          show (if n + 1 = 0 then none else (canonicalBlock db (n + 1 - 1)).map BlockRow.blockHash) = _
          rw [if_neg (Nat.succ_ne_zero n), Nat.add_sub_cancel, hblock]
          rfl)
        rw [if_pos hnext]
        exact congrArg some hparent.symm
      · rw [if_neg hnext, hlinked, hblock]

theorem sound_marker {input : CommitInput} {revision : Nat} (hs : Sound db) (hfits : Fits db input)
    (hrevision : currentRevision db input.block.number ≤ revision) :
    Sound (LogStore.append db (.ingestedBlocks (blockMarker input revision))) := by
  refine ⟨hs.bounded, hs.rows, fun current hcurrent hcovering => ?_,
    fun current hcurrent hcovering row hrow hrowCovering =>
      (hs.chain current hcurrent hcovering row hrow hrowCovering).marker hfits hrevision⟩
  have hmarker := hs.marker current hcurrent hcovering
  rw [canonicalBlock_marker hrevision]
  split
  · rename_i hn
    obtain ⟨old, hold, hhash⟩ := Option.map_eq_some_iff.mp hmarker
    rw [← hhash, hfits.hash old (hn ▸ hold)]
    rfl
  · exact hmarker

/-- The cursor moves to a block on top of the one it names. -/
theorem sound_advance {row : SyncStateRow} {block : BlockRow} (hs : Sound db)
    (hrow : Covering row) (hbounded : row.lastFinalizedBlock + 1 < 2 ^ 64)
    (hblock : canonicalBlock db row.lastFinalizedBlock = some block)
    (hhash : block.blockHash = row.lastFinalizedBlockHash)
    (hparent : ∀ hash, previousHash db row.lastFinalizedBlock = some hash → hash = block.parentHash)
    (hrevision : ∀ old ∈ db.syncState, old.stateRevision ≤ row.stateRevision)
    (hnext : ∀ current, checkpoint db = some current → current.nextBlock = row.lastFinalizedBlock) :
    Sound (LogStore.append db (.syncState row)) := by
  have hcheckpoint := checkpoint_concat hrevision
  have hsome : (canonicalBlock db row.lastFinalizedBlock).isSome := by rw [hblock]; rfl
  refine ⟨bounded_append hs.bounded hbounded, fun old hold => ?_, fun current hcurrent _ => ?_,
    fun current hcurrent _ old hold holdCovering => ?_⟩
  · rcases List.mem_append.mp hold with hold | hold
    · exact hs.rows old hold
    · obtain rfl := List.mem_singleton.mp hold
      exact Or.inl hrow
  · rw [hcheckpoint] at hcurrent
    obtain rfl := Option.some.inj hcurrent
    show (canonicalBlock db _).map _ = _
    rw [hblock, ← hhash]
    rfl
  · rw [hcheckpoint] at hcurrent
    obtain rfl := Option.some.inj hcurrent
    -- cursor rows are not looked at where blocks are
    suffices hchain : Chain db old.lastFinalizedBlock row.lastFinalizedBlock from
      hchain.congr fun _ _ => rfl
    rcases List.mem_append.mp hold with hold | hold
    · cases hstored : checkpoint db with
      | none =>
        rw [checkpoint_eq_none hstored] at hold
        cases hold
      | some current =>
        have hat := hnext current hstored
        rcases hs.rows current (checkpoint_eq_some hstored).1 with hcovering | hcleared
        · have hlast : row.lastFinalizedBlock = current.lastFinalizedBlock + 1 := hat.symm.trans hcovering
          have hchain := hs.chain current hstored hcovering old hold holdCovering
          have hmarker := hs.marker current hstored hcovering
          rw [hlast] at hblock hparent ⊢
          obtain ⟨parent, hstoredParent, _⟩ := Option.map_eq_some_iff.mp hmarker
          have hlink : parent.blockHash = block.parentHash := hparent _ (by
            show (if _ then none else (canonicalBlock db (current.lastFinalizedBlock + 1 - 1)).map _) = _
            rw [if_neg (Nat.succ_ne_zero _), Nat.add_sub_cancel, hstoredParent]
            rfl)
          exact hchain.extend hblock (by rw [hstoredParent, ← hlink]; rfl)
        · exact chain_of_le (by rw [← hat, hcleared.1]; exact Nat.zero_le _) hsome
    · obtain rfl := List.mem_singleton.mp hold
      exact chain_of_le (Nat.le_refl _) hsome

/-- The cursor moves back to the ancestor, over the blocks that are canonical no more. -/
theorem sound_rewind {identity : Identities} {current : SyncStateRow} {ancestor : Option BlockRow}
    {tip revision now : Nat} (hs : Sound db) (hcurrent : checkpoint db = some current)
    (hancestor : Ancestor db identity (min current.lastFinalizedBlock tip) ancestor)
    (hinvalidated : Invalidated db t (repairStart ancestor) current.lastFinalizedBlock)
    (hrevision : ∀ row ∈ t.syncState, row.stateRevision ≤ revision) :
    Sound (LogStore.append t (.syncState (rewindRow ancestor revision now))) := by
  have hmem := (checkpoint_eq_some hcurrent).1
  have hlast := hs.bounded current hmem
  have hbounded : Bounded t := fun row hrow => hs.bounded row (hinvalidated.syncState ▸ hrow)
  have hcheckpoint : checkpoint (LogStore.append t (.syncState (rewindRow ancestor revision now))) =
      some (rewindRow ancestor revision now) := checkpoint_concat hrevision
  have hold : ∀ row ∈ t.syncState, Covering row ∨ Cleared row :=
    fun row hrow => hs.rows row (hinvalidated.syncState ▸ hrow)
  cases ancestor with
  | none =>
    have hcleared : ¬Covering (rewindRow none revision now) := by
      intro h; cases h
    refine ⟨bounded_append hbounded (by show 0 + 1 < 2 ^ 64; decide), fun row hrow => ?_,
      fun row hrow hcovering => ?_, fun row hrow hcovering => ?_⟩
    · rcases List.mem_append.mp hrow with hrow | hrow
      · exact hold row hrow
      · rw [List.mem_singleton.mp hrow]
        exact Or.inr ⟨rfl, rfl, rfl⟩
    · rw [hcheckpoint] at hrow
      exact absurd (Option.some.inj hrow ▸ hcovering) hcleared
    · rw [hcheckpoint] at hrow
      exact absurd (Option.some.inj hrow ▸ hcovering) hcleared
  | some block =>
    obtain ⟨hle, ⟨hblock, _⟩, _⟩ := hancestor
    have hbelow : block.blockNumber ≤ current.lastFinalizedBlock := Nat.le_trans hle (Nat.min_le_left _ _)
    have hstart : repairStart (some block) = block.blockNumber + 1 :=
      repairStart_eq fun _ hsome => Option.some.inj hsome ▸ Nat.lt_of_le_of_lt (Nat.succ_le_succ hbelow) hlast
    have hsame : ∀ n, n ≤ block.blockNumber → canonicalBlock t n = canonicalBlock db n :=
      fun n hn => hinvalidated.canonicalBlock (by omega)
    have hat : canonicalBlock t block.blockNumber = some block := by
      rw [hsame _ (Nat.le_refl _)]; exact hblock
    refine ⟨bounded_append hbounded (Nat.lt_of_le_of_lt (Nat.succ_le_succ hbelow) hlast),
      fun row hrow => ?_, fun row hrow _ => ?_, fun row hrow _ old holdMem holdCovering => ?_⟩
    · rcases List.mem_append.mp hrow with hrow | hrow
      · exact hold row hrow
      · rw [List.mem_singleton.mp hrow]
        exact Or.inl hstart
    · rw [hcheckpoint] at hrow
      obtain rfl := Option.some.inj hrow
      show (canonicalBlock t block.blockNumber).map _ = _
      rw [hat]
      rfl
    · rw [hcheckpoint] at hrow
      obtain rfl := Option.some.inj hrow
      suffices hchain : Chain t old.lastFinalizedBlock block.blockNumber from
        hchain.congr fun _ _ => rfl
      have hsome : (canonicalBlock t block.blockNumber).isSome := by rw [hat]; rfl
      rcases List.mem_append.mp holdMem with holdMem | holdMem
      · rw [hinvalidated.syncState] at holdMem
        rcases hs.rows current hmem with hcovering | hcleared
        · have hchain := hs.chain current hcurrent hcovering old holdMem holdCovering
          exact (hchain.mono hbelow).congr hsame
        · exact chain_of_le (by rw [hcleared.2.1] at hbelow; omega) hsome
      · rw [List.mem_singleton.mp holdMem]
        exact chain_of_le (Nat.le_refl _) hsome

end

/-! ## Every command keeps the cursor sound -/

/-- A program whose inserts all keep the cursor sound. -/
abbrev KeepsSound {ε α : Type} (Q : α → Database → Prop) (p : Program Database Insert ε α)
    (db : Database) : Prop := Alone (fun t w => Sound (LogStore.append t w)) Q p db

/-- Rows of facts and of failures. -/
def Plain : Insert → Prop
  | .facts _ => True
  | .ingestionFailures _ => True
  | _ => False

section
variable {db : Database}

theorem keeps_plain {ε α : Type} {p : Program Database Insert ε α} (h : Only Plain p)
    (hs : Sound db) : KeepsSound (fun _ t => SameLog db t) p db := by
  refine alone_only (K := fun t => SameLog db t) h ⟨rfl, rfl⟩ fun t w hw ht => ?_
  have hsame : SameLog db (LogStore.append t w) := by
    cases w with
    | facts rows => exact ⟨ht.ingestedBlocks, ht.syncState⟩
    | ingestionFailures row => exact ⟨ht.ingestedBlocks, ht.syncState⟩
    | ingestedBlocks row => exact hw.elim
    | syncState row => exact hw.elim
  exact ⟨hsame.sound hs, hsame⟩

theorem plain_insertFacts (input : CommitInput) (revision : Nat) (facts : List Fact) :
    Only Plain (insertFacts input revision facts) := (only_write trivial).when _

theorem plain_insertEvidence (input : CommitInput) (revision : Nat) :
    Only Plain (insertEvidence input revision) := by
  refine (plain_insertFacts _ _ _).bind fun _ => (plain_insertFacts _ _ _).bind fun _ =>
    (plain_insertFacts _ _ _).bind fun _ => Only.bind ?_ fun _ =>
    (plain_insertFacts _ _ _).bind fun _ => plain_insertFacts _ _ _
  exact (only_read _).bind fun _ => plain_insertFacts _ _ _

theorem plain_resolveFailure (blockNumber now : Nat) : Only Plain (resolveFailure blockNumber now) := by
  refine (only_read _).bind fun existing => ?_
  cases existing with
  | none => exact only_pure _
  | some row => exact (only_write trivial).when _

theorem plain_requeueFailure (blockNumber now : Nat) : Only Plain (requeueFailure blockNumber now) := by
  refine (only_read _).bind fun existing => ?_
  cases existing with
  | none => exact only_pure _
  | some row => exact only_write trivial

/-- The block with the hash is stored at the height, on top of the block below. -/
structure Stored (db t : Database) (n : Nat) (hash : String) : Prop where
  sound : Sound t
  block : ∃ block, canonicalBlock t n = some block ∧ block.blockHash = hash ∧
    ∀ parent, previousHash t n = some parent → parent = block.parentHash
  others : ∀ m, m ≠ n → canonicalBlock t m = canonicalBlock db m

theorem Stored.congr {t u : Database} {n : Nat} {hash : String} (h : Stored db t n hash) (hu : Sound u)
    (hsame : ∀ m, canonicalBlock u m = canonicalBlock t m) : Stored db u n hash := by
  obtain ⟨block, hblock, hhash, hparent⟩ := h.block
  refine ⟨hu, ⟨block, by rw [hsame, hblock], hhash, ?_⟩, fun m hm => by rw [hsame, h.others m hm]⟩
  unfold previousHash at hparent ⊢
  rwa [hsame]

theorem previousHash_succ (n : Nat) :
    previousHash db (n + 1) = (canonicalBlock db n).map BlockRow.blockHash := by
  unfold previousHash
  rw [if_neg (Nat.succ_ne_zero n), Nat.add_sub_cancel]

theorem Stored.previousHash {t : Database} {n : Nat} {hash : String} (h : Stored db t n hash) :
    previousHash t (n + 1) = some hash := by
  obtain ⟨block, hblock, hhash, _⟩ := h.block
  rw [previousHash_succ, hblock, ← hhash]
  rfl

theorem keeps_commitBlock {input : CommitInput} (hs : Sound db) (hfits : Fits db input) :
    KeepsSound (fun commit t => Stored db t input.block.number input.block.hash ∧
      commit.blockHash = input.block.hash) (commitBlock input) db := by
  refine Under.bind (alone_read (under_ensure fun _ => under_pure ?_))
  have hcounts : Only Plain (checkCounts input) :=
    (only_ensure _ _).bind fun _ => (only_ensure _ _).bind fun _ => (only_ensure _ _).bind
      fun _ => (only_ensure _ _).bind fun _ => only_ensure _ _
  have hevidence : ∀ revision, Only Plain (checkCounts input >>= fun _ => insertEvidence input revision) :=
    fun revision => hcounts.bind fun _ => plain_insertEvidence input revision
  refine Under.bind ((keeps_plain hcounts hs).weaken fun _ u hu => ?_)
  refine Under.bind ((keeps_plain (plain_insertEvidence input _) (hu.sound hs)).weaken fun _ t ht => ?_)
  have hsame : SameLog db t :=
    ⟨ht.ingestedBlocks.trans hu.ingestedBlocks, ht.syncState.trans hu.syncState⟩
  have hfitsNow : Fits t input := by
    refine ⟨fun old hold => hfits.hash old (hsame.canonicalBlock _ ▸ hold), fun hash hhash => ?_⟩
    refine hfits.parent hash ?_
    unfold previousHash at hhash ⊢
    rwa [← hsame.canonicalBlock]
  have hrevision : currentRevision t input.block.number ≤ currentRevision db input.block.number + 1 := by
    unfold currentRevision
    rw [hsame.ingestedBlocks]
    exact Nat.le_succ _
  have hsound := sound_marker (hsame.sound hs) hfitsNow hrevision
  refine alone_write hsound (under_pure ⟨⟨hsound, ?_, fun m hm => ?_⟩, rfl⟩)
  · refine ⟨_, by rw [canonicalBlock_marker hrevision, if_pos rfl], rfl, fun parent hparent => ?_⟩
    refine hfitsNow.parent parent ?_
    unfold previousHash at hparent ⊢
    split at hparent
    · cases hparent
    · rename_i hzero
      rw [canonicalBlock_marker hrevision, if_neg (by omega)] at hparent
      rw [if_neg hzero]
      exact hparent
  · rw [canonicalBlock_marker hrevision, if_neg hm, hsame.canonicalBlock]

theorem keeps_advanceCheckpoint {t : Database} {n now : Nat} {hash : String}
    (h : Stored db t n hash) :
    KeepsSound (fun _ u => Stored db u n hash) (advanceCheckpoint n hash now) t := by
  obtain ⟨block, hblock, hhash, hparent⟩ := h.block
  have hfrom : (∀ current, checkpoint t = some current → current.nextBlock = n) →
      KeepsSound (fun _ u => Stored db u n hash) (advanceFrom (checkpoint t) n hash now) t := by
    intro hnext
    refine Under.bind (alone_nextSyncRevision fun revision hrevision => ?_)
    refine under_ensure fun hbounded => ?_
    have hsound : Sound (LogStore.append t (.syncState ⟨n + 1, n, hash, revision, now⟩)) :=
      sound_advance h.sound rfl hbounded hblock hhash hparent hrevision hnext
    exact alone_insert hsound (h.congr hsound fun _ => rfl)
  refine alone_read ?_
  cases hcheckpoint : checkpoint t with
  | none =>
    rw [hcheckpoint] at hfrom
    exact hfrom (by simp)
  | some row =>
    rw [hcheckpoint] at hfrom
    show KeepsSound _ (if _ then _ else _) t
    split
    · unfold ensure
      split
      · exact h
      · trivial
    · refine under_ensure fun hnext => hfrom ?_
      rintro _ ⟨rfl⟩
      exact hnext

end

/-- Every prepared block is of the height that was asked for. -/
def Numbered (answers : RangeAnswers) : Prop :=
  ∀ n prepared, answers.prepareBlock n = .ok prepared → prepared.block.number = n

section
variable {config : IngestionConfig} {answers : RangeAnswers} {options : RangeOptions} {db : Database}

theorem keeps_passBlock {t : Database} {n : Nat} {hash : String} (h : Stored db t n hash) :
    KeepsSound (fun _ u => Stored db u n hash) (passBlock answers options n hash) t := by
  refine Under.bind ((keeps_plain (plain_resolveFailure _ _).mapError h.sound).weaken fun _ u hu => ?_)
  have hstored := h.congr (hu.sound h.sound) hu.canonicalBlock
  exact under_when (fun _ => (keeps_advanceCheckpoint hstored).mapError) fun _ => hstored

theorem keeps_attemptBlock {s : RangeState} {n : Nat} (hs : Sound db)
    (hnumbered : Numbered answers) (hprevious : s.previousHash = previousHash db n) :
    KeepsSound (fun commit t => Stored db t n commit.blockHash)
      (attemptBlock config answers options n (canonicalBlock db n) s) db := by
  have hprepared : KeepsSound (fun prepared t => t = db ∧ prepared.block.number = n)
      ((lift (answers.prepareBlock n)).mapError PrepareError.ingestion : Ingest PreparedBlock) db := by
    cases hanswer : answers.prepareBlock n with
    | error e => trivial
    | ok prepared => exact ⟨rfl, hnumbered n prepared hanswer⟩
  refine Under.bind (hprepared.weaken ?_)
  rintro prepared _ ⟨rfl, rfl⟩
  refine under_ensure fun hhash => under_ensure fun _ => under_ensure fun hparent => Under.mapError ?_
  refine (keeps_commitBlock hs ⟨fun old hold => ?_, fun hash hold => ?_⟩).weaken ?_
  · change (canonicalBlock _ _ = _) at hold
    rw [hold] at hhash
    simpa using hhash
  · change (previousHash _ _ = _) at hold
    rw [hprevious, hold] at hparent
    simpa using hparent
  · rintro commit t ⟨hstored, hcommit⟩
    rw [hcommit]
    exact hstored

theorem keeps_processBlock {s : RangeState} {n : Nat} (hs : Sound db) (hnumbered : Numbered answers)
    (hprevious : s.previousHash = previousHash db n) :
    KeepsSound (fun s' t => ∃ hash, s'.previousHash = some hash ∧ Stored db t n hash)
      (processBlock config answers options s (n, canonicalBlock db n)) db := by
  have hcheck : KeepsSound (fun _ t => t = db ∧ ∀ block, canonicalBlock db n = some block →
        ∀ parent, previousHash db n = some parent → parent = block.parentHash)
      (checkExisting options n s (canonicalBlock db n)) db := by
    cases hexisting : canonicalBlock db n with
    | none => exact under_pure ⟨rfl, by simp⟩
    | some block =>
      refine under_ensure fun hparent => ?_
      unfold checkRequired ensure
      split
      · refine ⟨rfl, ?_⟩
        rintro _ ⟨rfl⟩ parent hstored
        rw [hprevious, hstored] at hparent
        simpa using hparent
      · trivial
  refine Under.bind (hcheck.weaken ?_)
  rintro _ t ⟨rfl, hlinked⟩
  cases hskip : skippable config options (canonicalBlock t n) with
  | some block =>
    have hblock : canonicalBlock t n = some block := (Option.filter_eq_some_iff.mp hskip).1
    have hstored : Stored t t n block.blockHash :=
      ⟨hs, ⟨block, hblock, rfl, hlinked block hblock⟩, fun _ _ => rfl⟩
    exact Under.bind ((keeps_passBlock hstored).weaken fun _ u hu => under_pure ⟨_, rfl, hu⟩)
  | none =>
    refine Under.bind ((alone_attempt hs (keeps_attemptBlock hs hnumbered hprevious)).weaken ?_)
    intro result u hresult
    cases result with
    | ok commit =>
      exact Under.bind ((keeps_passBlock hresult).weaken fun _ v hv => under_pure ⟨_, rfl, hv⟩)
    | error error =>
      have hrecord : Only Plain (recordFailure (failureInput n error) config.failureMaxAttempts
          answers.nowUnixMs) := (only_read _).bind fun _ => only_write trivial
      exact Under.bind ((keeps_plain hrecord.mapError hresult).weaken fun _ _ _ => trivial)

/-- The heights of a range with what is stored for them. -/
def entriesOf (db : Database) (numbers : List Nat) : List (Nat × Option BlockRow) :=
  numbers.map fun n => (n, canonicalBlock db n)

theorem keeps_processBlocks {s : RangeState} {n count : Nat} (hs : Sound db)
    (hnumbered : Numbered answers) (hprevious : s.previousHash = previousHash db n) :
    KeepsSound (fun s' t => Sound t ∧ s'.previousHash = previousHash t (n + count))
      (processBlocks config answers options (entriesOf db (List.range' n count)) s) db := by
  induction count generalizing n db s with
  | zero => exact under_pure ⟨hs, hprevious⟩
  | succ count ih =>
    refine Under.bind ((keeps_processBlock hs hnumbered hprevious).weaken ?_)
    rintro s' t ⟨hash, hs', hstored⟩
    -- what was read of the blocks above still stands
    have hentries : entriesOf db (List.range' (n + 1) count) = entriesOf t (List.range' (n + 1) count) := by
      refine List.map_congr_left fun m hm => ?_
      have hne : m ≠ n := by
        have := (List.mem_range'_1.mp hm).1
        omega
      rw [hstored.others m hne]
    have hrest := ih (s := s') hstored.sound (hs'.trans hstored.previousHash.symm)
    rw [← hentries] at hrest
    refine hrest.weaken fun s'' u hu => ⟨hu.1, ?_⟩
    rw [hu.2]
    congr 1
    omega

theorem keeps_readExisting {P : Database → Insert → Prop} (numbers : List Nat) :
    Alone P (fun entries t => t = db ∧ entries = entriesOf db numbers) (readExisting numbers) db := by
  induction numbers with
  | nil => exact under_pure ⟨rfl, rfl⟩
  | cons n rest ih =>
    refine alone_read (Under.bind (ih.weaken ?_))
    rintro entries _ ⟨rfl, rfl⟩
    exact under_pure ⟨rfl, rfl⟩

theorem keeps_processChunks {cs : List (List Nat)} {s : RangeState} {n count : Nat} (hs : Sound db)
    (hcs : cs.flatten = List.range' n count) (hnumbered : Numbered answers)
    (hprevious : s.previousHash = previousHash db n) :
    KeepsSound (fun _ t => Sound t) (processChunks config answers options cs s) db := by
  induction cs generalizing n count db s with
  | nil => exact under_pure hs
  | cons chunk rest ih =>
    obtain ⟨k, _, hchunk, hrest⟩ := List.range'_eq_append_iff.mp hcs.symm
    refine Under.bind ((keeps_readExisting chunk).weaken ?_)
    rintro entries _ ⟨rfl, rfl⟩
    rw [hchunk]
    rw [Nat.mul_one] at hrest
    refine Under.bind ((keeps_processBlocks hs hnumbered hprevious).weaken ?_)
    rintro s' t ⟨ht, hs'⟩
    exact ih ht hrest hs'

theorem keeps_processRange (startBlock endBlock : Nat) (hs : Sound db) (hnumbered : Numbered answers) :
    KeepsSound (fun _ t => Sound t) (processRange config answers options startBlock endBlock) db := by
  refine Under.bind (under_ensure fun _ => under_pure (under_ensure fun _ => ?_))
  refine Under.bind (under_asked fun _ _ => under_ensure fun _ => alone_read (Under.bind ?_))
  obtain ⟨rest, hrest⟩ := chunksOf_flatten_prefix config.blockFetchConcurrency
    (List.range' startBlock (endBlock - startBlock + 1)).length
    (List.range' startBlock (endBlock - startBlock + 1))
  obtain ⟨count, _, hcount, _⟩ := List.range'_eq_append_iff.mp hrest.symm
  exact (keeps_processChunks hs hcount hnumbered rfl).weaken fun _ _ ht => under_pure ht

end

/-! ## Repairs -/

/-- A tombstone: a marker that is not canonical. -/
def orphans : Insert → Bool
  | .ingestedBlocks row => row.canonical == 0
  | _ => false

/-- A program whose inserts keep the cursor sound, apart from tombstones. -/
abbrev Restores {ε α : Type} (Q : α → Database → Prop) (p : Program Database Insert ε α)
    (db : Database) : Prop :=
  Alone (fun t w => ¬orphans w = true → Sound (LogStore.append t w)) Q p db

section
variable {config : IngestionConfig} {db : Database}

theorem restores_of_keeps {ε α : Type} {p : Program Database Insert ε α} {Q : α → Database → Prop}
    (h : KeepsSound Q p db) : Restores Q p db := h.guarantee fun _ _ hsound _ => hsound

theorem restores_repairReorg (identity : Identities) (now suspectTip : Nat) (hs : Sound db) :
    Restores (fun _ t => Sound t) (repairReorg config identity now suspectTip) db := by
  refine alone_repairReorg (fun t marker hmarker hnot => ?_)
    fun current ancestor t revision hcurrent hancestor hinvalidated hrevision => ?_
  · exact absurd (by simp [orphans, hmarker]) hnot
  · have hsound : Sound (LogStore.append t (.syncState (rewindRow ancestor revision now))) :=
      sound_rewind hs hcurrent hancestor hinvalidated hrevision
    exact ⟨fun _ => hsound, hsound⟩

theorem restores_verifyCheckpoint (identity repairIdentity : Identities) (now : Nat) (hs : Sound db) :
    Restores (fun _ t => Sound t) (verifyCheckpoint config identity repairIdentity now) db := by
  refine alone_read ?_
  cases checkpoint db with
  | none => exact under_pure hs
  | some current =>
    show Restores _ (if _ then _ else _) db
    split
    · exact under_pure hs
    · refine alone_read ?_
      cases canonicalBlock db current.lastFinalizedBlock with
      | none => trivial
      | some block =>
        refine under_ensure fun _ => Under.bind (under_asked fun remote _ => ?_)
        split
        · exact under_pure hs
        · exact Under.bind ((restores_repairReorg _ _ _ hs).weaken fun _ _ ht => under_pure ht)

theorem restores_settleBatch {answers : SyncAnswers} {result : Except IngestionError IngestionReport}
    (requested finalizedHeight : Nat) (repairedFrom : Option Nat) (hs : Sound db)
    (hnumbered : Numbered answers.retry) :
    Restores (fun _ t => Sound t)
      (settleBatch config answers requested finalizedHeight repairedFrom result) db := by
  cases result with
  | ok report => exact under_pure hs
  | error error =>
    cases hconflict : error.conflictHeight with
    | none =>
      simp only [settleBatch, hconflict]
      trivial
    | some height =>
      simp only [settleBatch, hconflict]
      refine Under.bind ((restores_repairReorg _ _ _ hs).weaken fun repairFrom t ht => ?_)
      refine alone_read (Under.bind ?_)
      exact (restores_of_keeps (keeps_processRange _ _ ht hnumbered)).weaken fun _ _ hu => under_pure hu

theorem restores_syncOnce {answers : SyncAnswers} (initialStart maximumBlocks : Option Nat)
    (hs : Sound db) (hrange : Numbered answers.range) (hretry : Numbered answers.retry) :
    Restores (fun _ t => Sound t) (syncOnce config answers initialStart maximumBlocks) db := by
  refine Under.bind (under_asked fun finalizedHeight _ => ?_)
  refine Under.bind ((restores_verifyCheckpoint _ _ _ hs).weaken fun repairedFrom t ht => ?_)
  refine alone_read ?_
  split
  · trivial
  · split
    · exact under_pure ht
    · refine Under.bind ((restores_of_keeps
        (alone_attempt ht (keeps_processRange _ _ ht hrange))).weaken fun result u hu => ?_)
      have hsound : Sound u := by cases result <;> exact hu
      refine Under.bind ((restores_settleBatch _ _ _ hsound hretry).weaken fun settled v hv => ?_)
      exact alone_read (under_pure hv)

theorem restores_repairRange {finalized : Answer Nat} {answers : Nat → RangeAnswers}
    (now startBlock endBlock : Nat) (includeDead : Bool) (hs : Sound db)
    (hnumbered : ∀ n, Numbered (answers n)) :
    Restores (fun _ t => Sound t)
      (repairRange config finalized answers now startBlock endBlock includeDead) db := by
  have hblocks : ∀ numbers t, Sound t →
      Restores (fun _ u => Sound u) (repairBlocks config answers numbers) t := by
    intro numbers
    induction numbers with
    | nil => exact fun t ht => under_pure ht
    | cons n rest ih =>
      intro t ht
      exact Under.bind ((restores_of_keeps (keeps_processRange n n ht (hnumbered n))).weaken
        fun _ u hu => ih u hu)
  refine Under.bind (under_ensure fun _ => under_pure (under_ensure fun _ => ?_))
  refine Under.bind (under_asked fun _ _ => under_ensure fun _ => alone_read (alone_read ?_))
  refine Under.bind (Under.weaken (Q := fun _ t => Sound t) ?_ fun _ t ht => ?_)
  · refine under_when (fun _ => restores_of_keeps ?_) fun _ => hs
    have hrequeue : Only Plain (requeueDead now (deadFailureBlocks db startBlock endBlock)
        (repairCandidates config db startBlock endBlock includeDead)) :=
      Only.forM (fun _ => (plain_requeueFailure _ _).mapError) _
    exact (keeps_plain hrequeue hs).weaken fun _ t ht => ht.sound hs
  · exact Under.bind ((hblocks _ t ht).weaken fun _ _ hu => under_pure hu)

/-- Every block that the command is given has the height it was asked for. -/
def CommandNumbered : Command → Prop
  | .syncOnce answers _ _ => Numbered answers.range ∧ Numbered answers.retry
  | .ingestRange answers _ _ => Numbered answers
  | .replayRange answers _ _ => Numbered answers
  | .replayHash answers _ => Numbered answers
  | .repairRange _ answers _ _ _ _ => ∀ n, Numbered (answers n)

theorem restores_program {command : Command} (hs : Sound db) (hnumbered : CommandNumbered command) :
    Restores (fun _ t => Sound t) (command.program config) db := by
  cases command with
  | syncOnce answers initialStart maximumBlocks =>
    exact Under.bind ((restores_syncOnce initialStart maximumBlocks hs hnumbered.1 hnumbered.2).weaken
      fun _ _ ht => under_pure ht)
  | ingestRange answers startBlock endBlock =>
    exact Under.bind ((restores_of_keeps (keeps_processRange _ _ hs hnumbered)).weaken
      fun _ _ ht => under_pure ht)
  | replayRange answers startBlock endBlock =>
    exact Under.bind ((restores_of_keeps (keeps_processRange _ _ hs hnumbered)).weaken
      fun _ _ ht => under_pure ht)
  | replayHash answers identity =>
    refine Under.bind (Under.bind (under_asked fun found _ => ?_))
    exact (restores_of_keeps (keeps_processRange _ _ hs hnumbered)).weaken fun _ _ ht => under_pure ht
  | repairRange finalized answers now startBlock endBlock includeDead =>
    exact Under.bind ((restores_repairRange now startBlock endBlock includeDead hs hnumbered).weaken
      fun _ _ ht => under_pure ht)

end

/-! ## Runs -/

/-- The command was given blocks of the heights it asked for, and did not stop
between a tombstone and the row that moves the cursor back. -/
structure Steady (e : Event Invocation Insert) : Prop where
  numbered : CommandNumbered e.operation.command
  settled : e.inserts.getLast?.any orphans = false

theorem sound_empty : Sound Database.empty := by
  refine ⟨?_, ?_, ?_, ?_⟩
  · intro row hrow; cases hrow
  · intro row hrow; cases hrow
  · intro current hcurrent; cases hcurrent
  · intro current hcurrent; cases hcurrent

theorem sound_of_steady {events : List (Event Invocation Insert)}
    (h : Trace Ran Database.empty events) (hsteady : ∀ e ∈ events, Steady e) :
    Sound (replayEvents Database.empty events) := by
  induction h with
  | nil => exact sound_empty
  | @concat events e _ hran ih =>
    have hs := ih fun e' he' => hsteady e' (by simp [he'])
    obtain ⟨hnumbered, hsettled⟩ := hsteady e (by simp)
    rw [replayEvents_concat]
    refine ((restores_program hs hnumbered).allowedAlong hran).restored hs fun w hw horphans => ?_
    rw [hw] at hsettled
    exact absurd horphans (by simpa using hsettled)

/-! ## Verifying the cursor -/

/-- What verifying the cursor must not fail with. -/
def CursorError : IngestionError → Prop
  | .checkpointMarkerMissing _ => True
  | .checkpointHashMismatch _ => True
  | _ => False

section
variable {config : IngestionConfig} {db : Database} {identity repairIdentity : Identities} {now : Nat}

abbrev NoCursorError {α : Type} (p : Ingest α) : Prop := FailsWith (fun e => ¬CursorError e) p

theorem noCursorError_asked {α : Type} (answer : Answer α) : NoCursorError (asked answer) := by
  intro s e h
  cases answer with
  | ok a => cases h
  | error error =>
    obtain rfl := Except.error.inj h
    exact id

theorem noCursorError_stored {α : Type} (p : Work α) : NoCursorError (stored p) := by
  refine FailsWith.mapError (P := fun _ => True) (fun _ _ _ => trivial) fun e _ => ?_
  exact id

theorem noCursorError_compareBlock (n : Nat) : NoCursorError (compareBlock identity n) := by
  refine (failsWith_read _).bind fun existing => ?_
  cases existing with
  | none => exact failsWith_pure _
  | some block => exact (noCursorError_asked _).bind fun _ => failsWith_pure _

theorem noCursorError_repairReorg (suspectTip : Nat) :
    NoCursorError (repairReorg config identity now suspectTip) := by
  have hancestor : ∀ candidate examined,
      NoCursorError (findAncestor config identity suspectTip candidate examined) := by
    intro candidate
    induction candidate with
    | zero => exact fun examined => noCursorError_compareBlock 0
    | succ candidate ih =>
      refine fun examined => (noCursorError_compareBlock _).bind fun found => ?_
      cases found with
      | some block => exact failsWith_pure _
      | none => exact (failsWith_ensure id).bind fun _ => ih _
  refine (failsWith_read _).bind fun current => ?_
  cases current with
  | none =>
    refine failsWith_lift fun e he => ?_
    obtain rfl := Except.error.inj he
    exact id
  | some current =>
    refine (hancestor _ _).bind fun ancestor => ?_
    exact (noCursorError_stored _).bind fun _ => (noCursorError_stored _).bind fun _ => failsWith_pure _

/-- A sound cursor is verified against its own marker. -/
theorem verified_of_sound (hs : Sound db) {e : IngestionError}
    (h : ((verifyCheckpoint config identity repairIdentity now).exec db).2 = .error e) :
    ¬CursorError e := by
  rw [verifyCheckpoint, exec_read] at h
  cases hcheckpoint : checkpoint db with
  | none => rw [hcheckpoint] at h; cases h
  | some current =>
    simp only [hcheckpoint] at h
    split at h
    · cases h
    · rename_i hhash
      rw [exec_read] at h
      have hcovering : Covering current := by
        rcases hs.rows current (checkpoint_eq_some hcheckpoint).1 with hcovering | hcleared
        · exact hcovering
        · exact absurd hcleared.2.2 hhash
      obtain ⟨block, hblock, hmarker⟩ :=
        Option.map_eq_some_iff.mp (hs.marker current hcheckpoint hcovering)
      simp only [hblock, verifyStored, ensure, if_pos hmarker] at h
      have hrest : NoCursorError (asked (identity current.lastFinalizedBlock) >>= fun remote =>
          if remote = block.blockHash then pure none
          else do
            let repairedFrom ← repairReorg config repairIdentity now current.lastFinalizedBlock
            pure (some repairedFrom) : Ingest (Option Nat)) := by
        refine (noCursorError_asked _).bind fun remote => ?_
        split
        · exact failsWith_pure _
        · exact (noCursorError_repairReorg _).bind fun _ => failsWith_pure _
      exact hrest db e h

end

/-- What the cursor row of a store promises of the blocks. -/
structure CursorSound (db : Database) (current : SyncStateRow) : Prop where
  marker : (canonicalBlock db current.lastFinalizedBlock).map BlockRow.blockHash =
    some current.lastFinalizedBlockHash
  next : current.nextBlock = current.lastFinalizedBlock + 1
  chain : ∀ row ∈ db.syncState, row.lastFinalizedBlockHash ≠ "" →
    Chain db row.lastFinalizedBlock current.lastFinalizedBlock

/-- In every run of steady commands the cursor names a canonical block at the end of
the chain of all blocks it has covered, and verifying it never fails for the
marker or the hash of that block. -/
theorem cursor_chain {events : List (Event Invocation Insert)}
    (h : Trace Ran Database.empty events) (hsteady : ∀ e ∈ events, Steady e) :
    (∀ current, checkpoint (replayEvents Database.empty events) = some current →
      current.lastFinalizedBlockHash ≠ "" →
        CursorSound (replayEvents Database.empty events) current) ∧
    ∀ config identity repairIdentity now e,
      ((verifyCheckpoint config identity repairIdentity now).exec
        (replayEvents Database.empty events)).2 = .error e → ¬CursorError e := by
  have hs := sound_of_steady h hsteady
  have hnamed : ∀ row ∈ (replayEvents Database.empty events).syncState,
      row.lastFinalizedBlockHash ≠ "" → Covering row := by
    intro row hrow hhash
    rcases hs.rows row hrow with hcovering | hcleared
    · exact hcovering
    · exact absurd hcleared.2.2 hhash
  refine ⟨fun current hcurrent hhash => ?_, fun config identity repairIdentity now e he =>
    verified_of_sound hs he⟩
  have hcovering := hnamed current (checkpoint_eq_some hcurrent).1 hhash
  exact ⟨hs.marker current hcurrent hcovering, hcovering, fun row hrow hrowHash =>
    hs.chain current hcurrent hcovering row hrow (hnamed row hrow hrowHash)⟩

/-! ## A repair that stops after its tombstones -/

theorem sampleAnswers_numbered (chain : List String) : Numbered (sampleAnswers chain) := by
  intro n prepared h
  change (chain[n]?).elim _ _ = _ at h
  cases hchain : chain[n]? with
  | none => rw [hchain] at h; cases h
  | some hash =>
    rw [hchain] at h
    obtain rfl := Except.ok.inj h
    rfl

/-- The second of two blocks is replaced, and the repair runs to its end. -/
theorem sample_sound : CursorSound
    (replayEvents Database.empty
      (sampleRun [(sampleSync ["0xa", "0xb"], 8), (sampleSync ["0xa", "0xd"], 8)]))
    ⟨2, 1, "0xd", 4, 0⟩ := by
  refine (cursor_chain (sampleRun_trace _) fun e he => ?_).1 _ (by decide +kernel) (by decide)
  have hnumbered : ∀ chain, CommandNumbered (sampleSync chain) := fun chain =>
    ⟨sampleAnswers_numbered chain, sampleAnswers_numbered chain⟩
  rcases List.mem_cons.mp he with rfl | he
  · exact ⟨hnumbered _, by decide +kernel⟩
  · rw [List.mem_singleton.mp he]
    exact ⟨hnumbered _, by decide +kernel⟩

/-- It stops after its tombstone: the cursor names a block that is gone, and no
later verification gets past it. -/
theorem tombstone_strands_cursor :
    ¬∀ events, Trace Ran Database.empty events →
      (∀ current, checkpoint (replayEvents Database.empty events) = some current →
        current.lastFinalizedBlockHash ≠ "" →
          CursorSound (replayEvents Database.empty events) current) ∧
      ∀ config identity repairIdentity now e,
        ((verifyCheckpoint config identity repairIdentity now).exec
          (replayEvents Database.empty events)).2 = .error e → ¬CursorError e := by
  intro h
  obtain ⟨_, hverified⟩ := h _ (sampleRun_trace [(sampleSync ["0xa", "0xb"], 8), (sampleSync ["0xa", "0xd"], 1)])
  have hmissing : ((verifyCheckpoint sampleConfig (sampleIdentities ["0xa", "0xd"])
      (sampleIdentities ["0xa", "0xd"]) 0).exec (replayEvents Database.empty
        (sampleRun [(sampleSync ["0xa", "0xb"], 8), (sampleSync ["0xa", "0xd"], 1)]))).2 =
      .error (.checkpointMarkerMissing 1) := by decide +kernel
  exact hverified _ _ _ _ _ hmissing trivial

end AmlReal.Bsc.CursorChain
