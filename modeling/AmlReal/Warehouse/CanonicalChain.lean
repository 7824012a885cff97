import AmlReal.Warehouse.Reachable

/-! # The canonical chain of a published range

The canonical view should hold one block for every height of the published
range, linked by parent hashes up to the tip. It does as long as no tombstone
of an interrupted rollback comes into force: such a tombstone lies above the
fence and orphans its height when a later publication that keeps the height
raises the fence past it. -/

namespace AmlReal.Warehouse.CanonicalChain
open AmlReal.Foundations.LatestRows AmlReal.Foundations.StoreProgram
open AmlReal.Foundations.StoreProgram.Program
open AmlReal.Warehouse.Values AmlReal.Warehouse.Tables AmlReal.Warehouse.Publication
open AmlReal.Warehouse.Operations AmlReal.Warehouse.Contents AmlReal.Warehouse.Stages
open AmlReal.Warehouse.Attempts AmlReal.Warehouse.Fence AmlReal.Warehouse.Reachable

/-- The canonical view is one block for every height of the published range,
the last with the published hash, each above the first with the hash of the
one below as its parent. -/
structure CompleteChain (network : Network) (db : Database) : Prop where
  row : ∀ height, (currentState network db).startBlock ≤ height →
    height ≤ (currentState network db).lastBlockNumber →
    ∃! b, b ∈ ingestedBlocksCanonical db ∧ b.blockNumber = height
  tip : ∀ b ∈ ingestedBlocksCanonical db,
    b.blockNumber = (currentState network db).lastBlockNumber →
    b.blockHash = (currentState network db).lastBlockHash
  parent : ∀ b ∈ ingestedBlocksCanonical db,
    (currentState network db).startBlock < b.blockNumber →
    ∃ below ∈ ingestedBlocksCanonical db, below.blockNumber + 1 = b.blockNumber ∧
      b.parentHash = below.blockHash

/-- No tombstone above the fence lies at a published height up to `top`. -/
def Unobstructed (network : Network) (db : Database) (top : Nat) : Prop :=
  (currentState network db).initialized = 1 → ∀ b ∈ db.ingestedBlocks, b.networkId = network →
    b.ingestionStatus = .orphaned → (currentState network db).revision < b.revision →
    (currentState network db).startBlock ≤ b.blockNumber →
    b.blockNumber ≤ (currentState network db).lastBlockNumber → top < b.blockNumber

/-- An operation that publishes an initialized state only over heights without
pending tombstones. -/
def Careful (network : Network) (db : Database) (ws : List Insert) : Prop :=
  Stopped network db ws ∧ ∀ next, .syncState [next] ∈ ws → next.initialized = 1 →
    Unobstructed network db next.lastBlockNumber

/-- The rows of a complete chain by height. -/
structure ChainRows (network : Network) (db : Database) (row : Nat → BlockRow) : Prop where
  height : ∀ h, (currentState network db).startBlock ≤ h →
    h ≤ (currentState network db).lastBlockNumber →
    row h ∈ ingestedBlocksCanonical db ∧ (row h).blockNumber = h
  tip : (row (currentState network db).lastBlockNumber).blockHash =
    (currentState network db).lastBlockHash
  parent : ∀ h, (currentState network db).startBlock ≤ h →
    h < (currentState network db).lastBlockNumber → (row (h + 1)).parentHash = (row h).blockHash

section
variable {network : Network} {db : Database} {ws : List Insert} {row : Nat → BlockRow}

theorem Sound.canonical_unique (hs : Sound network db) {a b : BlockRow}
    (ha : a ∈ ingestedBlocksCanonical db) (hb : b ∈ ingestedBlocksCanonical db)
    (hheight : a.blockNumber = b.blockNumber) : a = b := by
  have hn {c : BlockRow} (hc : c ∈ ingestedBlocksCanonical db) : c.networkId = network :=
    hs.networks c (published_of_canonical hc).1
  refine latest_unique (mem_canonical.mp ha).1 (mem_canonical.mp hb).1 ?_
  exact Prod.ext ((hn ha).trans (hn hb).symm) hheight

theorem Sound.canonical_published (hs : Sound network db) {b : BlockRow}
    (hb : b ∈ ingestedBlocksCanonical db) : Published (currentState network db) b := by
  obtain ⟨hmem, hpublished⟩ := published_of_canonical hb
  rwa [hs.networks b hmem] at hpublished

theorem ChainRows.eq (hs : Sound network db) (hrows : ChainRows network db row) {b : BlockRow}
    (hb : b ∈ ingestedBlocksCanonical db) : b = row b.blockNumber := by
  have hpublished := Sound.canonical_published hs hb
  obtain ⟨hmem, hheight⟩ := hrows.height _ hpublished.start hpublished.last
  exact Sound.canonical_unique hs hb hmem hheight.symm

theorem ChainRows.complete (hs : Sound network db) (hrows : ChainRows network db row) :
    CompleteChain network db where
  row := by
    intro height hstart hlast
    refine ⟨row height, hrows.height height hstart hlast, ?_⟩
    rintro b ⟨hb, rfl⟩
    exact hrows.eq hs hb
  tip := by
    intro b hb hlast
    rw [hrows.eq hs hb, hlast]; exact hrows.tip
  parent := by
    intro b hb hstart
    have hlast := (Sound.canonical_published hs hb).last
    obtain ⟨hmem, hheight⟩ := hrows.height (b.blockNumber - 1) (by omega) (by omega)
    refine ⟨_, hmem, by omega, ?_⟩
    have hparent := hrows.parent (b.blockNumber - 1) (by omega) (by omega)
    rw [Nat.sub_add_cancel (by omega), ← hrows.eq hs hb] at hparent
    exact hparent

/-! ## A height that a publication keeps -/

section
variable {next : State} {h : Nat} (hs : Sound network db)
  (hnext : currentState network (replay db ws) = next)
  (hinit : (currentState network db).initialized = 1) (hinit' : next.initialized = 1)
  (hstart : (currentState network db).startBlock ≤ h)
  (hlast : h ≤ (currentState network db).lastBlockNumber)
  (hstart' : next.startBlock ≤ h) (hlast' : h ≤ next.lastBlockNumber)
  (hrevision : (currentState network db).revision ≤ next.revision)
  (hold : ∀ b ∈ db.ingestedBlocks, b.blockNumber = h →
    b.revision ≤ (currentState network db).revision)
  (hnew : ∀ b ∈ blockRows ws, b.blockNumber ≠ h)
include hs hnext hinit hinit' hstart hlast hstart' hlast' hrevision hold hnew

/-- Without rows between the two fences at a height, both states publish the
same rows there. -/
theorem fenced_at : (fenced (replay db ws)).filter (fun b => b.height = (network, h)) =
    (fenced db).filter (fun b => b.height = (network, h)) := by
  unfold fenced
  rw [replay_ingestedBlocks, List.filter_append, List.filter_append]
  have hnone : ((blockRows ws).filter fun b => (syncStateCurrent (replay db ws)).any fun s =>
      b.networkId = s.networkId ∧ s.initialized = 1 ∧ b.revision ≤ s.revision ∧
      s.startBlock ≤ b.blockNumber ∧ b.blockNumber ≤ s.lastBlockNumber).filter
        (fun b => b.height = (network, h)) = [] := by
    rw [List.filter_eq_nil_iff]
    intro b hb
    rw [decide_eq_true_eq]
    intro hk
    exact hnew b (List.mem_of_mem_filter hb) (congrArg Prod.snd hk)
  rw [hnone, List.append_nil, List.filter_filter, List.filter_filter]
  apply List.filter_congr
  intro b hb
  rw [Bool.eq_iff_iff, Bool.and_eq_true, Bool.and_eq_true, any_published, any_published,
    decide_eq_true_eq]
  refine and_congr_right fun hk => ?_
  have hheight : b.blockNumber = h := congrArg Prod.snd hk
  rw [hs.networks b hb, hnext]
  have hle := hold b hb hheight
  exact ⟨fun _ => ⟨hinit, hle, by omega, by omega⟩, fun _ => ⟨hinit', by omega, by omega, by omega⟩⟩

/-- Both states read the same row at the height. -/
theorem latest_at {b : BlockRow} (hheight : b.height = (network, h)) :
    b ∈ latest BlockRow.height (fun b => b.revision) (fenced (replay db ws)) ↔
      b ∈ latest BlockRow.height (fun b => b.revision) (fenced db) := by
  have hfenced := fenced_at hs hnext hinit hinit' hstart hlast hstart' hlast' hrevision hold hnew
  have hread (rows : List BlockRow) : b ∈ latest BlockRow.height (fun b => b.revision) rows ↔
      b ∈ latest BlockRow.height (fun b => b.revision)
        (rows.filter fun b => b.height = (network, h)) := by
    rw [← latest_filter_key (fun k => k = (network, h)), List.mem_filter, decide_eq_true_eq]
    exact ⟨fun hb => ⟨hb, hheight⟩, And.left⟩
  rw [hread (fenced (replay db ws)), hfenced, ← hread]

/-- The canonical row of a kept height stays, unless the new tip names another. -/
theorem canonical_kept {b : BlockRow} (hb : b ∈ ingestedBlocksCanonical db)
    (hheight : b.blockNumber = h)
    (htip : h < next.lastBlockNumber ∨ b.blockHash = next.lastBlockHash) :
    b ∈ ingestedBlocksCanonical (replay db ws) := by
  obtain ⟨hlatest, hcanonical, hcomplete, _⟩ := mem_canonical.mp hb
  have hn : b.networkId = network := hs.networks b (published_of_canonical hb).1
  refine mem_canonical.mpr ⟨?_, hcanonical, hcomplete, ?_⟩
  · exact (latest_at hs hnext hinit hinit' hstart hlast hstart' hlast' hrevision hold hnew
      (Prod.ext hn hheight)).mpr hlatest
  · rw [hn, hnext, hheight]; exact htip

end

/-- What is pending at a published height is a tombstone, so an unobstructed
height has nothing pending. -/
theorem none_pending (hs : Sound network db) {top h : Nat} (hclear : Unobstructed network db top)
    (hinit : (currentState network db).initialized = 1)
    (hstart : (currentState network db).startBlock ≤ h)
    (hlast : h ≤ (currentState network db).lastBlockNumber) (htop : h ≤ top) :
    ∀ b ∈ db.ingestedBlocks, b.blockNumber = h →
      b.revision ≤ (currentState network db).revision := by
  rintro b hb rfl
  by_contra hlt
  have horphaned := hs.pending hinit b hb (by omega) hlast
  have := hclear hinit b hb (hs.networks b hb) horphaned (by omega) hstart hlast
  omega

/-! ## Forward publications -/

/-- A published complete marker is canonical: no row of its height is as new. -/
theorem marker_canonical (hs : Sound network db) {block : Block} {batch : FactBatch} {next : State}
    (hattempt : Attempt network db block)
    (hfollows : Follows (currentState network db) block next)
    (hrange : next.startBlock ≤ next.lastBlockNumber) :
    blockRow block batch.counts ∈
      ingestedBlocksCanonical (replay db (marked block batch ++ [.syncState [next]])) := by
  have hcurrent : currentState network (replay db (marked block batch ++ [.syncState [next]])) =
      next := current_forward hattempt hfollows
  have hpublished : Published next (blockRow block batch.counts) := by
    refine ⟨hfollows.initialized, ?_, ?_, ?_⟩
    · rw [hfollows.revision]; exact Nat.le_refl _
    · rw [hfollows.lastBlockNumber] at hrange; exact hrange
    · rw [hfollows.lastBlockNumber]; exact Nat.le_refl _
  refine mem_canonical.mpr ⟨?_, hattempt.canonical, hattempt.complete, Or.inr ?_⟩
  · refine mem_latest_of_greatest (mem_fenced.mpr ⟨by simp, ?_⟩) fun o ho _ hne => ?_
    · change Published (currentState block.networkId _) _
      rw [hattempt.sameNetwork, hcurrent]; exact hpublished
    · have hmem := (mem_fenced.mp ho).1
      rw [replay_ingestedBlocks, blockRows_append, blockRows_marked] at hmem
      simp only [blockRows_cons, Insert.blockRows, blockRows_nil, List.append_nil] at hmem
      change o.revision < block.revision
      have := hattempt.fresh.written
      rcases List.mem_append.mp hmem with hmem | hmem
      · have := hs.le_written hmem; omega
      · rcases List.mem_pair.mp hmem with rfl | rfl
        · change block.revision - 1 < block.revision; omega
        · exact absurd rfl hne
  · change block.blockHash = (currentState block.networkId _).lastBlockHash
    rw [hattempt.sameNetwork, hcurrent, hfollows.lastBlockHash]

theorem forward_chain (hs : Sound network db) {block : Block} {batch : FactBatch} {next : State}
    (hattempt : Attempt network db block)
    (hfollows : Follows (currentState network db) block next)
    (hclear : Unobstructed network db next.lastBlockNumber)
    (hrange : next.startBlock ≤ next.lastBlockNumber)
    (hrows : (currentState network db).initialized = 1 → ChainRows network db row) :
    ChainRows network (replay db (marked block batch ++ [.syncState [next]]))
      (fun h => if h = block.blockNumber then blockRow block batch.counts else row h) := by
  have hcurrent : currentState network (replay db (marked block batch ++ [.syncState [next]])) =
      next := current_forward hattempt hfollows
  have hmarker : blockRow block batch.counts ∈ ingestedBlocksCanonical _ :=
    marker_canonical hs hattempt hfollows hrange
  have hlast := hfollows.lastBlockNumber
  -- below the new tip lies the old range
  have hbelow {h : Nat} (hstart : next.startBlock ≤ h) (hlt : h < block.blockNumber) :
      (currentState network db).initialized = 1 ∧ (currentState network db).startBlock ≤ h ∧
        h ≤ (currentState network db).lastBlockNumber := by
    have hnextStart := hfollows.startBlock
    split at hnextStart
    · rename_i hinit
      have := (hattempt.contiguous hinit).1
      exact ⟨hinit, by omega, by omega⟩
    · omega
  constructor
  · intro h hstart hheight
    rw [hcurrent] at hstart hheight
    by_cases htip : h = block.blockNumber
    · rw [if_pos htip]; exact ⟨hmarker, htip.symm⟩
    · rw [if_neg htip]
      obtain ⟨hinit, hstart', hlast'⟩ := hbelow hstart (by omega)
      obtain ⟨hmem, heq⟩ := (hrows hinit).height h hstart' hlast'
      refine ⟨?_, heq⟩
      refine canonical_kept hs hcurrent hinit hfollows.initialized hstart' hlast' hstart hheight
        ?_ (none_pending hs hclear hinit hstart' hlast' hheight) ?_ hmem heq (Or.inl (by omega))
      · have := hattempt.fresh.fence
        rw [hfollows.revision]; omega
      · intro b hb
        rw [blockRows_append, blockRows_marked] at hb
        simp only [blockRows_cons, Insert.blockRows, blockRows_nil, List.append_nil] at hb
        rcases List.mem_pair.mp hb with rfl | rfl
        · exact fun he => htip he.symm
        · exact fun he => htip he.symm
  · rw [hcurrent, if_pos hlast]; exact hfollows.lastBlockHash.symm
  · intro h hstart hheight
    rw [hcurrent] at hstart hheight
    rw [if_neg (by omega : h ≠ block.blockNumber)]
    obtain ⟨hinit, hstart', hlast'⟩ := hbelow hstart (by omega)
    obtain ⟨hcontiguous, hparent⟩ := hattempt.contiguous hinit
    by_cases htip : h + 1 = block.blockNumber
    · rw [if_pos htip]
      have htop : h = (currentState network db).lastBlockNumber := by omega
      rw [htop, (hrows hinit).tip]; exact hparent
    · rw [if_neg htip]
      exact (hrows hinit).parent h hstart' (by omega)

/-! ## Rollbacks and refreshes -/

theorem checkRange_ok {previous next : State} (h : checkRange previous next = .ok ())
    (hinit : previous.initialized = 1) (hinit' : next.initialized = 1) :
    next.startBlock = previous.startBlock ∧
    (next.lastBlockNumber = previous.lastBlockNumber →
      next.lastBlockHash = previous.lastBlockHash) := by
  unfold checkRange at h
  rw [if_pos ⟨hinit, hinit'⟩] at h
  simp only [Bind.bind, Except.bind, throw, throwThe, MonadExceptOf.throw] at h
  split at h
  · cases h
  rename_i hstart
  split at h
  · cases h
  rename_i hbranch
  exact ⟨not_not.mp hstart, fun hlast => by_contra fun hhash => hbranch ⟨hlast, hhash⟩⟩

theorem newestRow_some {height revision : Nat} {rows : List BlockRow} {b : BlockRow}
    (h : newestRow network height revision rows = some b) :
    b ∈ rows ∧ b.networkId = network ∧ b.blockNumber = height := by
  unfold newestRow at h
  have hmem := mem_of_mem_latest (List.mem_of_mem_head? h)
  rw [List.mem_filter, decide_eq_true_eq] at hmem
  exact ⟨hmem.1, hmem.2.1, hmem.2.2.1⟩

/-- No marker has the fresh revision of a bare publication, so it cannot move
the tip up. -/
theorem publication_keeps (hs : Sound network db) {next : State}
    (hfresh : Fresh network db next.revision)
    (hchecked : PublishChecked network (currentState network db) next db)
    (hinit' : next.initialized = 1) : (currentState network db).initialized = 1 ∧
      next.lastBlockNumber ≤ (currentState network db).lastBlockNumber := by
  obtain ⟨block, hfound, _, _, _, hrevision⟩ := (hchecked.tip hinit').found
  have hflag := hchecked.previousFlag
  by_contra hnot
  have hforward : isRollback (currentState network db) next = false := by
    unfold isRollback
    rw [decide_eq_false_iff_not]
    omega
  have hnew := hrevision hforward (by omega)
  rw [hforward] at hfound
  have hmem : block ∈ db.ingestedBlocks := (newestRow_some hfound).1
  have := hs.le_written hmem
  have := hfresh.written
  omega

theorem isRollback_of_lt {previous next : State} (hinit : previous.initialized = 1)
    (hlt : next.lastBlockNumber < previous.lastBlockNumber) : isRollback previous next = true := by
  unfold isRollback; rw [decide_eq_true_eq]; exact ⟨hinit, Or.inr hlt⟩

/-- The hash of the new tip is that of the row already canonical there. -/
theorem publication_tip (hs : Sound network db) {next : State}
    (hchecked : PublishChecked network (currentState network db) next db)
    (hinit : (currentState network db).initialized = 1) (hinit' : next.initialized = 1)
    (hlast : next.lastBlockNumber ≤ (currentState network db).lastBlockNumber)
    (hrows : ChainRows network db row) :
    (row next.lastBlockNumber).blockHash = next.lastBlockHash := by
  rcases Nat.lt_or_eq_of_le hlast with hlt | heq
  · obtain ⟨block, hfound, hhash, _⟩ := (hchecked.tip hinit').found
    rw [if_pos (isRollback_of_lt hinit hlt)] at hfound
    obtain ⟨hmem, _, hheight⟩ := newestRow_some hfound
    rw [← hhash, hrows.eq hs hmem, hheight]
  · rw [(checkRange_ok hchecked.range hinit hinit').2 heq, heq]; exact hrows.tip

theorem publication_chain (hs : Sound network db) {next : State}
    (hfresh : Fresh network db next.revision)
    (hchecked : PublishChecked network (currentState network db) next db)
    (hinit' : next.initialized = 1) (hclear : Unobstructed network db next.lastBlockNumber)
    (hrows : (currentState network db).initialized = 1 → ChainRows network db row) :
    ChainRows network (replay db
      (tombstoneInserts network (currentState network db) next db ++ [.syncState [next]])) row := by
  have hcurrent := (advance_publication hfresh hchecked).current
  obtain ⟨hinit, hlast⟩ := publication_keeps hs hfresh hchecked hinit'
  have hrows := hrows hinit
  have hstartEq := (checkRange_ok hchecked.range hinit hinit').1
  have htip := publication_tip hs hchecked hinit hinit' hlast hrows
  constructor
  · intro h hstart hheight
    rw [hcurrent] at hstart hheight
    have hstart' : (currentState network db).startBlock ≤ h := hstartEq ▸ hstart
    obtain ⟨hmem, heq⟩ := hrows.height h hstart' (by omega)
    refine ⟨?_, heq⟩
    refine canonical_kept hs hcurrent hinit hinit' hstart' (by omega) hstart hheight
      (Nat.le_of_lt hchecked.revision)
      (none_pending hs hclear hinit hstart' (by omega) hheight) ?_ hmem heq ?_
    · intro b hb
      rw [blockRows_append] at hb
      simp only [blockRows_cons, Insert.blockRows, blockRows_nil, List.append_nil] at hb
      obtain ⟨orphan, horphan, rfl⟩ := mem_tombstoneInserts hb
      have : next.lastBlockNumber < orphan.blockNumber := (mem_orphanedRows horphan).2.2 hinit'
      change orphan.blockNumber ≠ h
      omega
    · by_cases hlt : h < next.lastBlockNumber
      · exact Or.inl hlt
      · have : h = next.lastBlockNumber := by omega
        rw [this]; exact Or.inr htip
  · rw [hcurrent]; exact htip
  · intro h hstart hheight
    rw [hcurrent] at hstart hheight
    exact hrows.parent h (hstartEq ▸ hstart) (by omega)

/-! ## Runs -/

/-- The chain of one warehouse is kept by an operation that is careful. -/
theorem chain_step (hs : Sound network db) (hstage : Stage network db ws)
    (hclear : ∀ next, .syncState [next] ∈ ws → next.initialized = 1 →
      Unobstructed network db next.lastBlockNumber)
    (hchain : (currentState network db).initialized = 1 → ∃ row, ChainRows network db row)
    (hinit : (currentState network (replay db ws)).initialized = 1) :
    ∃ row, ChainRows network (replay db ws) row := by
  -- without a state insert the view is what it was
  have hkept (hstates : stateRows ws = []) : ∃ row, ChainRows network (replay db ws) row := by
    have hblocks := canonical_frame (fun b hb => newBlock_of_stage hstage hb) hstates
    have hcurrent : currentState network (replay db ws) = currentState network db :=
      currentState_replay hstates
    rw [hcurrent] at hinit
    obtain ⟨row, hrow⟩ := hchain hinit
    refine ⟨row, ?_, ?_, ?_⟩
    · rw [hcurrent, hblocks]; exact hrow.height
    · rw [hcurrent]; exact hrow.tip
    · rw [hcurrent]; exact hrow.parent
  have hrange := hs.range_step hstage hinit
  -- the rows of the old chain, if there is one
  obtain ⟨row, hrow⟩ : ∃ row, (currentState network db).initialized = 1 →
      ChainRows network db row := by
    by_cases hold : (currentState network db).initialized = 1
    · obtain ⟨row, hrow⟩ := hchain hold; exact ⟨row, fun _ => hrow⟩
    · exact ⟨fun _ => default, fun h => absurd h hold⟩
  cases hstage with
  | idle => exact hkept rfl
  | facts attempt writes headers =>
    exact hkept (List.prefix_nil.mp (by simpa using stateRows_isPrefix writes))
  | marker attempt headers counted => exact hkept (stateRows_marked ..)
  | forward attempt headers counted follows =>
    rw [current_forward attempt follows] at hrange
    exact ⟨_, forward_chain hs attempt follows
      (hclear _ (by simp) follows.initialized) hrange hrow⟩
  | tombstones fresh checked writes =>
    exact hkept (List.prefix_nil.mp (by simpa using stateRows_isPrefix writes))
  | publication fresh checked =>
    rw [(advance_publication fresh checked).current] at hinit
    exact ⟨_, publication_chain hs fresh checked hinit (hclear _ (by simp) hinit) hrow⟩

/-- In a run whose publications of initialized states all find the kept heights
free of pending tombstones, the canonical view of every warehouse reached is a
complete chain. -/
theorem canonical_chain {history : List (List Insert)}
    (h : History (Careful network) (Database.empty network) history)
    (hinit : (currentState network (after network history)).initialized = 1) :
    CompleteChain network (after network history) := by
  have hchain : Sound network (after network history) ∧
      ((currentState network (after network history)).initialized = 1 →
        ∃ row, ChainRows network (after network history) row) := by
    refine h.invariant (I := fun db => Sound network db ∧
      ((currentState network db).initialized = 1 → ∃ row, ChainRows network db row))
      ⟨sound_empty network, fun hempty => by cases hempty⟩ ?_
    rintro db ws ⟨hs, hrows⟩ ⟨hstop, hclear⟩
    have hstage := stopped_cases hs.identity hstop
    exact ⟨hs.step hstage, chain_step hs hstage hclear hrows⟩
  obtain ⟨row, hrow⟩ := hchain.2 hinit
  exact hrow.complete hchain.1

/-- A run without tombstones is careful. -/
theorem careful_of_no_tombstones {history : List (List Insert)} (h : Histories network history)
    (hnone : ∀ b ∈ (after network history).ingestedBlocks, b.ingestionStatus ≠ .orphaned) :
    History (Careful network) (Database.empty network) history := by
  induction h with
  | nil => exact .nil
  | concat _ hstop ih =>
    unfold after at hnone
    rw [replay_concat, replay_ingestedBlocks] at hnone
    refine .concat (ih fun b hb => hnone b (List.mem_append_left _ hb)) ⟨hstop, ?_⟩
    intro _ _ _ _ b hb _ horphaned
    exact absurd horphaned (hnone b (List.mem_append_left _ hb))

theorem two_blocks_complete : CompleteChain .bitcoin (after .bitcoin (runs .bitcoin
    (Database.empty .bitcoin) [(sampleAttempt 5 'a' '9', 4), (sampleAttempt 6 'b' 'a', 4)])) := by
  have hblocks : let db := after .bitcoin (runs .bitcoin (Database.empty .bitcoin)
        [(sampleAttempt 5 'a' '9', 4), (sampleAttempt 6 'b' 'a', 4)])
      (∀ b ∈ db.ingestedBlocks, b.ingestionStatus ≠ .orphaned) ∧
        (currentState .bitcoin db).initialized = 1 := by decide +kernel
  exact canonical_chain (careful_of_no_tombstones (histories_of_runs ..) hblocks.1) hblocks.2

/-- A state inserted by an operation is its new fence, over the old range. -/
theorem advance_of_state (h : Stage network db ws) {next : State} (hmem : .syncState [next] ∈ ws)
    (hinit : (currentState network db).initialized = 1) (hinit' : next.initialized = 1) :
    Advance network db ws next ∧ next.startBlock = (currentState network db).startBlock := by
  have hnone (hstates : stateRows ws = []) : False := by
    have : next ∈ stateRows ws := List.mem_flatMap.mpr ⟨_, hmem, by simp [Insert.stateRows]⟩
    rw [hstates] at this; cases this
  have honly {first : List Insert} {other : State} (hstates : stateRows first = [])
      (hws : ws = first ++ [.syncState [other]]) : next = other := by
    have : next ∈ stateRows ws := List.mem_flatMap.mpr ⟨_, hmem, by simp [Insert.stateRows]⟩
    rw [hws, stateRows_append, hstates] at this
    simpa [Insert.stateRows] using this
  cases h with
  | idle => cases hmem
  | facts attempt writes headers =>
    exact (hnone (List.prefix_nil.mp (by simpa using stateRows_isPrefix writes))).elim
  | marker attempt headers counted => exact (hnone (stateRows_marked ..)).elim
  | forward attempt headers counted follows =>
    obtain rfl := honly (stateRows_marked ..) rfl
    refine ⟨advance_forward attempt headers follows, ?_⟩
    rw [follows.startBlock, if_pos hinit]
  | tombstones fresh checked writes =>
    exact (hnone (List.prefix_nil.mp (by simpa using stateRows_isPrefix writes))).elim
  | publication fresh checked =>
    obtain rfl := honly (stateRows_tombstoneInserts ..) rfl
    exact ⟨advance_publication fresh checked, (checkRange_ok checked.range hinit hinit').1⟩

/-- The condition is exact: a publication over a pending tombstone leaves its
height without a canonical block. -/
theorem obstructed_gap (hs : Sound network db) (hstop : Stopped network db ws) {next : State}
    (hmem : .syncState [next] ∈ ws) (hinit' : next.initialized = 1)
    (hobstructed : ¬ Unobstructed network db next.lastBlockNumber) :
    ¬ CompleteChain network (replay db ws) := by
  have hstage := stopped_cases hs.identity hstop
  have hs' := hs.step hstage
  simp only [Unobstructed, not_forall, not_lt] at hobstructed
  obtain ⟨hinit, b, hb, _, horphaned, hfence, hstart, hlast, htop⟩ := hobstructed
  obtain ⟨hadvance, hstartEq⟩ := advance_of_state hstage hmem hinit hinit'
  intro hchain
  obtain ⟨c, ⟨hc, hheight⟩, _⟩ := hchain.row b.blockNumber
    (by rw [hadvance.current, hstartEq]; exact hstart) (by rw [hadvance.current]; exact htop)
  -- the row read at the height is at least as new as the tombstone
  have hpending : (currentState network db).revision < c.revision := by
    have hbmem : b ∈ fenced (replay db ws) := by
      have := hs.le_written hb
      have := hadvance.fresh.written
      refine mem_fenced.mpr ⟨by simp [hb], ?_⟩
      rw [hs.networks b hb, hadvance.current]
      exact ⟨hinit', by omega, hstartEq ▸ hstart, htop⟩
    have hkey : b.height = c.height := by
      have := hs'.networks c (published_of_canonical hc).1
      exact Prod.ext ((hs.networks b hb).trans this.symm) hheight.symm
    have hread := (mem_canonical.mp hc).1
    have hle := latest_greatest hread hbmem hkey
    exact hfence.trans_le hle
  have hcomplete := (mem_canonical.mp hc).2.2.1
  have hcmem := (published_of_canonical hc).1
  rw [replay_ingestedBlocks] at hcmem
  have hcorphaned : c.ingestionStatus = .orphaned := by
    rcases List.mem_append.mp hcmem with hcmem | hcmem
    · exact hs.pending hinit c hcmem hpending (by omega)
    · rcases (newBlock_of_stage hstage hcmem).height hinit with horphaned | htip
      · exact horphaned
      · omega
  rw [hcorphaned] at hcomplete
  cases hcomplete

/-! ## An interrupted rollback -/

/-- Blocks 5 and 6 are published; a rollback to 5 stops after its tombstone of
6; block 7 is published on top of 6. -/
def interruptedRollback : List (List Insert) :=
  runs .bitcoin (Database.empty .bitcoin) [(sampleAttempt 5 'a' '9', 4), (sampleAttempt 6 'b' 'a', 4),
    (sampleRollback 5 5 'a', 1), (sampleAttempt 7 'c' 'b', 4)]

theorem interrupted_rollback_gap : ¬ ∀ (network : Network) (history : List (List Insert)),
    Histories network history → (currentState network (after network history)).initialized = 1 →
    CompleteChain network (after network history) := by
  intro h
  have hgap : (currentState .bitcoin (after .bitcoin interruptedRollback)).initialized = 1 ∧
      (currentState .bitcoin (after .bitcoin interruptedRollback)).startBlock ≤ 6 ∧
      6 ≤ (currentState .bitcoin (after .bitcoin interruptedRollback)).lastBlockNumber ∧
      ∀ b ∈ ingestedBlocksCanonical (after .bitcoin interruptedRollback), b.blockNumber ≠ 6 := by
    decide +kernel
  obtain ⟨hinit, hstart, hlast, hnone⟩ := hgap
  have hchain := h .bitcoin interruptedRollback (histories_of_runs ..) hinit
  obtain ⟨b, ⟨hb, hheight⟩, _⟩ := hchain.row 6 hstart hlast
  exact hnone b hb hheight

end

end AmlReal.Warehouse.CanonicalChain
