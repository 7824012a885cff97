import AmlReal.Warehouse.Fence

/-! # What holds of every reachable warehouse

`Sound` is kept by every operation wherever it stops, interrupted rollbacks
included: what lies above the fence inside the published heights is orphaned,
what facts lie above the fence lie above its tip, and every fact has its
reservation one revision below. -/

namespace AmlReal.Warehouse.Reachable
open AmlReal.Foundations.LatestRows AmlReal.Foundations.StoreProgram
open AmlReal.Warehouse.Values AmlReal.Warehouse.Tables AmlReal.Warehouse.Publication
open AmlReal.Warehouse.Operations AmlReal.Warehouse.Contents AmlReal.Warehouse.Stages
open AmlReal.Warehouse.Attempts AmlReal.Warehouse.Fence

structure Sound (network : Network) (db : Database) : Prop where
  identity : db.identity = network
  networks : ∀ b ∈ db.ingestedBlocks, b.networkId = network
  range : (currentState network db).initialized = 1 →
    (currentState network db).startBlock ≤ (currentState network db).lastBlockNumber
  pending : (currentState network db).initialized = 1 → ∀ b ∈ db.ingestedBlocks,
    (currentState network db).revision < b.revision →
    b.blockNumber ≤ (currentState network db).lastBlockNumber → b.ingestionStatus = .orphaned
  reserved : ∀ f ∈ db.facts, ∃ b ∈ db.ingestedBlocks,
    b.blockNumber = f.2.blockNumber ∧ b.revision + 1 = f.2.revision
  pendingFacts : (currentState network db).initialized = 1 → ∀ f ∈ db.facts,
    (currentState network db).revision < f.2.revision →
    (currentState network db).lastBlockNumber < f.2.blockNumber

/-- The operation's inserts `ws` end in the state `next`. -/
structure Advance (network : Network) (db : Database) (ws : List Insert) (next : State) :
    Prop where
  fresh : Fresh network db next.revision
  current : currentState network (replay db ws) = next
  blocks : ∀ b ∈ blockRows ws, b.revision ≤ next.revision
  facts : ∀ f ∈ factRows ws, f.2.revision ≤ next.revision

section
variable {network : Network} {db : Database} {ws : List Insert}

theorem revision_of_header {block : Block} {f : FactRow} (h : HasHeader block f) :
    f.blockNumber = block.blockNumber ∧ f.revision = block.revision := by
  have hof := h.1
  unfold FactRow.ofBlock at hof
  rw [decide_eq_true_eq] at hof
  exact ⟨hof.2.1, hof.2.2.2.2⟩

theorem current_forward {block : Block} {batch : FactBatch} {next : State}
    (hattempt : Attempt network db block)
    (hfollows : Follows (currentState network db) block next) :
    currentState network (replay db (marked block batch ++ [.syncState [next]])) = next := by
  refine currentState_publish (by simp [Insert.stateRows]) ?_ ?_
  · rw [hfollows.networkId, hattempt.sameNetwork]
  · rw [hfollows.revision]; have := hattempt.fresh.fence; omega

theorem advance_forward {block : Block} {batch : FactBatch} {next : State}
    (hattempt : Attempt network db block)
    (hheaders : ∀ f ∈ factRows (started block batch), HasHeader block f.2)
    (hfollows : Follows (currentState network db) block next) :
    Advance network db (marked block batch ++ [.syncState [next]]) next where
  fresh := hfollows.revision ▸ hattempt.fresh
  current := current_forward hattempt hfollows
  blocks := by
    intro b hb
    rw [hfollows.revision]
    rw [blockRows_append, blockRows_marked] at hb
    simp only [blockRows_cons, Insert.blockRows, blockRows_nil, List.append_nil] at hb
    rcases List.mem_pair.mp hb with rfl | rfl
    · exact Nat.sub_le ..
    · exact Nat.le_refl _
  facts := by
    intro f hf
    rw [hfollows.revision]
    exact (revision_of_header (hheaders f (by simpa [Insert.factRows] using hf))).2.le

theorem advance_publication {next : State} (hfresh : Fresh network db next.revision)
    (hchecked : PublishChecked network (currentState network db) next db) :
    Advance network db
      (tombstoneInserts network (currentState network db) next db ++ [.syncState [next]]) next where
  fresh := hfresh
  current := currentState_publish (by simp [Insert.stateRows]) hchecked.sameNetwork
    hchecked.revision
  blocks := by
    intro b hb
    rw [blockRows_append] at hb
    simp only [blockRows_cons, Insert.blockRows, blockRows_nil, List.append_nil] at hb
    obtain ⟨row, _, rfl⟩ := mem_tombstoneInserts hb
    exact Nat.le_refl _
  facts := by intro f hf; simp [Insert.factRows] at hf

theorem advance_of_stage (h : Stage network db ws) :
    stateRows ws = [] ∨ ∃ next, Advance network db ws next := by
  cases h with
  | idle => exact Or.inl rfl
  | facts attempt writes headers =>
    refine Or.inl (List.prefix_nil.mp ?_)
    simpa using stateRows_isPrefix writes
  | marker attempt headers counted => exact Or.inl (stateRows_marked ..)
  | forward attempt headers counted follows =>
    exact Or.inr ⟨_, advance_forward attempt headers follows⟩
  | tombstones fresh checked writes =>
    refine Or.inl (List.prefix_nil.mp ?_)
    simpa using stateRows_isPrefix writes
  | publication fresh checked => exact Or.inr ⟨_, advance_publication fresh checked⟩

/-- An attempt that has sent a fact has sent its reservation. -/
theorem reservation_of_fact (h : Stage network db ws) {f : FactTable × FactRow}
    (hf : f ∈ factRows ws) : ∃ b ∈ blockRows ws,
      b.blockNumber = f.2.blockNumber ∧ b.revision + 1 = f.2.revision := by
  have hrow {block : Block} (hattempt : Attempt network db block) (hheader : HasHeader block f.2) :
      (reservation block).blockNumber = f.2.blockNumber ∧
        (reservation block).revision + 1 = f.2.revision := by
    obtain ⟨hheight, hrevision⟩ := revision_of_header hheader
    have := hattempt.fresh.fence
    refine ⟨hheight.symm, ?_⟩
    change block.revision - 1 + 1 = f.2.revision
    omega
  cases h with
  | idle => cases hf
  | @facts ws block batch attempt writes headers =>
    refine ⟨reservation block, ?_, hrow attempt (headers f hf)⟩
    cases ws with
    | nil => cases hf
    | cons w ws =>
      obtain ⟨rfl, _⟩ := List.cons_prefix_cons.mp writes
      simp [Insert.blockRows]
  | @marker block batch attempt headers counted =>
    exact ⟨reservation block, by simp, hrow attempt (headers f (by simpa using hf))⟩
  | @forward block batch next attempt headers counted follows =>
    refine ⟨reservation block, by simp, hrow attempt (headers f ?_)⟩
    simpa [Insert.factRows] using hf
  | tombstones fresh checked writes =>
    have := (factRows_isPrefix writes).subset hf
    rw [factRows_tombstoneInserts] at this; cases this
  | publication fresh checked => simp [Insert.factRows] at hf

theorem Sound.le_written (hs : Sound network db) {b : BlockRow} (hb : b ∈ db.ingestedBlocks) :
    b.revision ≤ writtenRevision network db := le_writtenRevision hb (hs.networks b hb)

theorem Sound.fact_le_written (hs : Sound network db) {f : FactTable × FactRow}
    (hf : f ∈ db.facts) : f.2.revision ≤ writtenRevision network db + 1 := by
  obtain ⟨b, hb, _, hrevision⟩ := hs.reserved f hf
  have := hs.le_written hb
  omega

theorem Sound.range_step (hs : Sound network db) (h : Stage network db ws)
    (hinit : (currentState network (replay db ws)).initialized = 1) :
    (currentState network (replay db ws)).startBlock ≤
      (currentState network (replay db ws)).lastBlockNumber := by
  have hkept (hstates : stateRows ws = []) :
      (currentState network (replay db ws)).startBlock ≤
        (currentState network (replay db ws)).lastBlockNumber := by
    rw [currentState_replay hstates] at hinit ⊢; exact hs.range hinit
  rcases advance_of_stage h with hstates | ⟨next, hadvance⟩
  · exact hkept hstates
  cases h with
  | idle => exact hkept rfl
  | facts attempt writes headers =>
    exact hkept (List.prefix_nil.mp (by simpa using stateRows_isPrefix writes))
  | marker attempt headers counted => exact hkept (stateRows_marked ..)
  | forward attempt headers counted follows =>
    rw [current_forward attempt follows, follows.startBlock, follows.lastBlockNumber]
    split
    · rename_i hprevious
      rw [(attempt.contiguous hprevious).1]
      exact (hs.range hprevious).trans (Nat.le_succ _)
    · exact Nat.le_refl _
  | tombstones fresh checked writes =>
    exact hkept (List.prefix_nil.mp (by simpa using stateRows_isPrefix writes))
  | publication fresh checked =>
    rw [(advance_publication fresh checked).current] at hinit ⊢
    exact (checked.tip hinit).range

theorem Sound.step (hs : Sound network db) (h : Stage network db ws) :
    Sound network (replay db ws) where
  identity := (replay_identity ..).trans hs.identity
  networks := by
    intro b hb
    rw [replay_ingestedBlocks] at hb
    exact (List.mem_append.mp hb).elim (hs.networks b) fun hb => (newBlock_of_stage h hb).sameNetwork
  range := hs.range_step h
  pending := by
    intro hinit b hb hfence hheight
    rw [replay_ingestedBlocks] at hb
    rcases advance_of_stage h with hstates | ⟨next, hadvance⟩
    · rw [currentState_replay hstates] at hinit hfence hheight
      rcases List.mem_append.mp hb with hb | hb
      · exact hs.pending hinit b hb hfence hheight
      · rcases (newBlock_of_stage h hb).height hinit with horphaned | htip
        · exact horphaned
        · omega
    · rw [hadvance.current] at hfence
      have := hadvance.fresh.written
      rcases List.mem_append.mp hb with hb | hb
      · have := hs.le_written hb; omega
      · have := hadvance.blocks b hb; omega
  reserved := by
    intro f hf
    rw [replay_facts] at hf
    rw [replay_ingestedBlocks]
    rcases List.mem_append.mp hf with hf | hf
    · obtain ⟨b, hb, hrow⟩ := hs.reserved f hf
      exact ⟨b, List.mem_append_left _ hb, hrow⟩
    · obtain ⟨b, hb, hrow⟩ := reservation_of_fact h hf
      exact ⟨b, List.mem_append_right _ hb, hrow⟩
  pendingFacts := by
    intro hinit f hf hfence
    rw [replay_facts] at hf
    rcases advance_of_stage h with hstates | ⟨next, hadvance⟩
    · rw [currentState_replay hstates] at hinit hfence ⊢
      rcases List.mem_append.mp hf with hf | hf
      · exact hs.pendingFacts hinit f hf hfence
      · rw [(newFact_of_stage h hf).height hinit]; omega
    · rw [hadvance.current] at hfence
      have := hadvance.fresh.written
      rcases List.mem_append.mp hf with hf | hf
      · have := hs.fact_le_written hf; omega
      · have := hadvance.facts f hf; omega

theorem sound_empty (network : Network) : Sound network (Database.empty network) where
  identity := rfl
  networks := by intro b hb; cases hb
  range := by intro hinit; cases hinit
  pending := by intro hinit; cases hinit
  reserved := by intro f hf; cases hf
  pendingFacts := by intro hinit; cases hinit

theorem sound_after {history : List (List Insert)} (h : Histories network history) :
    Sound network (after network history) :=
  h.invariant (sound_empty network) fun _ _ hs hstop => hs.step (stopped_cases hs.identity hstop)

end

end AmlReal.Warehouse.Reachable
