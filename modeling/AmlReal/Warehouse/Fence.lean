import AmlReal.Warehouse.Attempts

/-! # The publication fence

Every row that an operation inserts before its state lies above the fence that
was in force when the operation began. Below, this is read off the stages, and
with it the frame theorem: nothing before the state insert reaches a reader. -/

namespace AmlReal.Warehouse.Fence
open AmlReal.Foundations.LatestRows AmlReal.Foundations.StoreProgram
open AmlReal.Foundations.StoreProgram.Program
open AmlReal.Warehouse.Values AmlReal.Warehouse.Tables AmlReal.Warehouse.Publication
open AmlReal.Warehouse.Operations AmlReal.Warehouse.Contents AmlReal.Warehouse.Stages
open AmlReal.Warehouse.Attempts

section
variable {network : Network} {db : Database} {ws : List Insert}

/-! ## The current state -/

theorem currentState_networkId (network : Network) (db : Database) :
    (currentState network db).networkId = network := by
  unfold currentState
  cases hfind : (syncStateCurrent db).find? fun s => s.networkId = network with
  | none => rfl
  | some s => simpa using List.find?_some hfind

/-- A network has one current row. -/
theorem eq_currentState {s : State} (hs : s ∈ syncStateCurrent db) :
    s = currentState s.networkId db := by
  unfold currentState
  cases hfind : (syncStateCurrent db).find? fun t => t.networkId = s.networkId with
  | none => exact absurd (List.find?_eq_none.mp hfind s hs) (by simp)
  | some t =>
    have ht : t.networkId = s.networkId := by simpa using List.find?_some hfind
    exact latest_unique hs (List.mem_of_find?_eq_some hfind) ht.symm

theorem currentState_mem (hinit : (currentState network db).initialized = 1) :
    currentState network db ∈ syncStateCurrent db := by
  unfold currentState at hinit ⊢
  cases hfind : (syncStateCurrent db).find? fun s => s.networkId = network with
  | none => rw [hfind] at hinit; cases hinit
  | some s => exact List.mem_of_find?_eq_some hfind

theorem syncStateCurrent_replay (hstates : stateRows ws = []) :
    syncStateCurrent (replay db ws) = syncStateCurrent db := by
  unfold syncStateCurrent; rw [replay_syncState, hstates, List.append_nil]

theorem currentState_replay (hstates : stateRows ws = []) :
    currentState network (replay db ws) = currentState network db := by
  unfold currentState; rw [syncStateCurrent_replay hstates]

/-- A newer state takes the place of the current one. -/
theorem currentState_publish {next : State} (hws : stateRows ws = [next])
    (hnext : next.networkId = network)
    (hnew : (currentState network db).revision < next.revision) :
    currentState network (replay db ws) = next := by
  have hmem : next ∈ syncStateCurrent (replay db ws) := by
    unfold syncStateCurrent
    rw [replay_syncState, hws]
    refine mem_latest_of_greatest (by simp) fun o ho hk hne => ?_
    rcases List.mem_append.mp ho with ho | ho
    · obtain ⟨m, hm, hkm, hv⟩ : ∃ m ∈ syncStateCurrent db, m.networkId = o.networkId ∧
          o.revision ≤ m.revision := exists_mem_latest ho
      have := eq_currentState hm
      rw [hkm, hk, hnext] at this
      rw [this] at hv; omega
    · exact absurd (List.mem_singleton.mp ho) hne
  rw [eq_currentState hmem, hnext]

theorem le_writtenRevision {b : BlockRow} (hb : b ∈ db.ingestedBlocks)
    (hn : b.networkId = network) : b.revision ≤ writtenRevision network db := by
  have hmem : b.revision ∈
      (db.ingestedBlocks.filter fun b => b.networkId = network).map fun b => b.revision :=
    List.mem_map_of_mem (by simp [hb, hn])
  unfold writtenRevision
  generalize (db.ingestedBlocks.filter fun b => b.networkId = network).map (fun b => b.revision) =
    revisions at hmem ⊢
  induction revisions with
  | nil => cases hmem
  | cons r rest ih =>
    rcases List.mem_cons.mp hmem with h | h
    · rw [h]; exact Nat.le_max_left ..
    · exact (ih h).trans (Nat.le_max_right ..)

/-! ## The views of one network -/

/-- The row is published: inside the observed range and not above the fence. -/
structure Published (s : State) (b : BlockRow) : Prop where
  initialized : s.initialized = 1
  revision : b.revision ≤ s.revision
  start : s.startBlock ≤ b.blockNumber
  last : b.blockNumber ≤ s.lastBlockNumber

theorem any_published {b : BlockRow} : ((syncStateCurrent db).any fun s =>
      b.networkId = s.networkId ∧ s.initialized = 1 ∧ b.revision ≤ s.revision ∧
      s.startBlock ≤ b.blockNumber ∧ b.blockNumber ≤ s.lastBlockNumber) = true ↔
    Published (currentState b.networkId db) b := by
  rw [List.any_eq_true]
  constructor
  · rintro ⟨s, hs, h⟩
    rw [decide_eq_true_eq] at h
    rw [h.1, ← eq_currentState hs]
    exact ⟨h.2.1, h.2.2.1, h.2.2.2.1, h.2.2.2.2⟩
  · intro h
    refine ⟨_, currentState_mem h.initialized, ?_⟩
    rw [decide_eq_true_eq]
    exact ⟨(currentState_networkId ..).symm, h.initialized, h.revision, h.start, h.last⟩

theorem mem_fenced {b : BlockRow} : b ∈ fenced db ↔
    b ∈ db.ingestedBlocks ∧ Published (currentState b.networkId db) b := by
  unfold fenced
  rw [List.mem_filter, any_published]

theorem mem_canonical {b : BlockRow} : b ∈ ingestedBlocksCanonical db ↔
    b ∈ latest BlockRow.height (fun b => b.revision) (fenced db) ∧ b.canonical = 1 ∧
      b.ingestionStatus = .complete ∧
      (b.blockNumber < (currentState b.networkId db).lastBlockNumber ∨
        b.blockHash = (currentState b.networkId db).lastBlockHash) := by
  unfold ingestedBlocksCanonical
  rw [List.mem_filter]
  constructor
  · rintro ⟨hb, h⟩
    rw [decide_eq_true_eq] at h
    obtain ⟨hcanonical, hcomplete, hany⟩ := h
    obtain ⟨s, hs, htip⟩ := List.any_eq_true.mp hany
    rw [decide_eq_true_eq] at htip
    rw [← htip.1, ← eq_currentState hs]
    exact ⟨hb, hcanonical, hcomplete, htip.2⟩
  · rintro ⟨hb, hcanonical, hcomplete, htip⟩
    have hpublished := (mem_fenced.mp (mem_of_mem_latest hb)).2
    refine ⟨hb, ?_⟩
    rw [decide_eq_true_eq]
    refine ⟨hcanonical, hcomplete, List.any_eq_true.mpr ?_⟩
    refine ⟨_, currentState_mem hpublished.initialized, ?_⟩
    rw [decide_eq_true_eq]
    exact ⟨currentState_networkId .., htip⟩

theorem published_of_canonical {b : BlockRow} (hb : b ∈ ingestedBlocksCanonical db) :
    b ∈ db.ingestedBlocks ∧ Published (currentState b.networkId db) b :=
  mem_fenced.mp (mem_of_mem_latest (mem_canonical.mp hb).1)

/-! ## The rows of a stage -/

@[simp] theorem blockRows_started (block : Block) (batch : FactBatch) :
    blockRows (started block batch) = [reservation block] := by
  simp [started, Insert.blockRows]

@[simp] theorem stateRows_started (block : Block) (batch : FactBatch) :
    stateRows (started block batch) = [] := by
  simp [started, Insert.stateRows]

@[simp] theorem blockRows_marked (block : Block) (batch : FactBatch) :
    blockRows (marked block batch) = [reservation block, blockRow block batch.counts] := by
  simp [marked, Insert.blockRows]

@[simp] theorem factRows_marked (block : Block) (batch : FactBatch) :
    factRows (marked block batch) = factRows (started block batch) := by
  simp [marked, Insert.factRows]

@[simp] theorem stateRows_marked (block : Block) (batch : FactBatch) :
    stateRows (marked block batch) = [] := by
  simp [marked, Insert.stateRows]

@[simp] theorem factRows_tombstoneInserts (network : Network) (previous next : State)
    (db : Database) : factRows (tombstoneInserts network previous next db) = [] := by
  unfold tombstoneInserts; split <;> simp

@[simp] theorem stateRows_tombstoneInserts (network : Network) (previous next : State)
    (db : Database) : stateRows (tombstoneInserts network previous next db) = [] := by
  unfold tombstoneInserts; split <;> simp

theorem mem_tombstoneInserts {previous next : State} {b : BlockRow}
    (hb : b ∈ blockRows (tombstoneInserts network previous next db)) :
    ∃ row ∈ orphanedRows network next db, b = tombstone next row := by
  unfold tombstoneInserts at hb
  split at hb
  · rw [blockRows_chunks, chunks_flatten (by omega)] at hb
    obtain ⟨row, hrow, rfl⟩ := List.mem_map.mp hb
    exact ⟨row, hrow, rfl⟩
  · cases hb

/-- A block row inserted by an operation that began on `db`. -/
structure NewBlock (network : Network) (db : Database) (b : BlockRow) : Prop where
  sameNetwork : b.networkId = network
  fence : (currentState network db).revision < b.revision
  written : writtenRevision network db + 1 < b.revision
  height : (currentState network db).initialized = 1 → b.ingestionStatus = .orphaned ∨
    b.blockNumber = (currentState network db).lastBlockNumber + 1

/-- A fact inserted by an operation that began on `db`. -/
structure NewFact (network : Network) (db : Database) (f : FactRow) : Prop where
  sameNetwork : f.networkId = network
  fence : (currentState network db).revision < f.revision
  written : writtenRevision network db + 2 < f.revision
  height : (currentState network db).initialized = 1 →
    f.blockNumber = (currentState network db).lastBlockNumber + 1

theorem newReservation {block : Block} (h : Attempt network db block) :
    NewBlock network db (reservation block) := by
  obtain ⟨hfence, hwritten⟩ := h.fresh
  refine ⟨h.sameNetwork, ?_, ?_, fun hinit => Or.inr (h.contiguous hinit).1⟩
  · change _ < block.revision - 1; omega
  · change _ < block.revision - 1; omega

theorem newMarker {block : Block} (h : Attempt network db block)
    (counts : List (FactTable × Nat)) : NewBlock network db (blockRow block counts) := by
  obtain ⟨hfence, hwritten⟩ := h.fresh
  refine ⟨h.sameNetwork, ?_, ?_, fun hinit => Or.inr (h.contiguous hinit).1⟩
  · change _ < block.revision; omega
  · change _ < block.revision; omega

theorem newTombstone {next : State} (hfresh : Fresh network db next.revision) {row : BlockRow}
    (hrow : row ∈ orphanedRows network next db) : NewBlock network db (tombstone next row) := by
  obtain ⟨hfence, hwritten⟩ := hfresh
  refine ⟨(mem_orphanedRows hrow).2.1, ?_, ?_, fun _ => Or.inl rfl⟩
  · change _ < next.revision; omega
  · change _ < next.revision; omega

theorem newBlock_of_stage (h : Stage network db ws) {b : BlockRow} (hb : b ∈ blockRows ws) :
    NewBlock network db b := by
  cases h with
  | idle => cases hb
  | facts attempt writes headers =>
    have hb := (blockRows_isPrefix writes).subset hb
    rw [blockRows_started, List.mem_singleton] at hb
    exact hb ▸ newReservation attempt
  | marker attempt headers counted =>
    rw [blockRows_marked] at hb
    rcases List.mem_pair.mp hb with rfl | rfl
    · exact newReservation attempt
    · exact newMarker attempt _
  | forward attempt headers counted follows =>
    rw [blockRows_append, blockRows_marked] at hb
    simp only [blockRows_cons, Insert.blockRows, blockRows_nil, List.append_nil] at hb
    rcases List.mem_pair.mp hb with rfl | rfl
    · exact newReservation attempt
    · exact newMarker attempt _
  | tombstones fresh checked writes =>
    obtain ⟨row, hrow, rfl⟩ := mem_tombstoneInserts ((blockRows_isPrefix writes).subset hb)
    exact newTombstone fresh hrow
  | publication fresh checked =>
    rw [blockRows_append] at hb
    simp only [blockRows_cons, Insert.blockRows, blockRows_nil, List.append_nil] at hb
    obtain ⟨row, hrow, rfl⟩ := mem_tombstoneInserts hb
    exact newTombstone fresh hrow

/-- The facts of an attempt carry the header of its block. -/
theorem newFact_of_header {block : Block} (h : Attempt network db block) {f : FactRow}
    (hf : HasHeader block f) : NewFact network db f := by
  obtain ⟨hfence, hwritten⟩ := h.fresh
  have hheader : f.networkId = block.networkId ∧ f.blockNumber = block.blockNumber ∧
      f.blockHash = block.blockHash ∧ f.commitId = block.commitId ∧
      f.revision = block.revision := by simpa [FactRow.ofBlock] using hf.1
  obtain ⟨hn, hheight, _, _, hrev⟩ := hheader
  exact ⟨hn.trans h.sameNetwork, by omega, by omega,
    fun hinit => hheight.trans (h.contiguous hinit).1⟩

theorem newFact_of_stage (h : Stage network db ws) {f : FactTable × FactRow}
    (hf : f ∈ factRows ws) : NewFact network db f.2 := by
  cases h with
  | idle => cases hf
  | facts attempt writes headers => exact newFact_of_header attempt (headers f hf)
  | marker attempt headers counted =>
    exact newFact_of_header attempt (headers f (by simpa using hf))
  | forward attempt headers counted follows =>
    exact newFact_of_header attempt (headers f (by simpa [Insert.factRows] using hf))
  | tombstones fresh checked writes =>
    have := (factRows_isPrefix writes).subset hf
    rw [factRows_tombstoneInserts] at this; cases this
  | publication fresh checked => simp [Insert.factRows] at hf

/-- An operation inserts at most one state, and that last. -/
theorem states_of_stage (h : Stage network db ws) : stateRows ws = [] ∨
    ∃ first next, ws = first ++ [.syncState [next]] ∧ stateRows first = [] ∧
      next.networkId = network ∧ (currentState network db).revision < next.revision := by
  cases h with
  | idle => exact Or.inl rfl
  | facts attempt writes headers =>
    refine Or.inl (List.prefix_nil.mp ?_)
    simpa using stateRows_isPrefix writes
  | marker attempt headers counted => exact Or.inl (stateRows_marked ..)
  | @forward block batch next attempt headers counted follows =>
    refine Or.inr ⟨_, next, rfl, stateRows_marked .., ?_, ?_⟩
    · rw [follows.networkId, attempt.sameNetwork]
    · rw [follows.revision]; have := attempt.fresh.fence; omega
  | tombstones fresh checked writes =>
    refine Or.inl (List.prefix_nil.mp ?_)
    simpa using stateRows_isPrefix writes
  | @publication next fresh checked =>
    exact Or.inr ⟨_, next, rfl, stateRows_tombstoneInserts .., checked.sameNetwork,
      checked.revision⟩

end

/-! ## What readers see -/

/-- The current states, the canonical blocks and the canonical facts of every table. -/
structure View where
  syncState : List State
  blocks : List BlockRow
  facts : FactTable → List (FactTable × FactRow)

def visible (db : Database) : View :=
  ⟨syncStateCurrent db, ingestedBlocksCanonical db, factsCanonical db⟩

section
variable {network : Network} {db : Database} {ws : List Insert}

theorem fenced_frame (hblocks : ∀ b ∈ blockRows ws, NewBlock network db b)
    (hstates : stateRows ws = []) : fenced (replay db ws) = fenced db := by
  unfold fenced
  rw [syncStateCurrent_replay hstates, replay_ingestedBlocks, List.filter_append]
  refine (congrArg _ (List.filter_eq_nil_iff.mpr fun b hb => ?_)).trans (List.append_nil _)
  rw [Bool.not_eq_true, List.any_eq_false]
  intro s hs
  have hnew := hblocks b hb
  rw [decide_eq_true_eq]
  rintro ⟨hn, _, hrev, _⟩
  have hcurrent := eq_currentState hs
  rw [← hn, hnew.sameNetwork] at hcurrent
  have := hnew.fence
  rw [← hcurrent] at this; omega

theorem canonical_frame (hblocks : ∀ b ∈ blockRows ws, NewBlock network db b)
    (hstates : stateRows ws = []) :
    ingestedBlocksCanonical (replay db ws) = ingestedBlocksCanonical db := by
  unfold ingestedBlocksCanonical
  rw [fenced_frame hblocks hstates, syncStateCurrent_replay hstates]

theorem facts_frame (hblocks : ∀ b ∈ blockRows ws, NewBlock network db b)
    (hfacts : ∀ f ∈ factRows ws, NewFact network db f.2) (hstates : stateRows ws = [])
    (table : FactTable) : factsCanonical (replay db ws) table = factsCanonical db table := by
  unfold factsCanonical factsFinal
  rw [canonical_frame hblocks hstates, replay_facts]
  -- a fact of a canonical block lies below the fence and not above its tip
  have hof : ∀ r : FactTable × FactRow, ∀ b ∈ ingestedBlocksCanonical db,
      r.2.ofBlock b.toBlock = true → Published (currentState r.2.networkId db) b ∧
        r.2.blockNumber = b.blockNumber ∧ r.2.revision = b.revision := by
    intro r b hb hof
    have hheader : r.2.networkId = b.networkId ∧ r.2.blockNumber = b.blockNumber ∧
        r.2.blockHash = b.blockHash ∧ r.2.commitId = b.commitId ∧ r.2.revision = b.revision := by
      simpa [FactRow.ofBlock] using hof
    rw [hheader.1]
    exact ⟨(published_of_canonical hb).2, hheader.2.1, hheader.2.2.2.2⟩
  refine latest_append_filter (fun row hrow => ?_) (fun row hrow r hr hkey => ?_)
  · have hnew := hfacts row hrow
    rw [decide_eq_false_iff_not]
    rintro ⟨_, hany⟩
    obtain ⟨b, hb, hjoin⟩ := List.any_eq_true.mp hany
    rw [decide_eq_true_eq] at hjoin
    obtain ⟨hpublished, _, hrev⟩ := hof row b hb hjoin.1
    have := hnew.fence
    have := hpublished.revision
    rw [hnew.sameNetwork] at this; omega
  · have hnew := hfacts row hrow
    rw [decide_eq_true_eq] at hr
    obtain ⟨b, hb, hjoin⟩ := List.any_eq_true.mp hr.2
    rw [decide_eq_true_eq] at hjoin
    obtain ⟨hpublished, hheight, _⟩ := hof r b hb hjoin.1
    have hsame : r.2.networkId = row.2.networkId ∧ r.2.blockNumber = row.2.blockNumber :=
      ⟨congrArg FactKey.networkId hkey, congrArg FactKey.blockNumber hkey⟩
    rw [hsame.1, hnew.sameNetwork] at hpublished
    have := hnew.height hpublished.initialized
    have := hpublished.last
    omega

/-- Rows above the fence and, when there is a published range, facts above its
tip are invisible. -/
theorem visible_frame (hblocks : ∀ b ∈ blockRows ws, NewBlock network db b)
    (hfacts : ∀ f ∈ factRows ws, NewFact network db f.2) (hstates : stateRows ws = []) :
    visible (replay db ws) = visible db := by
  unfold visible
  rw [syncStateCurrent_replay hstates, canonical_frame hblocks hstates,
    funext (facts_frame hblocks hfacts hstates)]

/-- An initial part of an operation's inserts without its state is invisible. -/
theorem visible_of_stage (h : Stage network db ws) {first : List Insert} (hpre : first <+: ws)
    (hstates : stateRows first = []) : visible (replay db first) = visible db :=
  visible_frame (fun _ hb => newBlock_of_stage h ((blockRows_isPrefix hpre).subset hb))
    (fun _ hf => newFact_of_stage h ((factRows_isPrefix hpre).subset hf)) hstates

end

/-! ## Reachable warehouses -/

section
variable {network : Network} {history : List (List Insert)}

theorem identity_after (h : Histories network history) : (after network history).identity = network :=
  h.invariant (I := fun db => db.identity = network) rfl fun _ _ hinv _ =>
    (replay_identity ..).trans hinv

/-- Every insert of an operation but its final state insert leaves the current
state, the canonical blocks and the canonical facts of every table as they
were when the operation began. -/
theorem invisible_before_state (h : Histories network history) {ws : List Insert}
    (hstop : Stopped network (after network history) ws) {first rest : List Insert} {w : Insert}
    (hws : ws = first ++ w :: rest) :
    visible (replay (after network history) first) = visible (after network history) ∧
    (visible (replay (after network history) (first ++ [w])) = visible (after network history) ∨
      (∃ next, w = .syncState [next]) ∧ rest = []) := by
  have hstage := stopped_cases (identity_after h) hstop
  have hfirst : first <+: ws := ⟨w :: rest, hws.symm⟩
  have hnext : first ++ [w] <+: ws := ⟨rest, by simp [hws]⟩
  rcases states_of_stage hstage with hstates | ⟨before, next, rfl, hstates, _, _⟩
  · have hnil {vs : List Insert} (hpre : vs <+: ws) : stateRows vs = [] :=
      List.prefix_nil.mp (hstates ▸ stateRows_isPrefix hpre)
    exact ⟨visible_of_stage hstage hfirst (hnil hfirst),
      Or.inl (visible_of_stage hstage hnext (hnil hnext))⟩
  · have hnil {vs : List Insert} (hpre : vs <+: before) : stateRows vs = [] :=
      List.prefix_nil.mp (hstates ▸ stateRows_isPrefix hpre)
    rcases List.prefix_concat_iff.mp hnext with heq | hnext'
    · -- the insert is the state itself
      obtain ⟨rfl, hw⟩ := List.append_inj' heq rfl
      obtain ⟨rfl, hrest⟩ : Insert.syncState [next] = w ∧ rest = [] := by simpa using hws
      exact ⟨visible_of_stage hstage hfirst hstates, Or.inr ⟨⟨next, rfl⟩, hrest⟩⟩
    · have hfirst' := (List.prefix_append first [w]).trans hnext'
      exact ⟨visible_of_stage hstage hfirst (hnil hfirst'),
        Or.inl (visible_of_stage hstage hnext (hnil hnext'))⟩

/-- The reservation of a first block is invisible. -/
theorem first_reservation_invisible :
    visible (replay (after .bitcoin [])
      [.blocks [reservation (sampleBlock 5 'a' '9' 3)]]) = visible (after .bitcoin []) := by
  have hws : (((sampleAttempt 5 'a' '9').program .bitcoin).exec (after .bitcoin [])).1 =
      [] ++ .blocks [reservation (sampleBlock 5 'a' '9' 3)] ::
        (((sampleAttempt 5 'a' '9').program .bitcoin).exec (after .bitcoin [])).1.tail := by
    decide +kernel
  have hinvisible := invisible_before_state .nil ⟨sampleAttempt 5 'a' '9', List.prefix_refl _⟩ hws
  exact hinvisible.2.resolve_right fun h => by obtain ⟨⟨_, h⟩, _⟩ := h; cases h

end

end AmlReal.Warehouse.Fence
