import AmlReal.Warehouse.Contents
import AmlReal.Warehouse.Operations

/-! # What an operation may have written when it stopped

One inversion lemma for each function that inserts, and from them one for each
operation: the inserts it had made, and the checks it had passed to make them.
Everything proved about histories starts from `stopped_cases`. -/

namespace AmlReal.Warehouse.Stages
open AmlReal.Foundations.LatestRows AmlReal.Foundations.StoreProgram
open AmlReal.Foundations.StoreProgram.Program
open AmlReal.Foundations.Checks (context_ok forM_ok)
open AmlReal.Warehouse.Values AmlReal.Warehouse.Tables AmlReal.Warehouse.Rules
open AmlReal.Warehouse.Publication AmlReal.Warehouse.Operations AmlReal.Warehouse.Contents
open AmlReal.Bitcoin.Writer

/-! ## Revisions and inserts -/

theorem nextRevision_returns {network : Network} {previous r : Nat} {db : Database}
    {ws : List Insert} (h : Returns (nextRevision network previous) db ws r) :
    ws = [] ∧ r = max previous (writtenRevision network db) + 3 := by
  obtain ⟨first, written, rest, rfl, hread, hrest⟩ := h.bind
  obtain ⟨rfl, rfl⟩ := returns_read hread
  obtain ⟨rfl, hctx⟩ := returns_lift hrest
  exact ⟨rfl, (checkedAdd_eq_some (context_ok hctx)).1⟩

theorem nextRevision_quiet (network : Network) (previous : Nat) :
    Quiet (nextRevision network previous) :=
  (quiet_read _).bind fun _ => quiet_lift _

theorem insertIdentity_quiet (networks : List Network) : Quiet (insertIdentity networks) := by
  cases networks with
  | nil => exact quiet_pure ()
  | cons first rest =>
    refine (quiet_ensure _ _).bind fun _ => ?_
    exact (quiet_read _).bind fun _ => quiet_ensure _ _

theorem insertIdentity_returns {networks : List Network} {db : Database} {ws : List Insert}
    {u : Unit} (h : Returns (insertIdentity networks) db ws u) :
    ∀ n ∈ networks, n = db.identity := by
  cases networks with
  | nil => intro n hn; cases hn
  | cons first rest =>
    obtain ⟨_, _, _, _, hensure, hrest⟩ := h.bind
    obtain ⟨rfl, hsame⟩ := returns_ensure hensure
    obtain ⟨_, _, _, _, hread, hend⟩ := hrest.bind
    obtain ⟨rfl, rfl⟩ := returns_read hread
    obtain ⟨_, hid⟩ := returns_ensure hend
    simp only [replay_nil] at hid
    intro n hn
    rcases List.mem_cons.mp hn with rfl | hn
    · exact hid.symm
    · rw [hsame n hn]; exact hid.symm

section
variable {ρ : Type} {validateRow : ρ → Except String Unit} {networkId : ρ → Network}
  {chunk : List ρ → Insert} {rows : List ρ} {db : Database} {ws : List Insert}

theorem insert_writes (h : Writes (insert validateRow networkId chunk rows) db ws) :
    ws <+: (chunks 1000 rows).map chunk ∧
      (ws = [] ∨ ∀ row ∈ rows, networkId row = db.identity) := by
  rcases writes_lift h with rfl | ⟨_, _, h⟩
  · exact ⟨List.nil_prefix, Or.inl rfl⟩
  rcases writes_quiet (insertIdentity_quiet _) h with rfl | ⟨_, hid, h⟩
  · exact ⟨List.nil_prefix, Or.inl rfl⟩
  refine ⟨writes_forM_write h, Or.inr fun row hrow => ?_⟩
  exact insertIdentity_returns hid _ (List.mem_map_of_mem hrow)

theorem insert_returns {u : Unit} (h : Returns (insert validateRow networkId chunk rows) db ws u) :
    ws = (chunks 1000 rows).map chunk ∧ ∀ row ∈ rows, networkId row = db.identity := by
  obtain ⟨_, _, _, rfl, hvalid, hrest⟩ := h.bind
  obtain ⟨rfl, _⟩ := returns_lift hvalid
  obtain ⟨_, _, _, rfl, hid, hwrite⟩ := hrest.bind
  obtain rfl := (insertIdentity_quiet _).returns hid
  refine ⟨returns_forM_write hwrite, fun row hrow => ?_⟩
  exact insertIdentity_returns hid _ (List.mem_map_of_mem hrow)

end

theorem chunks_singleton {α : Type} (x : α) : chunks 1000 [x] = [[x]] := rfl

/-- What `reserve` has established when it inserts. -/
structure Reserved (block : Block) (db : Database) : Prop where
  identity : block.networkId = db.identity
  canonical : block.canonical = 1
  complete : block.ingestionStatus = .complete

theorem reserve_writes {block : Block} {db : Database} {ws : List Insert}
    (h : Writes (reserve block) db ws) :
    ws = [] ∨ (ws = [.blocks [reservation block]] ∧ Reserved block db) := by
  rcases writes_ensure h with rfl | ⟨hshape, h⟩
  · exact Or.inl rfl
  rcases writes_quiet ((quiet_read _).bind fun _ => quiet_ensure _ _) h with rfl | ⟨_, _, h⟩
  · exact Or.inl rfl
  obtain ⟨hpre, hid⟩ := insert_writes h
  rcases List.prefix_cons_iff.mp hpre with rfl | ⟨rest, rfl, hrest⟩
  · exact Or.inl rfl
  · obtain rfl := List.prefix_nil.mp hrest
    have hnetwork := hid.resolve_left (List.cons_ne_nil _ _) (reservation block) (by simp)
    exact Or.inr ⟨rfl, hnetwork, hshape.2.1, hshape.2.2⟩

theorem reserve_returns {block : Block} {db : Database} {ws : List Insert} {u : Unit}
    (h : Returns (reserve block) db ws u) :
    ws = [.blocks [reservation block]] ∧ Reserved block db := by
  have hwrites := reserve_writes h.writes
  obtain ⟨_, _, _, rfl, hensure, hrest⟩ := h.bind
  obtain ⟨rfl, _⟩ := returns_ensure hensure
  obtain ⟨_, _, _, rfl, hid, hinsert⟩ := hrest.bind
  obtain rfl := Quiet.returns ((quiet_read _).bind fun _ => quiet_ensure _ _) hid
  obtain ⟨rfl, _⟩ := insert_returns hinsert
  exact hwrites.resolve_left (List.cons_ne_nil _ _)

/-! ## The facts of a block -/

/-- The row repeats the block's whole header. -/
def HasHeader (block : Block) (row : FactRow) : Prop :=
  row.ofBlock block = true ∧ row.blockTimestampUnixMs = block.blockTimestampUnixMs

theorem matchHeader_ok {error : String} {block : Block} {row : FactRow}
    (h : matchHeader error block row = .ok ()) : HasHeader block row := by
  unfold matchHeader at h
  simp only [Bind.bind, Except.bind] at h
  repeat' split at h
  all_goals simp_all [HasHeader, FactRow.ofBlock]

/-- The chunks of a batch in the order they are sent. -/
def factInserts (tables : List (FactTable × List FactRow)) : List Insert :=
  tables.flatMap fun t => (chunks 1000 t.2).map (.facts t.1)

theorem factInserts_cons (table : FactTable) (rows : List FactRow)
    (rest : List (FactTable × List FactRow)) : factInserts ((table, rows) :: rest) =
      (chunks 1000 rows).map (.facts table) ++ factInserts rest := List.flatMap_cons

@[simp] theorem blockRows_factInserts (tables : List (FactTable × List FactRow)) :
    blockRows (factInserts tables) = [] := by
  induction tables with
  | nil => rfl
  | cons t rest ih => rw [factInserts_cons]; simp [ih]

@[simp] theorem stateRows_factInserts (tables : List (FactTable × List FactRow)) :
    stateRows (factInserts tables) = [] := by
  induction tables with
  | nil => rfl
  | cons t rest ih => rw [factInserts_cons]; simp [ih]

@[simp] theorem factRows_factInserts (tables : List (FactTable × List FactRow)) :
    factRows (factInserts tables) = tables.flatMap fun t => t.2.map (t.1, ·) := by
  induction tables with
  | nil => rfl
  | cons t rest ih =>
    rw [factInserts_cons, factRows_append, factRows_chunks, chunks_flatten (by omega), ih]; rfl

theorem facts_returns {block : Block} {table : FactTable} {rows : List FactRow} {db : Database}
    {ws : List Insert} {u : Unit} (h : Returns (facts block table rows) db ws u) :
    ws = (chunks 1000 rows).map (.facts table) ∧ ∀ row ∈ rows, HasHeader block row := by
  obtain ⟨_, _, _, rfl, hmatch, hinsert⟩ := h.bind
  obtain ⟨rfl, hok⟩ := returns_lift hmatch
  exact ⟨(insert_returns hinsert).1, fun row hrow => matchHeader_ok (forM_ok hok row hrow)⟩

theorem facts_writes {block : Block} {table : FactTable} {rows : List FactRow} {db : Database}
    {ws : List Insert} (h : Writes (facts block table rows) db ws) :
    ws <+: (chunks 1000 rows).map (.facts table) ∧ ∀ f ∈ factRows ws, HasHeader block f.2 := by
  rcases writes_lift h with rfl | ⟨_, hok, hinsert⟩
  · exact ⟨List.nil_prefix, by simp⟩
  have hpre := (insert_writes hinsert).1
  refine ⟨hpre, fun f hf => ?_⟩
  have hmem := (factRows_isPrefix hpre).subset hf
  rw [factRows_chunks, chunks_flatten (by omega)] at hmem
  obtain ⟨row, hrow, rfl⟩ := List.mem_map.mp hmem
  exact matchHeader_ok (forM_ok hok row hrow)

section
variable {block : Block} {tables : List (FactTable × List FactRow)} {db : Database}
  {ws : List Insert}

theorem factTables_returns {u : Unit}
    (h : Returns (tables.forM fun (table, rows) => facts block table rows) db ws u) :
    ws = factInserts tables ∧ ∀ f ∈ factRows ws, HasHeader block f.2 := by
  induction tables generalizing db ws with
  | nil => obtain ⟨rfl, _⟩ := returns_pure h; exact ⟨rfl, by simp⟩
  | cons t rest ih =>
    obtain ⟨first, _, last, rfl, hfirst, hlast⟩ := h.bind
    have hheader := (facts_writes hfirst.writes).2
    obtain ⟨rfl, _⟩ := facts_returns hfirst
    obtain ⟨rfl, hrest⟩ := ih hlast
    refine ⟨(factInserts_cons ..).symm, fun f hf => ?_⟩
    rw [factRows_append] at hf
    exact (List.mem_append.mp hf).elim (hheader f) (hrest f)

theorem factTables_writes
    (h : Writes (tables.forM fun (table, rows) => facts block table rows) db ws) :
    ws <+: factInserts tables ∧ ∀ f ∈ factRows ws, HasHeader block f.2 := by
  induction tables generalizing db ws with
  | nil => exact ⟨h, by rw [writes_pure h]; simp⟩
  | cons t rest ih =>
    rw [factInserts_cons]
    rcases h.bind with hfirst | ⟨first, _, last, rfl, hfirst, hlast⟩
    · obtain ⟨hpre, hheader⟩ := facts_writes hfirst
      exact ⟨hpre.trans (List.prefix_append ..), hheader⟩
    · have hheader := (facts_writes hfirst.writes).2
      obtain ⟨rfl, _⟩ := facts_returns hfirst
      obtain ⟨hpre, hrest⟩ := ih hlast
      refine ⟨(List.prefix_append_right_inj _).mpr hpre, fun f hf => ?_⟩
      rw [factRows_append] at hf
      exact (List.mem_append.mp hf).elim (hheader f) (hrest f)

end

/-! ## The complete marker -/

/-- Every table holds as many facts of the block as its count says. -/
def Counted (block : Block) (counts : List (FactTable × Nat)) (db : Database) : Prop :=
  ∀ c ∈ counts, factCount block c.1 db = c.2

section
variable {block : Block} {counts : List (FactTable × Nat)} {db : Database} {ws : List Insert}

theorem countCheck_quiet (block : Block) (c : FactTable × Nat) :
    Quiet (do
      let actual ← read (factCount block c.1)
      ensure (actual = c.2) s!"incomplete core commit: {c.1.name}" : Writer Unit) :=
  (quiet_read _).bind fun _ => quiet_ensure _ _

theorem countChecks_returns {u : Unit} (h : Returns (counts.forM fun (table, expected) => do
      let actual ← read (factCount block table)
      ensure (actual = expected) s!"incomplete core commit: {table.name}" : Writer Unit) db ws u) :
    ws = [] ∧ Counted block counts db := by
  refine ⟨(Quiet.forM (countCheck_quiet block) counts).returns h, fun c hc => ?_⟩
  obtain ⟨_, _, _, hnil, hread, hrest⟩ := (returns_forM_mem (countCheck_quiet block) h c hc).bind
  obtain ⟨rfl, rfl⟩ := returns_read hread
  exact (returns_ensure hrest).2

theorem complete_writes (h : Writes (complete block counts) db ws) :
    ws = [] ∨ (ws = [.blocks [blockRow block counts]] ∧ Counted block counts db) := by
  rcases writes_ensure h with rfl | ⟨_, h⟩
  · exact Or.inl rfl
  rcases writes_ensure h with rfl | ⟨_, h⟩
  · exact Or.inl rfl
  rcases writes_lift h with rfl | ⟨_, _, h⟩
  · exact Or.inl rfl
  rcases writes_quiet (Quiet.forM (countCheck_quiet block) counts) h with rfl | ⟨_, hcounts, h⟩
  · exact Or.inl rfl
  rcases List.prefix_cons_iff.mp (insert_writes h).1 with rfl | ⟨rest, rfl, hrest⟩
  · exact Or.inl rfl
  · obtain rfl := List.prefix_nil.mp hrest
    exact Or.inr ⟨rfl, (countChecks_returns hcounts).2⟩

theorem complete_returns {u : Unit} (h : Returns (complete block counts) db ws u) :
    ws = [.blocks [blockRow block counts]] ∧ Counted block counts db := by
  have hwrites := complete_writes h.writes
  obtain ⟨_, _, _, rfl, hensure, h⟩ := h.bind
  obtain ⟨rfl, _⟩ := returns_ensure hensure
  obtain ⟨_, _, _, rfl, hensure, h⟩ := h.bind
  obtain ⟨rfl, _⟩ := returns_ensure hensure
  obtain ⟨_, _, _, rfl, hvalid, h⟩ := h.bind
  obtain ⟨rfl, _⟩ := returns_lift hvalid
  obtain ⟨_, _, _, rfl, hcounts, hinsert⟩ := h.bind
  obtain ⟨rfl, _⟩ := countChecks_returns hcounts
  obtain ⟨rfl, _⟩ := insert_returns hinsert
  rcases hwrites with hnil | h
  · cases hnil
  · exact h

end

/-! ## The publication fence -/

/-- What `checkTip` has established when it returns. -/
structure TipChecked (network : Network) (previous next : State) (db : Database) : Prop where
  range : next.startBlock ≤ next.lastBlockNumber
  found : ∃ block, newestRow network next.lastBlockNumber next.revision
      (if isRollback previous next then ingestedBlocksCanonical db else db.ingestedBlocks) =
        some block ∧ block.blockHash = next.lastBlockHash ∧ block.canonical = 1 ∧
      block.ingestionStatus = .complete ∧
      (isRollback previous next = false → (previous.initialized = 0 ∨
        next.lastBlockNumber > previous.lastBlockNumber) → block.revision = next.revision)

/-- What `publish` has established before its first insert. -/
structure PublishChecked (network : Network) (previous next : State) (db : Database) : Prop where
  sameNetwork : next.networkId = network
  identity : db.identity = network
  revision : previous.revision < next.revision
  current : currentState network db = previous
  flag : next.initialized ≤ 1
  previousFlag : previous.initialized ≤ 1
  range : checkRange previous next = .ok ()
  tip : next.initialized = 1 → TipChecked network previous next db

/-- The tombstone chunks that a publication inserts before its state. -/
def tombstoneInserts (network : Network) (previous next : State) (db : Database) : List Insert :=
  if isRollback previous next then
    (chunks 1000 ((orphanedRows network next db).map (tombstone next))).map .blocks
  else []

section
variable {network : Network} {previous next : State} {db : Database} {ws : List Insert}

theorem checkTip_quiet (network : Network) (previous next : State) :
    Quiet (checkTip network previous next) := by
  refine (quiet_ensure _ _).bind fun _ => (quiet_read _).bind fun _ => ?_
  refine (quiet_lift _).bind fun _ => (quiet_ensure _ _).bind fun _ => ?_
  exact Quiet.when ((quiet_ensure _ _).bind fun _ => quiet_ensure _ _) _

theorem checkTip_returns {u : Unit} (h : Returns (checkTip network previous next) db ws u) :
    TipChecked network previous next db := by
  obtain ⟨_, _, _, _, hensure, h⟩ := h.bind
  obtain ⟨rfl, hrange⟩ := returns_ensure hensure
  obtain ⟨_, _, _, _, hread, h⟩ := h.bind
  obtain ⟨rfl, rfl⟩ := returns_read hread
  obtain ⟨_, block, _, _, hfound, h⟩ := h.bind
  obtain ⟨rfl, hctx⟩ := returns_lift hfound
  obtain ⟨_, _, _, _, hensure, h⟩ := h.bind
  obtain ⟨rfl, hshape⟩ := returns_ensure hensure
  refine ⟨hrange, block, context_ok hctx, hshape.1, hshape.2.1, hshape.2.2, fun hforward hnew => ?_⟩
  rcases returns_when h with ⟨_, h⟩ | ⟨hskip, _⟩
  · obtain ⟨_, _, _, _, hensure, _⟩ := h.bind
    exact (returns_ensure hensure).2
  · exact absurd (by simpa [hforward] using hnew) hskip

theorem mem_orphanedRows {row : BlockRow} (h : row ∈ orphanedRows network next db) :
    row ∈ ingestedBlocksCanonical db ∧ row.networkId = network ∧
      (next.initialized = 1 → next.lastBlockNumber < row.blockNumber) := by
  unfold orphanedRows at h
  rw [List.mem_insertionSort, List.mem_filter] at h
  refine ⟨h.1, ?_⟩
  have := h.2
  rw [decide_eq_true_eq] at this
  exact this

/-- Within the bound the query reads the whole suffix. -/
theorem take_orphanedRows (h : ((orphanedRows network next db).take 10001).length ≤ 10000) :
    (orphanedRows network next db).take 10001 = orphanedRows network next db := by
  rw [List.length_take] at h
  exact List.take_of_length_le (by omega)

theorem orphanSuffix_writes (h : Writes (orphanSuffix network previous next) db ws) :
    ws <+: (chunks 1000 ((orphanedRows network next db).map (tombstone next))).map .blocks ∧
      (ws = [] ∨ db.identity = network) := by
  have h := writes_read h
  rcases writes_ensure h with rfl | ⟨hbound, h⟩
  · exact ⟨List.nil_prefix, Or.inl rfl⟩
  rw [take_orphanedRows hbound] at h
  rcases writes_lift h with rfl | ⟨_, _, h⟩
  · exact ⟨List.nil_prefix, Or.inl rfl⟩
  rcases writes_ensure h with rfl | ⟨_, h⟩
  · exact ⟨List.nil_prefix, Or.inl rfl⟩
  obtain ⟨hpre, hid⟩ := insert_writes h
  refine ⟨hpre, hid.elim Or.inl fun hid => ?_⟩
  cases hrows : orphanedRows network next db with
  | nil => rw [hrows] at hpre; exact Or.inl (List.prefix_nil.mp hpre)
  | cons row rest =>
    have hmem : row ∈ orphanedRows network next db := by simp [hrows]
    rw [← hid (tombstone next row) (List.mem_map_of_mem hmem)]
    exact Or.inr (mem_orphanedRows hmem).2.1

theorem orphanSuffix_returns {u : Unit} (h : Returns (orphanSuffix network previous next) db ws u) :
    ws = (chunks 1000 ((orphanedRows network next db).map (tombstone next))).map .blocks := by
  obtain ⟨_, _, _, rfl, hread, h⟩ := h.bind
  obtain ⟨rfl, rfl⟩ := returns_read hread
  obtain ⟨_, _, _, rfl, hensure, h⟩ := h.bind
  obtain ⟨rfl, hbound⟩ := returns_ensure hensure
  rw [take_orphanedRows hbound] at h
  obtain ⟨_, _, _, rfl, hvalid, h⟩ := h.bind
  obtain ⟨rfl, _⟩ := returns_lift hvalid
  obtain ⟨_, _, _, rfl, hensure, h⟩ := h.bind
  obtain ⟨rfl, _⟩ := returns_ensure hensure
  exact (insert_returns h).1

/-- The tombstones of a publication, when it is a rollback. -/
theorem suffix_writes (h : Writes (Program.when (isRollback previous next)
      (orphanSuffix network previous next)) db ws) :
    ws <+: tombstoneInserts network previous next db ∧ (ws = [] ∨ db.identity = network) := by
  unfold tombstoneInserts
  rcases writes_when h with ⟨hroll, h⟩ | ⟨hroll, rfl⟩
  · rw [if_pos hroll]; exact orphanSuffix_writes h
  · exact ⟨List.nil_prefix, Or.inl rfl⟩

theorem suffix_returns {u : Unit} (h : Returns (Program.when (isRollback previous next)
      (orphanSuffix network previous next)) db ws u) :
    ws = tombstoneInserts network previous next db := by
  unfold tombstoneInserts
  rcases returns_when h with ⟨hroll, h⟩ | ⟨hroll, rfl⟩
  · rw [if_pos hroll]; exact orphanSuffix_returns h
  · rw [if_neg hroll]

theorem publish_writes (h : Writes (publish network previous next) db ws) :
    ws = [] ∨ PublishChecked network previous next db ∧
      ws <+: tombstoneInserts network previous next db ++ [.syncState [next]] := by
  by_cases hne : ws = []
  · exact Or.inl hne
  right
  obtain ⟨hnetworks, h⟩ := (writes_ensure h).resolve_left hne
  obtain ⟨hrevision, h⟩ := (writes_ensure h).resolve_left hne
  have h := writes_read h
  obtain ⟨hcurrent, h⟩ := (writes_ensure h).resolve_left hne
  obtain ⟨_, hprevious, h⟩ := (writes_lift h).resolve_left hne
  obtain ⟨_, _, h⟩ := (writes_lift h).resolve_left hne
  obtain ⟨⟨⟩, hrange, h⟩ := (writes_lift h).resolve_left hne
  obtain ⟨_, htip, h⟩ := (writes_quiet ((checkTip_quiet network previous next).when _) h).resolve_left hne
  have hchecked (hid : db.identity = network) : PublishChecked network previous next db :=
    { sameNetwork := hnetworks.1
      identity := hid
      revision := hrevision.1
      current := hcurrent
      flag := hrevision.2
      previousFlag := (snapshotFromState_ok hprevious).2.1
      range := hrange
      tip := fun hinit => by
        rcases returns_when htip with ⟨_, htip⟩ | ⟨hskip, _⟩
        · exact checkTip_returns htip
        · exact absurd hinit hskip }
  rcases h.bind with h | ⟨first, _, rest, rfl, hfirst, h⟩
  · obtain ⟨hpre, hid⟩ := suffix_writes h
    exact ⟨hchecked (hid.resolve_left hne), hpre.trans (List.prefix_append ..)⟩
  · obtain ⟨_, hid⟩ := suffix_writes hfirst.writes
    obtain rfl := suffix_returns hfirst
    by_cases hrest : rest = []
    · subst hrest
      simp only [List.append_nil] at hne ⊢
      exact ⟨hchecked (hid.resolve_left hne), List.prefix_append ..⟩
    have h := writes_read h
    obtain ⟨_, h⟩ := (writes_ensure h).resolve_left hrest
    obtain ⟨hpre, hstate⟩ := insert_writes h
    refine ⟨hchecked ?_, (List.prefix_append_right_inj _).mpr hpre⟩
    have := hstate.resolve_left hrest next (by simp)
    rw [hnetworks.1, replay_identity] at this
    exact this.symm

end

end AmlReal.Warehouse.Stages
