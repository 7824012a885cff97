import Mathlib.Data.List.Pairwise
import Mathlib.Data.List.Perm.Subperm
import AmlReal.Warehouse.CanonicalChain

/-! # Whose facts are visible

Operations never share a row revision, so the header of a canonical block names
the one attempt that wrote its complete marker. The facts visible under that
header are that attempt's facts, as many as its marker counted. -/

namespace AmlReal.Warehouse.Attribution
open AmlReal.Foundations.LatestRows AmlReal.Foundations.StoreProgram
open AmlReal.Foundations.StoreProgram.Program
open AmlReal.Warehouse.Values AmlReal.Warehouse.Tables AmlReal.Warehouse.Publication
open AmlReal.Warehouse.Operations AmlReal.Warehouse.Contents AmlReal.Warehouse.Stages
open AmlReal.Warehouse.Attempts AmlReal.Warehouse.Fence AmlReal.Warehouse.Reachable
open AmlReal.Warehouse.CanonicalChain

/-- The revisions of the reservations, markers, tombstones and facts among `ws`. -/
def rowRevisions (ws : List Insert) : List Nat :=
  (blockRows ws).map (fun b => b.revision) ++ (factRows ws).map factRevision

/-- The facts of one table among `ws`. -/
def writtenFacts (table : FactTable) (ws : List Insert) : List (FactTable × FactRow) :=
  (factRows ws).filter fun f => f.1 = table

/-- The canonical facts of one table under a block's header. -/
def visibleFacts (table : FactTable) (b : BlockRow) (db : Database) :
    List (FactTable × FactRow) :=
  (factsCanonical db table).filter fun f => f.2.ofBlock b.toBlock

/-- `ws` is a whole attempt: it wrote the complete marker `b` over its facts
and published it. -/
structure Finishes (ws : List Insert) (b : BlockRow) : Prop where
  marker : b ∈ blockRows ws
  published : ∃ next, .syncState [next] ∈ ws
  headers : ∀ f ∈ factRows ws, HasHeader b.toBlock f.2
  keys : ∀ table, ((writtenFacts table ws).map factKey).Nodup
  counts : ∀ table, (writtenFacts table ws).length = (b.expectedCounts.lookup table).getD 0

section
variable {network : Network} {db : Database} {ws : List Insert} {history : List (List Insert)}

/-! ## Revisions -/

theorem mem_rowRevisions {r : Nat} : r ∈ rowRevisions ws ↔
    (∃ b ∈ blockRows ws, b.revision = r) ∨ ∃ f ∈ factRows ws, f.2.revision = r := by
  simp [rowRevisions, factRevision]

theorem new_revision (h : Stage network db ws) {r : Nat} (hr : r ∈ rowRevisions ws) :
    writtenRevision network db + 1 < r := by
  rcases mem_rowRevisions.mp hr with ⟨b, hb, rfl⟩ | ⟨f, hf, rfl⟩
  · exact (newBlock_of_stage h hb).written
  · exact (Nat.lt_succ_self _).trans (newFact_of_stage h hf).written

theorem blockRows_of_mem (hws : ws ∈ history) {b : BlockRow} (hb : b ∈ blockRows ws) :
    b ∈ (after network history).ingestedBlocks := by
  unfold after
  rw [replay_ingestedBlocks]
  refine List.mem_append_right _ (List.mem_flatMap.mpr ?_)
  obtain ⟨w, hw, hb⟩ := List.mem_flatMap.mp hb
  exact ⟨w, List.mem_flatten.mpr ⟨ws, hws, hw⟩, hb⟩

theorem factRows_of_mem (hws : ws ∈ history) {f : FactTable × FactRow} (hf : f ∈ factRows ws) :
    f ∈ (after network history).facts := by
  unfold after
  rw [replay_facts]
  refine List.mem_append_right _ (List.mem_flatMap.mpr ?_)
  obtain ⟨w, hw, hf⟩ := List.mem_flatMap.mp hf
  exact ⟨w, List.mem_flatten.mpr ⟨ws, hws, hw⟩, hf⟩

theorem exists_factRows {f : FactTable × FactRow} (hf : f ∈ (after network history).facts) :
    ∃ ws ∈ history, f ∈ factRows ws := by
  unfold after at hf
  rw [replay_facts] at hf
  rcases List.mem_append.mp hf with hf | hf
  · cases hf
  obtain ⟨w, hw, hf⟩ := List.mem_flatMap.mp hf
  obtain ⟨ws, hws, hw⟩ := List.mem_flatten.mp hw
  exact ⟨ws, hws, List.mem_flatMap.mpr ⟨w, hw, hf⟩⟩

/-- Every row of a later operation is above every row of an earlier one. -/
theorem revisions_separate (h : Histories network history) :
    history.Pairwise fun earlier later =>
      ∀ r ∈ rowRevisions earlier, ∀ r' ∈ rowRevisions later, r < r' := by
  induction h with
  | nil => exact List.Pairwise.nil
  | @concat history ws hhistory hstop ih =>
    have hs := sound_after hhistory
    rw [List.pairwise_append]
    refine ⟨ih, List.pairwise_singleton .., fun earlier hearlier later hlater r hr r' hr' => ?_⟩
    obtain rfl := List.mem_singleton.mp hlater
    have hnew := new_revision (stopped_cases hs.identity hstop) hr'
    rcases mem_rowRevisions.mp hr with ⟨b, hb, rfl⟩ | ⟨f, hf, rfl⟩
    · have := hs.le_written (blockRows_of_mem hearlier hb); omega
    · have := hs.fact_le_written (factRows_of_mem hearlier hf); omega

/-- Operations that share a row revision are one operation. -/
theorem eq_of_revision (h : Histories network history) {ws' : List Insert} (hws : ws ∈ history)
    (hws' : ws' ∈ history) {r : Nat} (hr : r ∈ rowRevisions ws) (hr' : r ∈ rowRevisions ws') :
    ws = ws' := by
  have hdistinct : history.Pairwise fun a b => ∀ r ∈ rowRevisions a, ∀ r' ∈ rowRevisions b, r ≠ r' :=
    (revisions_separate h).imp fun hlt r hr r' hr' => (hlt r hr r' hr').ne
  have : Std.Symm fun a b : List Insert =>
      ∀ r ∈ rowRevisions a, ∀ r' ∈ rowRevisions b, r ≠ r' :=
    ⟨fun _ _ hab r hr r' hr' => (hab r' hr' r hr).symm⟩
  by_contra hne
  exact hdistinct.forall hws hws' hne r hr r hr' rfl

/-- Every operation of a history began on a sound warehouse. -/
theorem stage_of_mem (h : Histories network history) (hws : ws ∈ history) :
    ∃ db, Sound network db ∧ Stage network db ws := by
  induction h with
  | nil => cases hws
  | @concat history last hhistory hstop ih =>
    rcases List.mem_append.mp hws with hws | hws
    · exact ih hws
    · obtain rfl := List.mem_singleton.mp hws
      have hs := sound_after hhistory
      exact ⟨_, hs, stopped_cases hs.identity hstop⟩

/-! ## The facts of a complete marker -/

theorem filter_tables {tables : List (FactTable × List FactRow)}
    (hnodup : (tables.map Prod.fst).Nodup) (table : FactTable) :
    (tables.flatMap fun t => t.2.map (t.1, ·)).filter (fun f => f.1 = table) =
      ((tables.lookup table).getD []).map (table, ·) := by
  induction tables with
  | nil => rfl
  | cons t rest ih =>
    obtain ⟨name, rows⟩ := t
    obtain ⟨hnew, hrest⟩ := List.nodup_cons.mp hnodup
    rw [List.flatMap_cons, List.filter_append, ih hrest, List.lookup_cons]
    by_cases heq : table = name
    · subst heq
      have hnone : rest.lookup table = none := by
        rw [List.lookup_eq_none_iff]
        intro p hp
        rw [bne_iff_ne]
        rintro rfl
        exact hnew (List.mem_map.mpr ⟨p, hp, rfl⟩)
      have hfilter : (rows.map (table, ·)).filter (fun f => f.1 = table) = rows.map (table, ·) := by
        rw [List.filter_eq_self]
        rintro f hf
        obtain ⟨row, _, rfl⟩ := List.mem_map.mp hf
        simp
      rw [hfilter, hnone, beq_self_eq_true]
      simp
    · have hfilter : (rows.map (name, ·)).filter (fun f => f.1 = table) = [] := by
        simp [List.filter_map, Ne.symm heq]
      rw [hfilter, beq_false_of_ne heq, List.nil_append]

theorem writtenFacts_started (block : Block) (batch : FactBatch) (table : FactTable) :
    writtenFacts table (started block batch) =
      ((batch.tables.lookup table).getD []).map (table, ·) := by
  rw [← filter_tables batch.nodup]
  simp [writtenFacts, started, Insert.factRows]

theorem lookup_counts (batch : FactBatch) (table : FactTable) :
    batch.counts.lookup table = (batch.tables.lookup table).map List.length := by
  unfold FactBatch.counts
  induction batch.tables with
  | nil => rfl
  | cons t rest ih =>
    rw [List.map_cons, List.lookup_cons, List.lookup_cons, ih]
    split <;> rfl

theorem mem_of_lookup {α β : Type} [BEq α] [LawfulBEq α] {l : List (α × β)} {a : α} {b : β}
    (h : l.lookup a = some b) : (a, b) ∈ l := by
  obtain ⟨l₁, l₂, rfl, _⟩ := List.lookup_eq_some_iff.mp h
  simp

/-- A table passes the count of the marker only if its facts have distinct keys. -/
theorem counted_facts (hs : Sound network db) {block : Block} {batch : FactBatch}
    (hattempt : Attempt network db block)
    (hcounted : Counted block batch.counts (replay db (started block batch)))
    (table : FactTable) :
    ((writtenFacts table (started block batch)).map factKey).Nodup ∧
      (writtenFacts table (started block batch)).length =
        (batch.counts.lookup table).getD 0 := by
  rw [lookup_counts]
  cases hlookup : batch.tables.lookup table with
  | none => rw [writtenFacts_started, hlookup]; simp
  | some rows =>
    have hwritten := writtenFacts_started block batch table
    rw [hlookup, Option.getD_some] at hwritten
    have hlength : (writtenFacts table (started block batch)).length = rows.length := by
      rw [hwritten, List.length_map]
    refine ⟨?_, hlength⟩
    have hcount := hcounted (table, rows.length) (mem_of_lookup (by
      rw [lookup_counts, hlookup]; rfl))
    unfold factCount at hcount
    generalize hread : (factsFinal (replay db (started block batch))).filter
      (fun f => f.1 = table ∧ f.2.ofBlock block) = read at hcount
    have hkeys : (read.map factKey).Nodup := by
      rw [← hread]
      exact (latest_keys_nodup _).sublist (List.filter_sublist.map factKey)
    -- what is read under the header was written by this attempt
    have hsubset : read ⊆ writtenFacts table (started block batch) := by
      intro f hf
      rw [← hread, List.mem_filter, decide_eq_true_eq] at hf
      obtain ⟨hmem, htable, hof⟩ := hf
      have hmem := mem_of_mem_latest hmem
      rw [replay_facts] at hmem
      refine List.mem_filter.mpr ⟨?_, by simpa using htable⟩
      rcases List.mem_append.mp hmem with hold | hnew
      · have hle := hs.fact_le_written hold
        have := hattempt.fresh.written
        unfold FactRow.ofBlock at hof
        rw [decide_eq_true_eq] at hof
        omega
      · exact hnew
    have hperm : read.Perm (writtenFacts table (started block batch)) :=
      (hkeys.of_map.subperm hsubset).perm_of_length_le (by rw [hlength, hcount])
    exact (hperm.map factKey).nodup hkeys

/-! ## The attempt behind a canonical block -/

theorem finishes_forward (hs : Sound network db) {block : Block} {batch : FactBatch} {next : State}
    (hattempt : Attempt network db block)
    (hheaders : ∀ f ∈ factRows (started block batch), HasHeader block f.2)
    (hcounted : Counted block batch.counts (replay db (started block batch))) :
    Finishes (marked block batch ++ [.syncState [next]]) (blockRow block batch.counts) := by
  have hrows : factRows (marked block batch ++ [.syncState [next]]) =
      factRows (started block batch) := by simp [Insert.factRows]
  have hwritten (table : FactTable) : writtenFacts table (marked block batch ++ [.syncState [next]]) =
      writtenFacts table (started block batch) := by unfold writtenFacts; rw [hrows]
  exact {
    marker := by simp
    published := ⟨next, by simp⟩
    headers := fun f hf => hheaders f (hrows ▸ hf)
    keys := fun table => hwritten table ▸ (counted_facts hs hattempt hcounted table).1
    counts := fun table => hwritten table ▸ (counted_facts hs hattempt hcounted table).2 }

/-- A published row that an operation left readable was readable before. -/
theorem latest_before (hs : Sound network db) (hstage : Stage network db ws) {next : State}
    (hadvance : Advance network db ws next) {b : BlockRow}
    (hb : b ∈ latest BlockRow.height (fun b => b.revision) (fenced (replay db ws)))
    (hmem : b ∈ db.ingestedBlocks) (hcomplete : b.ingestionStatus = .complete)
    (hinit : (currentState network db).initialized = 1)
    (hstart : next.startBlock = (currentState network db).startBlock)
    (hlast : b.blockNumber ≤ (currentState network db).lastBlockNumber) :
    b ∈ latest BlockRow.height (fun b => b.revision) (fenced db) := by
  have hn := hs.networks b hmem
  have hpublished := (mem_fenced.mp (mem_of_mem_latest hb)).2
  rw [hn, hadvance.current] at hpublished
  have hfence : b.revision ≤ (currentState network db).revision := by
    by_contra hlt
    rw [hs.pending hinit b hmem (by omega) hlast] at hcomplete
    cases hcomplete
  have hfresh := hadvance.fresh.written
  -- a newer row at the height would have been read instead
  have hnewer {r : BlockRow} (hr : r ∈ db.ingestedBlocks ++ blockRows ws)
      (hheight : r.blockNumber = b.blockNumber) (hle : r.revision ≤ next.revision)
      (hnetwork : r.networkId = network) : r.revision ≤ (currentState network db).revision := by
    have hrfenced : r ∈ fenced (replay db ws) := by
      refine mem_fenced.mpr ⟨by rw [replay_ingestedBlocks]; exact hr, ?_⟩
      rw [hnetwork, hadvance.current]
      exact ⟨hpublished.initialized, hle, hheight ▸ hpublished.start, hheight ▸ hpublished.last⟩
    have hkey : r.height = b.height := Prod.ext (hnetwork.trans hn.symm) hheight
    have hread := latest_greatest hb hrfenced hkey
    exact hread.trans hfence
  refine (latest_at hs hadvance.current hinit hpublished.initialized (hstart ▸ hpublished.start)
    hlast hpublished.start hpublished.last ?_ ?_ ?_ (Prod.ext hn rfl)).mp hb
  · have := hadvance.fresh.fence; omega
  · intro r hr hheight
    have := hs.le_written hr
    exact hnewer (List.mem_append_left _ hr) hheight (by omega) (hs.networks r hr)
  · intro r hr hheight
    have hnew := newBlock_of_stage hstage hr
    have := hnewer (List.mem_append_right _ hr) hheight (hadvance.blocks r hr) hnew.sameNetwork
    have := hnew.fence
    omega

/-- A canonical row after an operation is the marker that it published, or was
readable before it. -/
theorem canonical_step (hs : Sound network db) (hstage : Stage network db ws) {b : BlockRow}
    (hb : b ∈ latest BlockRow.height (fun b => b.revision) (fenced (replay db ws)))
    (hcanonical : b.canonical = 1) (hcomplete : b.ingestionStatus = .complete) :
    b ∈ latest BlockRow.height (fun b => b.revision) (fenced db) ∨ Finishes ws b := by
  have hkept (hstates : stateRows ws = []) :
      b ∈ latest BlockRow.height (fun b => b.revision) (fenced db) ∨ Finishes ws b := by
    rw [fenced_frame (fun b hb => newBlock_of_stage hstage hb) hstates] at hb
    exact Or.inl hb
  have hfenced := mem_fenced.mp (mem_of_mem_latest hb)
  have hrow := hfenced.1
  have hpublished := hfenced.2
  rw [(hs.step hstage).networks b hrow] at hpublished
  rw [replay_ingestedBlocks] at hrow
  cases hstage with
  | idle => exact hkept rfl
  | facts attempt writes headers =>
    exact hkept (List.prefix_nil.mp (by simpa using stateRows_isPrefix writes))
  | marker attempt headers counted => exact hkept (stateRows_marked ..)
  | @forward block batch next attempt headers counted follows =>
    have hadvance := advance_forward attempt headers follows
    rcases List.mem_append.mp hrow with hrow | hrow
    · left
      rw [hadvance.current] at hpublished
      have hlt : b.blockNumber < block.blockNumber := by
        have hle := hpublished.last
        rw [follows.lastBlockNumber] at hle
        refine Nat.lt_of_le_of_ne hle fun heq => ?_
        -- the marker of this attempt is newer
        have hmarker : blockRow block batch.counts ∈ ingestedBlocksCanonical _ :=
          marker_canonical hs attempt follows (hpublished.start.trans hpublished.last)
        have hmem := mem_of_mem_latest (mem_canonical.mp hmarker).1
        have hkey : (blockRow block batch.counts).height = b.height :=
          Prod.ext (attempt.sameNetwork.trans (hs.networks b hrow).symm) heq.symm
        have hread := latest_greatest hb hmem hkey
        change block.revision ≤ b.revision at hread
        have := hs.le_written hrow
        have := attempt.fresh.written
        omega
      have hnextStart := follows.startBlock
      have hstart := hpublished.start
      split at hnextStart
      · rename_i hinit
        have := (attempt.contiguous hinit).1
        exact latest_before hs (.forward attempt headers counted follows) hadvance hb hrow hcomplete
          hinit hnextStart (by omega)
      · omega
    · right
      rw [blockRows_append, blockRows_marked] at hrow
      simp only [blockRows_cons, Insert.blockRows, blockRows_nil, List.append_nil] at hrow
      rcases List.mem_pair.mp hrow with rfl | rfl
      · cases hcanonical
      · exact finishes_forward hs attempt headers counted
  | tombstones fresh checked writes =>
    exact hkept (List.prefix_nil.mp (by simpa using stateRows_isPrefix writes))
  | @publication next fresh checked =>
    have hadvance := advance_publication fresh checked
    rcases List.mem_append.mp hrow with hrow | hrow
    · left
      rw [hadvance.current] at hpublished
      obtain ⟨hinit, hlast⟩ := publication_keeps hs fresh checked hpublished.initialized
      exact latest_before hs (.publication fresh checked) hadvance hb hrow hcomplete hinit
        (checkRange_ok checked.range hinit hpublished.initialized).1 (hpublished.last.trans hlast)
    · rw [blockRows_append] at hrow
      simp only [blockRows_cons, Insert.blockRows, blockRows_nil, List.append_nil] at hrow
      obtain ⟨row, _, rfl⟩ := mem_tombstoneInserts hrow
      cases hcanonical

theorem finished_of_latest (h : Histories network history) {b : BlockRow}
    (hb : b ∈ latest BlockRow.height (fun b => b.revision) (fenced (after network history)))
    (hcanonical : b.canonical = 1) (hcomplete : b.ingestionStatus = .complete) :
    ∃ ws ∈ history, Finishes ws b := by
  induction h with
  | nil => cases hb
  | @concat history ws hhistory hstop ih =>
    have hs := sound_after hhistory
    unfold after at hb
    rw [replay_concat] at hb
    rcases canonical_step hs (stopped_cases hs.identity hstop) hb hcanonical hcomplete with hb | hf
    · obtain ⟨ws', hws', hf⟩ := ih hb
      exact ⟨ws', List.mem_append_left _ hws', hf⟩
    · exact ⟨ws, by simp, hf⟩

/-- Behind every canonical block is an attempt that ran to its publication. -/
theorem finished_of_canonical (h : Histories network history) {b : BlockRow}
    (hb : b ∈ ingestedBlocksCanonical (after network history)) : ∃ ws ∈ history, Finishes ws b := by
  obtain ⟨hlatest, hcanonical, hcomplete, _⟩ := mem_canonical.mp hb
  exact finished_of_latest h hlatest hcanonical hcomplete

/-! ## Visible facts -/

/-- A fact at the height of a canonical block is below its marker, unless the
block's own attempt wrote it. -/
theorem fact_revision (h : Histories network history) {b : BlockRow}
    (hb : b ∈ ingestedBlocksCanonical (after network history)) (hws : ws ∈ history)
    (hfinishes : Finishes ws b) {f : FactTable × FactRow} (hf : f ∈ (after network history).facts)
    (hheight : f.2.blockNumber = b.blockNumber) (hnot : f ∉ factRows ws) :
    f.2.revision < b.revision := by
  have hs := sound_after h
  have hpublished := Sound.canonical_published hs hb
  obtain ⟨other, hother, hf'⟩ := exists_factRows hf
  obtain ⟨_, hs', hstage⟩ := stage_of_mem h hother
  obtain ⟨r, hr, hrheight, hrrevision⟩ := reservation_of_fact hstage hf'
  have hmem : r ∈ (after network history).ingestedBlocks := blockRows_of_mem hother hr
  have hfence : f.2.revision ≤ (currentState network (after network history)).revision := by
    by_contra hlt
    have := hs.pendingFacts hpublished.initialized f hf (by omega)
    have := hpublished.last
    omega
  -- its reservation is published at the same height, so not above the marker
  have hle : r.revision ≤ b.revision := by
    have hrn := hs.networks r hmem
    have hstart := hpublished.start
    have hlast := hpublished.last
    have hrfenced : r ∈ fenced (after network history) := by
      refine mem_fenced.mpr ⟨hmem, ?_⟩
      rw [hrn]
      exact ⟨hpublished.initialized, by omega, by omega, by omega⟩
    have hbn := hs.networks b (published_of_canonical hb).1
    have hkey : r.height = b.height := Prod.ext (hrn.trans hbn.symm) (hrheight.trans hheight)
    have hread := latest_greatest (mem_canonical.mp hb).1 hrfenced hkey
    exact hread
  have hmarker : b.revision ∈ rowRevisions ws :=
    mem_rowRevisions.mpr (Or.inl ⟨b, hfinishes.marker, rfl⟩)
  -- and no revision of another operation is the marker's own
  have hapart {r' : Nat} (hr' : r' ∈ rowRevisions other) : r' ≠ b.revision := by
    rintro rfl
    rw [← eq_of_revision h hws hother hmarker hr'] at hf'
    exact hnot hf'
  have := hapart (mem_rowRevisions.mpr (Or.inl ⟨r, hr, rfl⟩))
  have := hapart (mem_rowRevisions.mpr (Or.inr ⟨f, hf', rfl⟩))
  omega

theorem mem_visibleFacts (h : Histories network history) {b : BlockRow}
    (hb : b ∈ ingestedBlocksCanonical (after network history)) (hws : ws ∈ history)
    (hfinishes : Finishes ws b) (table : FactTable) (f : FactTable × FactRow) :
    f ∈ visibleFacts table b (after network history) ↔ f ∈ writtenFacts table ws := by
  unfold visibleFacts factsCanonical writtenFacts
  rw [List.mem_filter, List.mem_filter, List.mem_filter, decide_eq_true_eq, decide_eq_true_eq]
  constructor
  · rintro ⟨⟨hread, htable, _⟩, hof⟩
    have hf := mem_of_mem_latest hread
    unfold FactRow.ofBlock at hof
    rw [decide_eq_true_eq] at hof
    refine ⟨?_, htable⟩
    by_contra hnot
    have := fact_revision h hb hws hfinishes hf hof.2.1 hnot
    omega
  · rintro ⟨hf, htable⟩
    have hheader := hfinishes.headers f hf
    obtain ⟨hheight, hrevision⟩ := revision_of_header hheader
    refine ⟨⟨?_, htable, ?_⟩, hheader.1⟩
    · refine mem_latest_of_greatest (factRows_of_mem hws hf) fun o ho hkey hne => ?_
      have hoheight : o.2.blockNumber = f.2.blockNumber := congrArg FactKey.blockNumber hkey
      have hotable : o.1 = f.1 := congrArg FactKey.table hkey
      change o.2.revision < f.2.revision
      rw [hrevision]
      refine fact_revision h hb hws hfinishes ho (hoheight.trans hheight) fun hown => hne ?_
      refine List.inj_on_of_nodup_map (hfinishes.keys table) ?_ ?_ hkey
      · exact List.mem_filter.mpr ⟨hown, by simpa using hotable.trans htable⟩
      · exact List.mem_filter.mpr ⟨hf, by simpa using htable⟩
    · exact List.any_eq_true.mpr ⟨b, hb, by rw [decide_eq_true_eq]; exact hheader⟩

theorem visible_perm (h : Histories network history) {b : BlockRow}
    (hb : b ∈ ingestedBlocksCanonical (after network history)) (hws : ws ∈ history)
    (hfinishes : Finishes ws b) (table : FactTable) :
    (visibleFacts table b (after network history)).Perm (writtenFacts table ws) := by
  refine (List.perm_ext_iff_of_nodup ?_ ?_).mpr (mem_visibleFacts h hb hws hfinishes table)
  · exact ((latest_nodup _).filter _).filter _
  · exact (hfinishes.keys table).of_map

/-- No two operations share a row revision. Behind every canonical block is the
one attempt that wrote its marker: in every table the facts visible for the
block are that attempt's, in the number its marker records. The facts of an
operation that published nothing are never visible. -/
theorem visible_facts_of_one_attempt (h : Histories network history) :
    (history.Pairwise fun a b => ∀ r ∈ rowRevisions a, ∀ r' ∈ rowRevisions b, r ≠ r') ∧
    (∀ b ∈ ingestedBlocksCanonical (after network history), ∃ ws ∈ history,
      (b ∈ blockRows ws ∧ ∀ ws' ∈ history, b ∈ blockRows ws' → ws' = ws) ∧
      ∀ table, (visibleFacts table b (after network history)).Perm (writtenFacts table ws) ∧
        (visibleFacts table b (after network history)).length =
          (b.expectedCounts.lookup table).getD 0) ∧
    (∀ ws ∈ history, (∀ next, .syncState [next] ∉ ws) → ∀ f ∈ factRows ws,
      ∀ table, f ∉ factsCanonical (after network history) table) := by
  refine ⟨(revisions_separate h).imp fun hlt r hr r' hr' => (hlt r hr r' hr').ne, ?_, ?_⟩
  · intro b hb
    obtain ⟨ws, hws, hfinishes⟩ := finished_of_canonical h hb
    have hmarker {vs : List Insert} (hvs : b ∈ blockRows vs) : b.revision ∈ rowRevisions vs :=
      mem_rowRevisions.mpr (Or.inl ⟨b, hvs, rfl⟩)
    refine ⟨ws, hws, ⟨hfinishes.marker, fun ws' hws' hb' => ?_⟩, fun table => ?_⟩
    · exact eq_of_revision h hws' hws (hmarker hb') (hmarker hfinishes.marker)
    · have hperm := visible_perm h hb hws hfinishes table
      exact ⟨hperm, hperm.length_eq.trans (hfinishes.counts table)⟩
  · intro ws hws hcrashed f hf table hvisible
    unfold factsCanonical at hvisible
    rw [List.mem_filter, decide_eq_true_eq] at hvisible
    obtain ⟨b, hb, hjoin⟩ := List.any_eq_true.mp hvisible.2.2
    rw [decide_eq_true_eq] at hjoin
    obtain ⟨ws', hws', hfinishes⟩ := finished_of_canonical h hb
    have hrevision : f.2.revision = b.revision := (revision_of_header hjoin).2
    have heq := eq_of_revision h hws hws'
      (mem_rowRevisions.mpr (Or.inr ⟨f, hf, rfl⟩))
      (mem_rowRevisions.mpr (Or.inl ⟨b, hfinishes.marker, hrevision.symm⟩))
    obtain ⟨next, hnext⟩ := hfinishes.published
    exact hcrashed next (heq ▸ hnext)

/-- Block 5 after an attempt that stopped within its facts and one that did not. -/
def retriedBlock : List (List Insert) :=
  runs .bitcoin (Database.empty .bitcoin) [(sampleAttempt 5 'a' '9', 2), (sampleAttempt 5 'a' '9', 4)]

theorem retried_block_facts : ∃ b ∈ ingestedBlocksCanonical (after .bitcoin retriedBlock),
    ∃ ws ∈ retriedBlock, b ∈ blockRows ws ∧
      (visibleFacts .transactions b (after .bitcoin retriedBlock)).Perm
        (writtenFacts .transactions ws) := by
  have hne : ingestedBlocksCanonical (after .bitcoin retriedBlock) ≠ [] := by decide +kernel
  obtain ⟨b, hb⟩ := List.exists_mem_of_ne_nil _ hne
  obtain ⟨ws, hws, hone, hfacts⟩ :=
    (visible_facts_of_one_attempt (histories_of_runs _ _)).2.1 b hb
  exact ⟨b, hb, ws, hws, hone.1, (hfacts .transactions).1⟩

end

end AmlReal.Warehouse.Attribution
