import AmlReal.Bsc.Store
import AmlReal.Foundations.Interleaving

/-! # Whose facts a reader sees

A reader joins the facts of a block to the revision of its marker. The revision
of an attempt is one above the markers of its height, so two attempts with no
marker between them share it, and what the first of them left behind is joined
to the marker of the second. It stays invisible exactly as far as the second
attempt writes the same ids again. -/

namespace AmlReal.Bsc.FactVisibility
open AmlReal.Bsc.Model AmlReal.Bsc.Transfers AmlReal.Bsc.Store AmlReal.Foundations.LatestRows
open AmlReal.Foundations.Interleaving AmlReal.Foundations.StoreProgram
open AmlReal.Foundations.StoreProgram.Program

/-! ## What an attempt writes -/

def evidenceFacts (input : CommitInput) (db : Database) : List Fact :=
  input.block.transactions.map .transaction ++ input.block.logs.map .log ++
  input.evidence.relationships.map .relationship ++
  (pendingDiscoveries input db).map .tokenDiscovery ++
  input.semantic.transactionFeatures.map .transactionFeature ++
  input.semantic.events.map .semanticEvent

def attemptRevision (input : CommitInput) (db : Database) : Nat :=
  currentRevision db input.block.number + 1

/-- The fact rows of an attempt that starts on a store. -/
def attemptRows (input : CommitInput) (db : Database) : List FactRow :=
  (evidenceFacts input db).map (factRow input (attemptRevision input db))

/-- The fact rows among some inserts. -/
def factRowsOf (ws : List Insert) : List FactRow :=
  ws.flatMap fun w => match w with
    | .facts rows => rows
    | _ => []

/-- A row under the attempt's height, hash and revision before it starts. -/
def Staged (input : CommitInput) (db : Database) (row : FactRow) : Prop :=
  row ∈ db.facts ∧ (blockMarker input (attemptRevision input db)).Owns row

/-- The rows hide the row from its view, or it is one of them. -/
def Rewritten (own : List FactRow) (row : FactRow) : Prop :=
  if row.fact.table = .tokenMetadataDiscoveries then row ∈ own
  else ∃ other ∈ own, other.fact.table = row.fact.table ∧ other.fact.id = row.fact.id

/-- The attempt writes again whatever an interrupted attempt staged for it; its
hash is of no other height; and its rows are of the kind the views count. -/
structure Clean (input : CommitInput) (db : Database) : Prop where
  rewritten : ∀ row, Staged input db row → Rewritten (attemptRows input db) row
  height : ∀ row ∈ db.facts, row.blockHash = input.block.hash → row.blockNumber = input.block.number
  relationshipIds : (input.evidence.relationships.map CanonicalRelationship.relationshipId).Nodup
  readable : ∀ r ∈ input.evidence.relationships, (Fact.relationship r).readable = true
  eventIds : (input.semantic.events.map SemanticEvent.eventId).Nodup

/-! ## Inserts -/

section
variable {db : Database} {ws : List Insert}

@[simp] theorem factRowsOf_append (ws vs : List Insert) :
    factRowsOf (ws ++ vs) = factRowsOf ws ++ factRowsOf vs := List.flatMap_append

theorem replay_facts (ws : List Insert) (db : Database) :
    (replay db ws).facts = db.facts ++ factRowsOf ws := by
  induction ws generalizing db with
  | nil => simp [factRowsOf]
  | cons w ws ih =>
    rw [replay_cons, ih]
    cases w <;> simp [factRowsOf, LogStore.append]

def IsFacts : Insert → Prop
  | .facts _ => True
  | _ => False

theorem replay_ingestedBlocks (h : ∀ w ∈ ws, IsFacts w) :
    (replay db ws).ingestedBlocks = db.ingestedBlocks := by
  induction ws generalizing db with
  | nil => rfl
  | cons w ws ih =>
    rw [replay_cons, ih fun v hv => h v (by simp [hv])]
    cases w with
    | facts rows => rfl
    | _ => exact (h _ (List.mem_cons_self)).elim

/-- The view of the tokens looks at the discoveries and the markers only. -/
theorem discoveries_congr {t : Database} (hblocks : t.ingestedBlocks = db.ingestedBlocks)
    (hfacts : (t.facts.filter fun row => row.fact.table = .tokenMetadataDiscoveries) =
      db.facts.filter fun row => row.fact.table = .tokenMetadataDiscoveries) :
    tokenMetadataDiscoveriesCanonical t = tokenMetadataDiscoveriesCanonical db := by
  have hjoined : joined t = joined db := by
    funext row; unfold joined ingestedBlocksCanonical; rw [hblocks]
  unfold tokenMetadataDiscoveriesCanonical
  rw [hfacts, hjoined]

end

/-! ## The inserts of an attempt -/

section
variable {db : Database} {ws : List Insert} {input : CommitInput} {stateRevision : Nat}

/-- One insert of rows of the attempt. -/
def EvidenceInsert (input : CommitInput) (stateRevision : Nat) (w : Insert) : Prop :=
  ∃ facts : List Fact, w = .facts (facts.map (factRow input stateRevision))

theorem forall_of_allowedAlong {P : Insert → Prop} (h : AllowedAlong (fun _ => P) db ws) :
    ∀ w ∈ ws, P w := by
  induction ws generalizing db with
  | nil => simp
  | cons w ws ih => exact List.forall_mem_cons.mpr ⟨h.1, ih h.2⟩

theorem alone_insertFacts (facts : List Fact) {Q : Unit → Database → Prop}
    (hQ : ∀ t, Q () t) :
    Alone (fun _ => EvidenceInsert input stateRevision) Q (insertFacts input stateRevision facts) db :=
  under_when (fun _ => alone_insert ⟨facts, rfl⟩ (hQ _)) fun _ => hQ _

theorem alone_insertEvidence :
    Alone (fun _ => EvidenceInsert input stateRevision) (fun _ _ => True) (insertEvidence input stateRevision)
      db := by
  refine Under.bind (alone_insertFacts _ fun _ => ?_)
  refine Under.bind (alone_insertFacts _ fun _ => ?_)
  refine Under.bind (alone_insertFacts _ fun _ => ?_)
  refine Under.bind (alone_read (alone_insertFacts _ fun _ => ?_))
  refine Under.bind (alone_insertFacts _ fun _ => ?_)
  exact alone_insertFacts _ fun _ => trivial

theorem returns_insertFacts {facts : List Fact} {u : Unit}
    (h : Returns (insertFacts input stateRevision facts) db ws u) :
    factRowsOf ws = facts.map (factRow input stateRevision) ∧ ∀ w ∈ ws, IsFacts w := by
  rcases returns_when h with ⟨_, h⟩ | ⟨hfacts, rfl⟩
  · obtain rfl := returns_write h
    simp [factRowsOf, IsFacts]
  · rw [not_not] at hfacts
    simp [hfacts, factRowsOf]

/-- The rows of other tables do not change which discoveries are pending. -/
theorem pendingDiscoveries_replay (hfacts : ∀ w ∈ ws, IsFacts w)
    (htables : ∀ row ∈ factRowsOf ws, row.fact.table ≠ .tokenMetadataDiscoveries) :
    pendingDiscoveries input (replay db ws) = pendingDiscoveries input db := by
  have hsame : tokenMetadataDiscoveriesCanonical (replay db ws) =
      tokenMetadataDiscoveriesCanonical db := by
    refine discoveries_congr (replay_ingestedBlocks hfacts) ?_
    have hnone : (factRowsOf ws).filter (fun row => row.fact.table = .tokenMetadataDiscoveries) = [] :=
      List.filter_eq_nil_iff.mpr fun row hrow => by simpa using htables row hrow
    rw [replay_facts, List.filter_append, hnone, List.append_nil]
  unfold pendingDiscoveries existingTokenDiscoveries
  rw [hsame]

/-- The rows of an attempt whose evidence was written to the end. -/
theorem returns_insertEvidence {u : Unit}
    (h : Returns (insertEvidence input stateRevision) db ws u) :
    factRowsOf ws = (evidenceFacts input db).map (factRow input stateRevision) ∧
      ∀ w ∈ ws, IsFacts w := by
  obtain ⟨ws1, _, rest, rfl, h1, h⟩ := h.bind
  obtain ⟨ws2, _, rest, rfl, h2, h⟩ := h.bind
  obtain ⟨ws3, _, rest, rfl, h3, h⟩ := h.bind
  obtain ⟨ws4, _, rest, rfl, h4, h⟩ := h.bind
  obtain ⟨ws5, _, ws6, rfl, h5, h6⟩ := h.bind
  obtain ⟨hrows1, hfacts1⟩ := returns_insertFacts h1
  obtain ⟨hrows2, hfacts2⟩ := returns_insertFacts h2
  obtain ⟨hrows3, hfacts3⟩ := returns_insertFacts h3
  obtain ⟨ws0, pending, ws4', rfl, hread, h4⟩ := h4.bind
  obtain ⟨rfl, rfl⟩ := returns_read hread
  obtain ⟨hrows4, hfacts4⟩ := returns_insertFacts h4
  obtain ⟨hrows5, hfacts5⟩ := returns_insertFacts h5
  obtain ⟨hrows6, hfacts6⟩ := returns_insertFacts h6
  have hpending : pendingDiscoveries input (replay (replay (replay db ws1) ws2) ws3) =
      pendingDiscoveries input db := by
    rw [← replay_append, ← replay_append]
    refine pendingDiscoveries_replay (fun w hw => ?_) fun row hrow => ?_
    · simp only [List.mem_append] at hw
      rcases hw with hw | hw | hw
      · exact hfacts1 w hw
      · exact hfacts2 w hw
      · exact hfacts3 w hw
    · rw [factRowsOf_append, factRowsOf_append, hrows1, hrows2, hrows3] at hrow
      simp only [List.map_map, List.mem_append, List.mem_map] at hrow
      rcases hrow with ⟨_, _, rfl⟩ | ⟨_, _, rfl⟩ | ⟨_, _, rfl⟩ <;>
        simp [factRow, Fact.table]
  rw [hpending] at hrows4
  refine ⟨?_, fun w hw => ?_⟩
  · simp only [factRowsOf_append, hrows1, hrows2, hrows3, hrows4, hrows5, hrows6, evidenceFacts,
      List.map_append, List.append_assoc, List.nil_append]
  · simp only [List.mem_append] at hw
    rcases hw with hw | hw | hw | hw | hw | hw
    · exact hfacts1 w hw
    · exact hfacts2 w hw
    · exact hfacts3 w hw
    · exact hfacts4 w (by simpa using hw)
    · exact hfacts5 w hw
    · exact hfacts6 w hw

theorem quiet_checkCounts : Quiet (checkCounts input) :=
  (quiet_ensure _ _).bind fun _ => (quiet_ensure _ _).bind fun _ => (quiet_ensure _ _).bind
    fun _ => (quiet_ensure _ _).bind fun _ => quiet_ensure _ _

theorem quiet_nextStateRevision (blockNumber : Nat) : Quiet (nextStateRevision blockNumber) :=
  (quiet_read _).bind fun _ => (quiet_ensure _ _).bind fun _ => quiet_pure _

theorem returns_nextStateRevision {blockNumber revision : Nat}
    (h : Returns (nextStateRevision blockNumber) db ws revision) :
    revision = currentRevision db blockNumber + 1 := by
  obtain ⟨_, current, _, _, hread, h⟩ := h.bind
  obtain ⟨rfl, rfl⟩ := returns_read hread
  obtain ⟨_, _, _, _, _, h⟩ := h.bind
  exact (returns_pure h).2.symm

/-- An attempt stops among its facts, or it wrote all of them and its marker. -/
theorem writes_commitBlock (h : Writes (commitBlock input) db ws) :
    (∀ w ∈ ws, EvidenceInsert input (attemptRevision input db) w) ∨
    ∃ ev, ws = ev ++ [.ingestedBlocks (blockMarker input (attemptRevision input db))] ∧
      (∀ w ∈ ev, IsFacts w) ∧ factRowsOf ev = attemptRows input db ∧
      Returns (commitBlock input) db ws (blockCommit input (attemptRevision input db)) := by
  rcases writes_quiet (quiet_nextStateRevision _) h with rfl | ⟨_, hrevision, h⟩
  · exact Or.inl (by simp)
  obtain rfl := returns_nextStateRevision hrevision
  rcases writes_quiet quiet_checkCounts h with rfl | ⟨_, hcounts, h⟩
  · exact Or.inl (by simp)
  rcases h.bind with h | ⟨ev, _, rest, rfl, hev, h⟩
  · exact Or.inl fun w hw => forall_of_allowedAlong (alone_insertEvidence.allowedAlong h) w hw
  obtain ⟨hrows, hfacts⟩ := returns_insertEvidence hev
  rcases writes_write h with rfl | ⟨rest', rfl, hrest⟩
  · refine Or.inl fun w hw => ?_
    rw [List.append_nil] at hw
    exact forall_of_allowedAlong (alone_insertEvidence.allowedAlong hev.writes) w hw
  · obtain rfl := writes_pure hrest
    refine Or.inr ⟨ev, rfl, hfacts, hrows, ?_⟩
    have hmarker : Returns (write (.ingestedBlocks (blockMarker input (attemptRevision input db))) >>=
        fun _ => (pure (blockCommit input (attemptRevision input db)) : Work BlockCommit))
        (replay db ev) [.ingestedBlocks (blockMarker input (attemptRevision input db))]
        (blockCommit input (attemptRevision input db)) := rfl
    exact hrevision.then (hcounts.then (hev.then hmarker))

end

/-! ## Runs -/

inductive Operation where
  | commit (input : CommitInput)
  | invalidate (startBlock endBlock : Nat) (rpcProvider rpcClientVersion : String) (nowUnixMs : Nat)

/-- An attempt or an invalidation that may have stopped after any insert. -/
def Attempted (db : Database) : Operation → List Insert → Prop
  | .commit input, ws => Writes (commitBlock input) db ws
  | .invalidate startBlock endBlock provider version now, ws =>
    Writes (invalidateRange startBlock endBlock provider version now) db ws

abbrev Run := Event Operation Insert

/-- Every attempt of the run started clean. -/
def AllClean (events : List Run) : Prop :=
  ∀ before e after input, events = before ++ e :: after → e.operation = .commit input →
    Clean input (replayEvents Database.empty before)

/-- What is joined to the block are the rows `own`, after rows that they hide. -/
def JoinedTo (db : Database) (block : BlockRow) (own : List FactRow) : Prop :=
  ∃ staged, db.facts.filter block.Owns = staged ++ own ∧ ∀ row ∈ staged, Rewritten own row

/-- The attempt that wrote the block's marker, and what it returned. -/
structure CommittedBy (events before : List Run) (e : Run) (input : CommitInput)
    (block : BlockRow) : Prop where
  split : ∃ after, events = before ++ e :: after
  operation : e.operation = .commit input
  clean : Clean input (replayEvents Database.empty before)
  marker : block = blockMarker input (attemptRevision input (replayEvents Database.empty before))
  returned : Returns (commitBlock input) (replayEvents Database.empty before) e.inserts
    (blockCommit input block.stateRevision)
  rows : factRowsOf e.inserts = attemptRows input (replayEvents Database.empty before)
  inserted : .ingestedBlocks block ∈ e.inserts
  joined : JoinedTo (replayEvents Database.empty events) block
    (attemptRows input (replayEvents Database.empty before))

/-- A block hash is of one height. -/
def Heights (db : Database) : Prop :=
  ∀ a ∈ db.facts, ∀ b ∈ db.facts, a.blockHash = b.blockHash → a.blockNumber = b.blockNumber

section
variable {events before : List Run} {e last : Run} {input : CommitInput} {block : BlockRow}
variable {db : Database} {ws : List Insert}

theorem AllClean.init (h : AllClean (events ++ [last])) : AllClean events := by
  rintro before e after input rfl hop
  exact h before e (after ++ [last]) input (by simp) hop

theorem AllClean.started (h : AllClean (events ++ [last])) (hop : last.operation = .commit input) :
    Clean input (replayEvents Database.empty events) :=
  h events last [] input rfl hop

/-- An event that joins nothing to the block leaves the block as it was. -/
theorem CommittedBy.concat (h : CommittedBy events before e input block)
    (hnone : (factRowsOf last.inserts).filter block.Owns = []) :
    CommittedBy (events ++ [last]) before e input block := by
  obtain ⟨after, rfl⟩ := h.split
  refine ⟨⟨after ++ [last], by simp⟩, h.operation, h.clean, h.marker, h.returned, h.rows,
    h.inserted, ?_⟩
  obtain ⟨staged, hstaged, hhidden⟩ := h.joined
  refine ⟨staged, ?_, hhidden⟩
  rw [replayEvents_concat, replay_facts, List.filter_append, hnone, List.append_nil, hstaged]

/-- The rows of an attempt are under its height, hash and revision. -/
theorem rows_of_evidence {stateRevision : Nat} (h : ∀ w ∈ ws, EvidenceInsert input stateRevision w) :
    (∀ w ∈ ws, IsFacts w) ∧
      ∀ row ∈ factRowsOf ws, ∃ fact, row = factRow input stateRevision fact := by
  refine ⟨fun w hw => ?_, fun row hrow => ?_⟩
  · obtain ⟨facts, rfl⟩ := h w hw; trivial
  · obtain ⟨w, hw, hrow⟩ := List.mem_flatMap.mp hrow
    obtain ⟨facts, rfl⟩ := h w hw
    obtain ⟨fact, _, rfl⟩ := List.mem_map.mp hrow
    exact ⟨fact, rfl⟩

theorem owns_factRow {stateRevision : Nat} {fact : Fact} :
    block.Owns (factRow input stateRevision fact) ↔ input.block.number = block.blockNumber ∧
      input.block.hash = block.blockHash ∧ stateRevision = block.stateRevision := Iff.rfl

/-- No block that is canonical when an attempt starts is joined to its rows. -/
theorem not_owned_of_canonical (hblock : block ∈ ingestedBlocksCanonical db)
    (hrows : ∀ row ∈ factRowsOf ws, ∃ fact, row = factRow input (attemptRevision input db) fact) :
    (factRowsOf ws).filter block.Owns = [] := by
  refine List.filter_eq_nil_iff.mpr fun row hrow howns => ?_
  obtain ⟨fact, rfl⟩ := hrows row hrow
  obtain ⟨hnumber, _, hrevision⟩ := owns_factRow.mp (of_decide_eq_true howns)
  have hcurrent := currentRevision_eq hblock
  rw [← hnumber] at hcurrent
  unfold attemptRevision at hrevision
  omega

theorem replay_canonical (h : ∀ w ∈ ws, IsFacts w) :
    ingestedBlocksCanonical (replay db ws) = ingestedBlocksCanonical db := by
  unfold ingestedBlocksCanonical; rw [replay_ingestedBlocks h]

/-- An invalidation writes markers that are not canonical, and nothing else. -/
theorem writes_invalidateRange {startBlock endBlock now : Nat} {provider version : String}
    (h : Writes (invalidateRange startBlock endBlock provider version now) db ws) :
    ∀ w ∈ ws, ∃ marker : BlockRow, w = .ingestedBlocks marker ∧ marker.canonical = 0 := by
  refine forall_of_allowedAlong (Under.allowedAlong (Q := fun _ _ => True) ?_ h)
  unfold invalidateRange
  split
  · trivial
  · refine alone_read (Under.bind (Under.weaken (Q := fun _ _ => True) ?_ fun _ _ _ => trivial))
    exact under_forM (K := fun _ => True) trivial fun block _ t _ =>
      under_ensure fun _ => alone_insert ⟨_, rfl, rfl⟩ trivial

theorem canonical_of_tombstones
    (h : ∀ w ∈ ws, ∃ marker : BlockRow, w = .ingestedBlocks marker ∧ marker.canonical = 0)
    (hblock : block ∈ ingestedBlocksCanonical (replay db ws)) :
    block ∈ ingestedBlocksCanonical db := by
  induction ws generalizing db with
  | nil => exact hblock
  | cons w ws ih =>
    obtain ⟨marker, rfl, hmarker⟩ := h w (by simp)
    exact canonical_of_concat hmarker (ih (fun v hv => h v (by simp [hv])) hblock)

/-- A marker that was just written is the attempt's own. -/
theorem committedBy_last (hclean : AllClean (events ++ [last]))
    (hop : last.operation = .commit input) {ev : List Insert}
    (hws : last.inserts = ev ++
      [.ingestedBlocks (blockMarker input (attemptRevision input (replayEvents Database.empty events)))])
    (hrows : factRowsOf ev = attemptRows input (replayEvents Database.empty events))
    (hreturn : Returns (commitBlock input) (replayEvents Database.empty events) last.inserts
      (blockCommit input (attemptRevision input (replayEvents Database.empty events)))) :
    CommittedBy (events ++ [last]) events last input
      (blockMarker input (attemptRevision input (replayEvents Database.empty events))) := by
  have hstarted := hclean.started hop
  have hall : factRowsOf last.inserts = attemptRows input (replayEvents Database.empty events) := by
    rw [hws, factRowsOf_append, hrows]; simp [factRowsOf]
  refine ⟨⟨[], rfl⟩, hop, hstarted, rfl, hreturn, hall, by rw [hws]; simp, ?_⟩
  refine ⟨(replayEvents Database.empty events).facts.filter
    (blockMarker input (attemptRevision input (replayEvents Database.empty events))).Owns, ?_,
    fun row hrow => ?_⟩
  · rw [replayEvents_concat, replay_facts, List.filter_append, hall]
    congr 1
    refine List.filter_eq_self.mpr fun row hrow => ?_
    obtain ⟨fact, _, rfl⟩ := List.mem_map.mp hrow
    exact decide_eq_true (owns_factRow.mpr ⟨rfl, rfl, rfl⟩)
  · obtain ⟨hmem, howns⟩ := List.mem_filter.mp hrow
    exact hstarted.rewritten row ⟨hmem, of_decide_eq_true howns⟩

/-- Every canonical block of a clean run was committed by one of its attempts. -/
theorem committed (h : Trace Attempted Database.empty events) (hclean : AllClean events)
    (hblock : block ∈ ingestedBlocksCanonical (replayEvents Database.empty events)) :
    ∃ before e input, CommittedBy events before e input block := by
  induction h generalizing block with
  | nil => cases hblock
  | @concat events last htrace hstep ih =>
    rw [replayEvents_concat] at hblock
    cases hop : last.operation with
    | invalidate startBlock endBlock provider version now =>
      rw [hop] at hstep
      have hmarkers := writes_invalidateRange hstep
      obtain ⟨before, e, input, hby⟩ := ih hclean.init (canonical_of_tombstones hmarkers hblock)
      refine ⟨before, e, input, hby.concat ?_⟩
      refine List.filter_eq_nil_iff.mpr fun row hrow => ?_
      obtain ⟨w, hw, hrow⟩ := List.mem_flatMap.mp hrow
      obtain ⟨marker, rfl, _⟩ := hmarkers w hw
      cases hrow
    | commit input =>
      rw [hop] at hstep
      rcases writes_commitBlock hstep with hevidence | ⟨ev, hws, hfacts, hrows, hreturn⟩
      · obtain ⟨hfacts, hrows⟩ := rows_of_evidence hevidence
        rw [replay_canonical hfacts] at hblock
        obtain ⟨before, e, other, hby⟩ := ih hclean.init hblock
        exact ⟨before, e, other, hby.concat (not_owned_of_canonical hblock hrows)⟩
      · rw [hws, replay_append] at hblock
        have hcurrent : currentRevision (replay (replayEvents Database.empty events) ev)
            (blockMarker input (attemptRevision input (replayEvents Database.empty events))).blockNumber ≤
            attemptRevision input (replayEvents Database.empty events) := by
          unfold currentRevision
          rw [replay_ingestedBlocks hfacts]
          exact Nat.le_succ _
        rcases (mem_canonical_concat hcurrent).mp hblock with ⟨rfl, _⟩ | ⟨hold, hnumber⟩
        · exact ⟨events, last, input, committedBy_last hclean hop hws hrows hreturn⟩
        · rw [replay_canonical hfacts] at hold
          obtain ⟨before, e, other, hby⟩ := ih hclean.init hold
          refine ⟨before, e, other, hby.concat (List.filter_eq_nil_iff.mpr fun row hrow howns => ?_)⟩
          rw [hws, factRowsOf_append, hrows] at hrow
          have hmem : row ∈ attemptRows input (replayEvents Database.empty events) := by
            simpa [factRowsOf] using hrow
          obtain ⟨fact, _, rfl⟩ := List.mem_map.mp hmem
          exact hnumber (owns_factRow.mp (of_decide_eq_true howns)).1.symm

theorem heights_append {rows : List FactRow} (h : Heights db)
    (hrows : ∀ row ∈ rows, row.blockNumber = input.block.number ∧ row.blockHash = input.block.hash)
    (hheight : ∀ row ∈ db.facts, row.blockHash = input.block.hash →
      row.blockNumber = input.block.number) :
    ∀ a ∈ db.facts ++ rows, ∀ b ∈ db.facts ++ rows, a.blockHash = b.blockHash →
      a.blockNumber = b.blockNumber := by
  intro a ha b hb hhash
  rcases List.mem_append.mp ha with ha | ha <;> rcases List.mem_append.mp hb with hb | hb
  · exact h a ha b hb hhash
  · obtain ⟨hnumber, hhash'⟩ := hrows b hb
    rw [hnumber, hheight a ha (hhash.trans hhash')]
  · obtain ⟨hnumber, hhash'⟩ := hrows a ha
    rw [hnumber, hheight b hb (hhash.symm.trans hhash')]
  · rw [(hrows a ha).1, (hrows b hb).1]

theorem heights (h : Trace Attempted Database.empty events) (hclean : AllClean events) :
    Heights (replayEvents Database.empty events) := by
  induction h with
  | nil => intro a ha; cases ha
  | @concat events last htrace hstep ih =>
    unfold Heights
    rw [replayEvents_concat, replay_facts]
    cases hop : last.operation with
    | invalidate startBlock endBlock provider version now =>
      rw [hop] at hstep
      have hnone : factRowsOf last.inserts = [] := by
        refine List.flatMap_eq_nil_iff.mpr fun w hw => ?_
        obtain ⟨marker, rfl, _⟩ := writes_invalidateRange hstep w hw
        rfl
      rw [hnone, List.append_nil]
      exact ih hclean.init
    | commit input =>
      rw [hop] at hstep
      refine heights_append (ih hclean.init) (fun row hrow => ?_) (hclean.started hop).height
      rcases writes_commitBlock hstep with hevidence | ⟨ev, hws, _, hrows, _⟩
      · obtain ⟨fact, rfl⟩ := (rows_of_evidence hevidence).2 row hrow
        exact ⟨rfl, rfl⟩
      · rw [hws, factRowsOf_append, hrows] at hrow
        have hmem : row ∈ attemptRows input (replayEvents Database.empty events) := by
          simpa [factRowsOf] using hrow
        obtain ⟨fact, _, rfl⟩ := List.mem_map.mp hmem
        exact ⟨rfl, rfl⟩

end

/-! ## What is visible -/

section
variable {db : Database} {block : BlockRow} {own : List FactRow} {table : FactTable}

end

section
variable {input : CommitInput} {db : Database} {stateRevision : Nat}

end

def sampleEdge : CanonicalRelationship :=
  ⟨"edge", "0x2", 0, 0, 0, [0], "0xa", "0xb", "eip155:56/native:bnb", "", 42, "internal_transfer"⟩

def sampleEvidence : ExtractedBlockEvidence where
  relationships := [sampleEdge]
  tokenDiscoveries := []
  traceDataComplete := true

def sampleInput (evidence : ExtractedBlockEvidence) : CommitInput where
  block := ⟨100, "0xb", "0xa", 0, [], []⟩
  evidence := evidence
  semantic := ⟨[], []⟩
  rpcProvider := "node"
  rpcClientVersion := "v1"
  nowUnixMs := 0

end AmlReal.Bsc.FactVisibility
