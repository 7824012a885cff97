import AmlReal.Warehouse.Fence

/-! # Rollbacks that go through

The checks of a publication from the other side: a rollback whose suffix is
stored, valid and within the bound is published, with its tombstones before
its state. -/

namespace AmlReal.Warehouse.Rollback
open AmlReal.Foundations.LatestRows AmlReal.Foundations.StoreProgram
open AmlReal.Foundations.StoreProgram.Program
open AmlReal.Foundations.Checks (bind_ok)
open AmlReal.Warehouse.Values AmlReal.Warehouse.Tables AmlReal.Warehouse.Rules
open AmlReal.Warehouse.Publication AmlReal.Warehouse.Contents AmlReal.Warehouse.Stages
open AmlReal.Warehouse.Fence

/-! ## Rules of a row -/

theorem rule_ok {table column kind : String} {holds : Bool} :
    rule table column kind holds = .ok () ↔ holds = true := by
  unfold rule
  cases holds <;> simp

theorem rule_bind_ok {table column kind : String} {holds : Bool} {f : Unit → Except String Unit} :
    (rule table column kind holds >>= f) = .ok () ↔ holds = true ∧ f () = .ok () := by
  constructor
  · intro h
    obtain ⟨_, hrule, hrest⟩ := bind_ok h
    exact ⟨rule_ok.mp hrule, hrest⟩
  · rintro ⟨hrule, hrest⟩
    rw [rule_ok.mpr hrule]
    exact hrest

theorem hash_of_valid {row : BlockRow} (h : validateBlockRow row = .ok ()) :
    canonicalHash row.networkId row.blockHash = true ∧ 0 < row.revision := by
  simp only [validateBlockRow, rule_bind_ok, decide_eq_true_eq] at h
  exact ⟨h.1, h.2.1⟩

/-- A tombstone keeps the rules that its row kept. -/
theorem tombstone_valid {row : BlockRow} (h : validateBlockRow row = .ok ()) {next : State}
    (hrevision : 0 < next.revision) : validateBlockRow (tombstone next row) = .ok () := by
  simp only [validateBlockRow, rule_bind_ok, rule_ok] at h ⊢
  obtain ⟨hhash, _, hparent, _, hrest⟩ := h
  exact ⟨hhash, decide_eq_true hrevision, hparent, rfl, hrest⟩

/-! ## Inserts -/

section
variable {ρ : Type} {validateRow : ρ → Except String Unit} {networkId : ρ → Network}
  {chunk : List ρ → Insert} {rows : List ρ} {db : Database}

theorem forM_valid (h : ∀ row ∈ rows, validateRow row = .ok ()) : rows.forM validateRow = .ok () := by
  induction rows with
  | nil => rfl
  | cons row rest ih =>
    show (validateRow row >>= fun _ => rest.forM validateRow) = _
    rw [h row List.mem_cons_self, ih fun r hr => h r (List.mem_cons_of_mem _ hr)]
    rfl

theorem identity_returns {networks : List Network} (h : ∀ n ∈ networks, n = db.identity) :
    Returns (insertIdentity networks) db [] () := by
  cases networks with
  | nil => rfl
  | cons first rest =>
    have hfirst : first = db.identity := h first List.mem_cons_self
    have hrest : ∀ n ∈ rest, n = first := fun n hn => (h n (List.mem_cons_of_mem _ hn)).trans hfirst.symm
    exact (ensure_returns hrest).next ((read_returns _).next (ensure_returns hfirst.symm))

theorem insert_goes (hvalid : ∀ row ∈ rows, validateRow row = .ok ())
    (hidentity : ∀ row ∈ rows, networkId row = db.identity) :
    Returns (insert validateRow networkId chunk rows) db ((chunks 1000 rows).map chunk) () := by
  have hnetworks : ∀ n ∈ rows.map networkId, n = db.identity := by
    intro n hn
    obtain ⟨row, hrow, rfl⟩ := List.mem_map.mp hn
    exact hidentity row hrow
  unfold Publication.insert
  rw [forM_valid hvalid]
  exact (lift_returns _).next ((identity_returns hnetworks).next (forM_write_returns chunk _))

end

/-! ## The publication -/

/-- What a rollback has to meet. -/
structure Ready (network : Network) (previous next : State) (db : Database) : Prop where
  networks : next.networkId = network ∧ previous.networkId = network
  identity : db.identity = network
  current : currentState network db = previous
  revision : previous.revision < next.revision
  initialized : previous.initialized = 1
  shrinks : next.initialized = 0 ∨ next.lastBlockNumber < previous.lastBlockNumber
  previousSnapshot : snapshotFromState previous = .ok previous
  nextSnapshot : snapshotFromState next = .ok next
  start : next.initialized = 1 → next.startBlock = previous.startBlock
  tip : next.initialized = 1 → ∃ b ∈ ingestedBlocksCanonical db, b.networkId = network ∧
    b.blockNumber = next.lastBlockNumber ∧ b.blockHash = next.lastBlockHash
  bound : (orphanedRows network next db).length ≤ 10000
  valid : ∀ row ∈ orphanedRows network next db, validateBlockRow row = .ok ()
  suffix : orphanedRows network next db ≠ []

section
variable {network : Network} {previous next : State} {db : Database}

theorem Ready.isRollback (h : Ready network previous next db) : isRollback previous next = true :=
  decide_eq_true ⟨h.initialized, h.shrinks⟩

theorem Ready.flag (h : Ready network previous next db) : next.initialized ≤ 1 :=
  (snapshotFromState_ok h.nextSnapshot).2.1

theorem Ready.checkRange (h : Ready network previous next db) : checkRange previous next = .ok () := by
  unfold Publication.checkRange
  by_cases hinit : next.initialized = 1
  · have hlt : next.lastBlockNumber < previous.lastBlockNumber := by
      have := h.shrinks
      omega
    rw [if_pos ⟨h.initialized, hinit⟩, if_neg (not_not.mpr (h.start hinit)),
      if_neg fun hsame => by omega, if_neg fun hgap => by omega]
    rfl
  · rw [if_neg fun hboth => hinit hboth.2]
    rfl

/-- The row of the new tip is the newest below the new revision, being canonical. -/
theorem newestRow_canonical {b : BlockRow} (hb : b ∈ ingestedBlocksCanonical db)
    (hnetwork : b.networkId = network) {revision : Nat} (hrevision : b.revision ≤ revision) :
    newestRow network b.blockNumber revision (ingestedBlocksCanonical db) = some b := by
  unfold newestRow
  have hmem : b ∈ (ingestedBlocksCanonical db).filter fun c =>
      c.networkId = network ∧ c.blockNumber = b.blockNumber ∧ c.revision ≤ revision :=
    List.mem_filter.mpr ⟨hb, decide_eq_true ⟨hnetwork, rfl, hrevision⟩⟩
  obtain ⟨m, hm, _⟩ : ∃ m ∈ latest BlockRow.height (fun b => b.revision)
      ((ingestedBlocksCanonical db).filter fun c =>
        c.networkId = network ∧ c.blockNumber = b.blockNumber ∧ c.revision ≤ revision),
      m.height = b.height ∧ b.revision ≤ m.revision := exists_mem_latest hmem
  cases hrows : latest BlockRow.height (fun b => b.revision) ((ingestedBlocksCanonical db).filter fun c =>
      c.networkId = network ∧ c.blockNumber = b.blockNumber ∧ c.revision ≤ revision) with
  | nil =>
    rw [hrows] at hm
    cases hm
  | cons first rest =>
    have hfirst := mem_of_mem_latest (hrows ▸ List.mem_cons_self : first ∈ latest BlockRow.height
      (fun b => b.revision) ((ingestedBlocksCanonical db).filter fun c =>
        c.networkId = network ∧ c.blockNumber = b.blockNumber ∧ c.revision ≤ revision))
    rw [List.mem_filter, decide_eq_true_eq] at hfirst
    obtain ⟨hfirst, hsame, hheight, _⟩ := hfirst
    have hkey : first.height = b.height := Prod.ext (hsame.trans hnetwork.symm) hheight
    rw [List.head?_cons, latest_unique (mem_canonical.mp hfirst).1 (mem_canonical.mp hb).1 hkey]

theorem Ready.checkTip (h : Ready network previous next db) (hinit : next.initialized = 1) :
    Returns (checkTip network previous next) db [] () := by
  obtain ⟨b, hb, hnetwork, hheight, hhash⟩ := h.tip hinit
  obtain ⟨_, hpublished⟩ := published_of_canonical hb
  have hcurrent : currentState b.networkId db = previous := by rw [hnetwork, h.current]
  rw [hcurrent] at hpublished
  have hrange : next.lastBlockNumber ≥ next.startBlock := by
    rw [h.start hinit, ← hheight]
    exact hpublished.start
  have hfound : newestRow network next.lastBlockNumber next.revision (ingestedBlocksCanonical db) = some b := by
    rw [← hheight]
    exact newestRow_canonical hb hnetwork (hpublished.revision.trans (Nat.le_of_lt h.revision))
  obtain ⟨_, hcanonical, hcomplete, _⟩ := mem_canonical.mp hb
  unfold Publication.checkTip
  refine (ensure_returns hrange).next ((read_returns _).next ?_)
  rw [h.isRollback]
  show Returns (lift (AmlReal.Foundations.Checks.context (newestRow network next.lastBlockNumber next.revision
    (ingestedBlocksCanonical db)) "cannot publish a missing block") >>= _) db [] ()
  rw [hfound]
  refine (lift_returns _).next ((ensure_returns ⟨hhash, hcanonical, hcomplete⟩).next ?_)
  exact when_skips (by simp)

theorem Ready.orphanSuffix (h : Ready network previous next db) :
    Returns (orphanSuffix network previous next) db
      ((chunks 1000 ((orphanedRows network next db).map (tombstone next))).map .blocks) () := by
  have htake : (orphanedRows network next db).take 10001 = orphanedRows network next db :=
    List.take_of_length_le (by have := h.bound; omega)
  have hvalid : ∀ row ∈ (orphanedRows network next db).map (tombstone next), validateBlockRow row = .ok () := by
    intro row hrow
    obtain ⟨orphan, horphan, rfl⟩ := List.mem_map.mp hrow
    exact tombstone_valid (h.valid orphan horphan) (Nat.zero_lt_of_lt h.revision)
  have hidentity : ∀ row ∈ (orphanedRows network next db).map (tombstone next),
      row.networkId = db.identity := by
    intro row hrow
    obtain ⟨orphan, horphan, rfl⟩ := List.mem_map.mp hrow
    exact (mem_orphanedRows horphan).2.1.trans h.identity.symm
  unfold Publication.orphanSuffix
  refine (read_returns _).next ?_
  rw [htake]
  refine (ensure_returns h.bound).next ?_
  rw [forM_valid h.valid]
  refine (lift_returns _).next ((ensure_returns (Or.inl h.suffix)).next ?_)
  exact insert_goes hvalid hidentity

theorem validateState_ok {state : State} (hrevision : 0 < state.revision) (h : snapshotFromState state = .ok state) :
    validateState state = .ok () := by
  have hflag := (snapshotFromState_ok h).2.1
  have htip : ((state.initialized == 0 && state.lastBlockHash == "") ||
      canonicalHash state.networkId state.lastBlockHash) = true := by
    unfold snapshotFromState at h
    rw [if_neg (by omega)] at h
    by_cases hinit : state.initialized = 1
    · rw [if_pos hinit] at h
      by_cases hok : state.revision > 0 ∧ state.startBlock ≤ state.lastBlockNumber ∧
          canonicalHash state.networkId state.lastBlockHash
      · rw [hok.2.2, Bool.or_true]
      · rw [if_neg hok] at h
        cases h
    · rw [if_neg hinit] at h
      by_cases hok : state.lastBlockNumber = 0 ∧ state.lastBlockHash = ""
      · have hzero : state.initialized = 0 := by omega
        simp [hzero, hok.2]
      · rw [if_neg hok] at h
        cases h
  simp only [validateState, rule_bind_ok, rule_ok]
  exact ⟨decide_eq_true hrevision, by simpa [boolean] using hflag, htip⟩

/-- The rollback is published: its tombstones, then its state. -/
theorem Ready.publish (h : Ready network previous next db) :
    Returns (publish network previous next) db
      (tombstoneInserts network previous next db ++ [.syncState [next]]) () := by
  have hrevision : 0 < next.revision := Nat.zero_lt_of_lt h.revision
  have hfound : currentState network (replay db (tombstoneInserts network previous next db)) = previous := by
    rw [currentState_replay (stateRows_tombstoneInserts network previous next db), h.current]
  have hidentity : (replay db (tombstoneInserts network previous next db)).identity = next.networkId := by
    rw [replay_identity, h.identity, h.networks.1]
  have hsuffix : Returns (Program.when (Publication.isRollback previous next) (Publication.orphanSuffix network previous next)) db
      (tombstoneInserts network previous next db) () := by
    unfold tombstoneInserts
    rw [if_pos h.isRollback]
    exact when_returns h.isRollback h.orphanSuffix
  have htip : Returns (Program.when (next.initialized = 1) (Publication.checkTip network previous next)) db [] () := by
    by_cases hinit : next.initialized = 1
    · exact when_returns hinit (h.checkTip hinit)
    · exact when_skips hinit
  have hstate : Returns (insertState [next]) (replay db (tombstoneInserts network previous next db))
      [.syncState [next]] () := by
    have hrows : ∀ row ∈ [next], validateState row = .ok () := by
      intro row hrow
      rw [List.mem_singleton.mp hrow]
      exact validateState_ok hrevision h.nextSnapshot
    refine insert_goes hrows ?_
    intro row hrow
    rw [List.mem_singleton.mp hrow]
    exact hidentity.symm
  unfold Publication.publish
  refine (ensure_returns h.networks).next ((ensure_returns ⟨h.revision, h.flag⟩).next ?_)
  refine (read_returns _).next ((ensure_returns h.current).next ?_)
  rw [h.previousSnapshot, h.nextSnapshot, h.checkRange]
  refine (lift_returns _).next ((lift_returns _).next ((lift_returns _).next (htip.next ?_)))
  refine hsuffix.then ?_
  exact (read_returns _).next ((ensure_returns hfound).next hstate)

theorem Ready.published (h : Ready network previous next db) :
    currentState network (replay db (tombstoneInserts network previous next db ++ [.syncState [next]])) =
      next := by
  refine currentState_publish ?_ h.networks.1 ?_
  · rw [stateRows_append, stateRows_tombstoneInserts]
    simp [Insert.stateRows]
  · rw [h.current]
    exact h.revision

end

end AmlReal.Warehouse.Rollback
