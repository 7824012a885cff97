import Mathlib.Data.List.Perm.Subperm
import AmlReal.Bitcoin.StoredBlocks
import AmlReal.Warehouse.Rollback

/-! # Reorganizations of the Bitcoin chain

`reconcile` of `bitcoin/ingestion.rs`: from the tip down to the depth bound the
stored hashes are compared with those of the node, and the visible tip is reset
to the first that agrees. `rpc` is what the node answers for a height. -/

namespace AmlReal.Bitcoin.Reconcile
open AmlReal.Foundations.LatestRows AmlReal.Foundations.StoreProgram
open AmlReal.Foundations.StoreProgram.Program
open AmlReal.Foundations.Checks (context)
open AmlReal.Warehouse.Values AmlReal.Warehouse.Tables AmlReal.Warehouse.Rules
open AmlReal.Warehouse.Operations AmlReal.Warehouse.Publication AmlReal.Warehouse.Stages AmlReal.Warehouse.Fence
open AmlReal.Warehouse.Rollback AmlReal.Bitcoin.StoredBlocks

/-! ## The code -/

/-- `next_revision` of `db/queries.rs` at the clock reading `now`. -/
def dbNextRevision (previous now : Nat) : Writer Nat :=
  nextRevision .bitcoin (max previous (min (now * 1000) (u64Size - 1)))

/-- The downward loop over the `count` heights from `floor` on. -/
def findAncestor (rpc : Nat → Except String String) (floor : Nat) : Nat → Writer (Option Nat)
  | 0 => pure none
  | count + 1 => do
    let stored ← blockHash (floor + count)
    let hash ← lift (rpc (floor + count))
    if stored = some hash then pure (some (floor + count))
    else findAncestor rpc floor count

def floorOf (state : State) (reorgDepth : Nat) : Nat := max (state.lastBlockNumber - reorgDepth) state.startBlock

def tooDeep : String := "reorg exceeds BITCOIN_REORG_MAX_DEPTH; operator recovery required"

/-- The state that `reconcile` publishes. -/
def reset (state : State) (ancestor : Option Nat) (hash : String) (revision head now : Nat) : State :=
  { state with
    revision
    initialized := if ancestor.isSome then 1 else 0
    lastBlockNumber := ancestor.getD 0
    lastBlockHash := hash
    observedRpcHeight := head
    publishedAtUnixMs := now }

/-- The tip is still the node's. -/
def tipAgrees (rpc : Nat → Except String String) (state : State) (head : Nat) : Except String Bool :=
  if state.lastBlockNumber ≤ head then (fun hash => hash = state.lastBlockHash) <$> rpc state.lastBlockNumber
  else .ok false

/-- What follows the search. -/
def resetTo (rpc : Nat → Except String String) (state : State) (reorgDepth head now : Nat)
    (ancestor : Option Nat) : Writer State := do
  -- an orphaned first block resets the whole window when that fits inside the bound
  ensure (ancestor.isSome ∨ state.lastBlockNumber - state.startBlock < reorgDepth) tooDeep
  let revision ← dbNextRevision state.revision now
  let hash ← lift (match ancestor with
    | some height => rpc height
    | none => .ok "")
  let next := reset state ancestor hash revision head now
  publish .bitcoin state next
  pure next

def reconcile (rpc : Nat → Except String String) (state : State) (reorgDepth head now : Nat) :
    Writer State :=
  if state.initialized = 0 then pure state
  else do
    let same ← lift (tipAgrees rpc state head)
    if same then pure state
    else do
      let floor := floorOf state reorgDepth
      let ancestor ← findAncestor rpc floor (min state.lastBlockNumber head + 1 - floor)
      resetTo rpc state reorgDepth head now ancestor

/-! ## The stored window -/

/-- An initialized state whose canonical window is stored. -/
structure Window (db : Database) (state : State) : Prop where
  identity : db.identity = .bitcoin
  current : currentState .bitcoin db = state
  initialized : state.initialized = 1
  range : state.startBlock ≤ state.lastBlockNumber
  stored : ∀ h, state.startBlock ≤ h → h ≤ state.lastBlockNumber → ∃ b, b ∈ blocksAt h db
  valid : ∀ h, Valid h db

/-- The stored hash at the height is that of the chain. -/
def Agrees (db : Database) (chain : Nat → String) (h : Nat) : Prop := ∃ b ∈ blocksAt h db, b.blockHash = chain h

/-- The greatest height below `top` that agrees, from `floor` on. -/
structure Greatest (db : Database) (chain : Nat → String) (floor top h : Nat) : Prop where
  low : floor ≤ h
  high : h ≤ top
  agrees : Agrees db chain h
  above : ∀ k, h < k → k ≤ top → ¬ Agrees db chain k

/-- The next revision, above the fence, the clock and what is written. -/
def revisionAfter (db : Database) (state : State) (now : Nat) : Nat :=
  max (max state.revision (min (now * 1000) (u64Size - 1))) (writtenRevision .bitcoin db) + 3

/-- The next revision does not fit its column. -/
def Exhausted (db : Database) (state : State) (now : Nat) : Prop := u64Size ≤ revisionAfter db state now

/-- The program publishes the state. -/
def Publishes (program : Writer State) (db : Database) (next : State) : Prop :=
  ∃ ws, Returns program db ws next ∧ currentState .bitcoin (replay db ws) = next

/-- The blocks of the window that the next state does not cover. -/
def discarded (state next : State) : Nat :=
  if next.initialized = 1 then state.lastBlockNumber - next.lastBlockNumber
  else state.lastBlockNumber + 1 - state.startBlock

section
variable {db : Database} {state : State} {rpc : Nat → Except String String} {chain : Nat → String}
  {head depth now : Nat}

theorem agrees_iff {h : Nat} : Agrees db chain h ↔
    (blocksAt h db).head?.map (·.blockHash) = some (chain h) := by
  constructor
  · rintro ⟨b, hb, hhash⟩
    rw [head_blocksAt.mpr hb, Option.map_some, hhash]
  · intro h
    obtain ⟨b, hb, hhash⟩ := Option.map_eq_some_iff.mp h
    exact ⟨b, head_blocksAt.mp hb, hhash⟩

/-! ## The search -/

/-- The search ends at the greatest height that agrees. -/
theorem findAncestor_returns (hvalid : ∀ h, Valid h db) {floor count : Nat}
    (hrpc : ∀ h, h < floor + count → rpc h = .ok (chain h)) :
    (∃ h, Greatest db chain floor (floor + count - 1) h ∧
      Returns (findAncestor rpc floor count) db [] (some h)) ∨
    (∀ h, floor ≤ h → h < floor + count → ¬ Agrees db chain h) ∧
      Returns (findAncestor rpc floor count) db [] none := by
  induction count with
  | zero =>
    refine Or.inr ⟨?_, rfl⟩
    intro h hlow hhigh
    omega
  | succ count ih =>
    have hanswer := hrpc (floor + count) (by omega)
    have hstep : ∀ found, Returns (if (blocksAt (floor + count) db).head?.map (·.blockHash) =
        some (chain (floor + count)) then pure (some (floor + count))
        else findAncestor rpc floor count) db [] found →
        Returns (findAncestor rpc floor (count + 1)) db [] found := by
      intro found hfound
      unfold findAncestor
      refine (blockHash_returns (hvalid _)).next ?_
      rw [hanswer]
      exact (lift_returns _).next hfound
    by_cases hagrees : Agrees db chain (floor + count)
    · left
      refine ⟨floor + count, ⟨Nat.le_add_right _ _, by omega, hagrees, fun k hlow hhigh => by omega⟩, ?_⟩
      refine hstep _ ?_
      rw [if_pos (agrees_iff.mp hagrees)]
      rfl
    · have hskip : ∀ found, Returns (findAncestor rpc floor count) db [] found →
          Returns (findAncestor rpc floor (count + 1)) db [] found := by
        intro found hfound
        refine hstep _ ?_
        rw [if_neg fun h => hagrees (agrees_iff.mpr h)]
        exact hfound
      rcases ih fun h hh => hrpc h (by omega) with ⟨h, hbest, hfound⟩ | ⟨hnone, hfound⟩
      · left
        have hhigh : h ≤ floor + count - 1 := hbest.high
        refine ⟨h, ⟨hbest.low, by omega, hbest.agrees, ?_⟩, hskip _ hfound⟩
        intro k hlow htop
        by_cases hlast : k = floor + count
        · rw [hlast]
          exact hagrees
        · exact hbest.above k hlow (by omega)
      · right
        refine ⟨?_, hskip _ hfound⟩
        intro h hlow htop
        by_cases hlast : h = floor + count
        · rw [hlast]
          exact hagrees
        · exact hnone h hlow (by omega)

/-! ## The window -/

theorem Window.tip (hw : Window db state) : ∃ b ∈ blocksAt state.lastBlockNumber db,
    b.blockHash = state.lastBlockHash ∧ b.revision ≤ state.revision := by
  obtain ⟨b, hb⟩ := hw.stored _ hw.range (Nat.le_refl _)
  obtain ⟨hcanonical, hnetwork, hheight⟩ := mem_blocksAt.mp hb
  have hcurrent : currentState b.networkId db = state := by rw [hnetwork, hw.current]
  obtain ⟨_, _, _, htip⟩ := mem_canonical.mp hcanonical
  have hpublished := (published_of_canonical hcanonical).2
  rw [hcurrent] at htip hpublished
  exact ⟨b, hb, htip.resolve_left (by omega), hpublished.revision⟩

theorem Window.snapshot (hw : Window db state) : snapshotFromState state = .ok state := by
  obtain ⟨b, hb, hhash, hrevision⟩ := hw.tip
  obtain ⟨hcanonical, hpositive⟩ := hash_of_valid (hw.valid _ b hb)
  have hnetwork : state.networkId = .bitcoin := by
    rw [← hw.current]
    exact currentState_networkId _ _
  rw [(mem_blocksAt.mp hb).2.1, hhash] at hcanonical
  unfold snapshotFromState
  rw [hw.initialized, if_neg (by omega), if_pos rfl, if_pos]
  refine ⟨by omega, hw.range, ?_⟩
  rw [hnetwork]
  exact hcanonical

/-- What the window holds above the new tip fits the bound of a rollback. -/
theorem orphans_bounded (hw : Window db state) {next : State}
    (hbound : discarded state next ≤ 10000) (hflag : next.initialized ≤ 1) :
    (orphanedRows .bitcoin next db).length ≤ 10000 := by
  have hnodup : ((orphanedRows .bitcoin next db).map (·.blockNumber)).Nodup := by
    have hrows : (orphanedRows .bitcoin next db).Nodup := by
      refine (List.perm_insertionSort _ _).nodup_iff.mpr ?_
      exact ((latest_nodup _).filter _).filter _
    refine List.Nodup.map_on ?_ hrows
    intro b hb c hc hheight
    obtain ⟨hcanonical, hnetwork, _⟩ := mem_orphanedRows hb
    obtain ⟨hcanonical', hnetwork', _⟩ := mem_orphanedRows hc
    exact blocksAt_unique (mem_blocksAt.mpr ⟨hcanonical, hnetwork, rfl⟩)
      (mem_blocksAt.mpr ⟨hcanonical', hnetwork', hheight.symm⟩)
  have hsubset : (orphanedRows .bitcoin next db).map (·.blockNumber) ⊆
      List.range' (state.lastBlockNumber + 1 - discarded state next) (discarded state next) := by
    intro height hmem
    obtain ⟨b, hb, rfl⟩ := List.mem_map.mp hmem
    obtain ⟨hcanonical, hnetwork, habove⟩ := mem_orphanedRows hb
    have hpublished := (published_of_canonical hcanonical).2
    rw [hnetwork, hw.current] at hpublished
    have hlow := hpublished.start
    have hhigh := hpublished.last
    rw [List.mem_range'_1]
    unfold discarded
    by_cases hinit : next.initialized = 1
    · have := habove hinit
      rw [if_pos hinit]
      omega
    · rw [if_neg hinit]
      omega
  have hlength := (List.subperm_of_subset hnodup hsubset).length_le
  rw [List.length_map, List.length_range'] at hlength
  omega

theorem orphans_ne_nil (hw : Window db state) {next : State}
    (hshrinks : next.initialized = 1 → next.lastBlockNumber < state.lastBlockNumber) :
    orphanedRows .bitcoin next db ≠ [] := by
  obtain ⟨b, hb, _⟩ := hw.tip
  obtain ⟨hcanonical, hnetwork, hheight⟩ := mem_blocksAt.mp hb
  refine List.ne_nil_of_mem (a := b) ?_
  unfold orphanedRows
  rw [List.mem_insertionSort, List.mem_filter, decide_eq_true_eq]
  refine ⟨hcanonical, hnetwork, fun hinit => ?_⟩
  rw [hheight]
  exact hshrinks hinit

/-- A reset that stays inside the window and the bound is a rollback that goes through. -/
theorem reset_ready (hw : Window db state) {ancestor : Option Nat} {hash : String} {revision : Nat}
    (hrevision : state.revision < revision)
    (hlow : ∀ h, ancestor = some h → state.startBlock ≤ h ∧ h < state.lastBlockNumber)
    (hhash : ∀ h, ancestor = some h → ∃ b ∈ blocksAt h db, b.blockHash = hash)
    (hempty : ancestor = none → hash = "")
    (hbound : discarded state (reset state ancestor hash revision head now) ≤ 10000) :
    Ready .bitcoin state (reset state ancestor hash revision head now) db := by
  have hnetwork : state.networkId = .bitcoin := by
    rw [← hw.current]
    exact currentState_networkId _ _
  have hvalid : ∀ row ∈ orphanedRows .bitcoin (reset state ancestor hash revision head now) db,
      validateBlockRow row = .ok () := by
    intro row hrow
    obtain ⟨hcanonical, hbitcoin, _⟩ := mem_orphanedRows hrow
    exact hw.valid row.blockNumber row (mem_blocksAt.mpr ⟨hcanonical, hbitcoin, rfl⟩)
  cases hancestor : ancestor with
  | none =>
    rw [hancestor] at hbound hvalid
    have hblank := hempty hancestor
    refine ⟨⟨hnetwork, hnetwork⟩, hw.identity, hw.current, hrevision, hw.initialized, Or.inl rfl,
      hw.snapshot, ?_, ?_, ?_, orphans_bounded hw hbound (Nat.zero_le 1), hvalid, orphans_ne_nil hw ?_⟩
    · rw [hblank]
      rfl
    · intro h
      cases h
    · intro h
      cases h
    · intro h
      cases h
  | some h =>
    rw [hancestor] at hbound hvalid
    obtain ⟨hstart, hlt⟩ := hlow h hancestor
    obtain ⟨b, hb, rfl⟩ := hhash h hancestor
    obtain ⟨hcanonical, hbitcoin, hheight⟩ := mem_blocksAt.mp hb
    have hsnapshot : snapshotFromState (reset state (some h) b.blockHash revision head now) =
        .ok (reset state (some h) b.blockHash revision head now) := by
      have hok := (hash_of_valid (hw.valid _ b hb)).1
      rw [hbitcoin] at hok
      have hinit : (reset state (some h) b.blockHash revision head now).initialized = 1 := rfl
      unfold snapshotFromState
      rw [if_neg (by omega), if_pos hinit, if_pos]
      refine ⟨Nat.zero_lt_of_lt hrevision, hstart, ?_⟩
      show canonicalHash state.networkId b.blockHash = true
      rw [hnetwork]
      exact hok
    exact ⟨⟨hnetwork, hnetwork⟩, hw.identity, hw.current, hrevision, hw.initialized, Or.inr hlt,
      hw.snapshot, hsnapshot, fun _ => rfl, fun _ => ⟨b, hcanonical, hbitcoin, hheight, rfl⟩,
      orphans_bounded hw hbound (Nat.le_refl 1), hvalid, orphans_ne_nil hw fun _ => hlt⟩

/-! ## Runs -/

theorem revision_returns (h : ¬ Exhausted db state now) :
    Returns (dbNextRevision state.revision now) db [] (revisionAfter db state now) := by
  have hadd : checkedAdd (max (max state.revision (min (now * 1000) (u64Size - 1)))
      (writtenRevision .bitcoin db)) 3 = some (revisionAfter db state now) := if_pos (Nat.lt_of_not_le h)
  unfold dbNextRevision nextRevision
  refine (read_returns _).next ?_
  rw [hadd]
  rfl

theorem revision_fails (h : Exhausted db state now) :
    (dbNextRevision state.revision now).exec db = ([], .error "warehouse revision exhausted") := by
  have hadd : checkedAdd (max (max state.revision (min (now * 1000) (u64Size - 1)))
      (writtenRevision .bitcoin db)) 3 = none := if_neg (Nat.not_lt_of_le h)
  unfold dbNextRevision nextRevision
  rw [exec_read, hadd]
  rfl

theorem lt_revisionAfter : state.revision < revisionAfter db state now := by
  unfold revisionAfter
  omega

theorem reconcile_settled (hw : Window db state) (hrpc : ∀ h ≤ head, rpc h = .ok (chain h))
    (hhead : state.lastBlockNumber ≤ head) (hsame : chain state.lastBlockNumber = state.lastBlockHash) :
    (reconcile rpc state depth head now).exec db = ([], .ok state) := by
  have htip : tipAgrees rpc state head = .ok true := by
    unfold tipAgrees
    rw [if_pos hhead, hrpc _ hhead, hsame]
    show Except.ok (decide (state.lastBlockHash = state.lastBlockHash)) = _
    rw [decide_eq_true rfl]
  unfold reconcile
  rw [if_neg (by rw [hw.initialized]; decide), htip]
  rfl

/-- A search that runs leaves its outcome to `resetTo`. -/
theorem reconcile_searched (hw : Window db state) (hrpc : ∀ h ≤ head, rpc h = .ok (chain h))
    (hhead : state.lastBlockNumber ≤ head) (hne : chain state.lastBlockNumber ≠ state.lastBlockHash)
    {ancestor : Option Nat} (hfound : Returns (findAncestor rpc (floorOf state depth)
      (state.lastBlockNumber + 1 - floorOf state depth)) db [] ancestor) :
    (reconcile rpc state depth head now).exec db = (resetTo rpc state depth head now ancestor).exec db := by
  have htip : tipAgrees rpc state head = .ok false := by
    unfold tipAgrees
    rw [if_pos hhead, hrpc _ hhead]
    show Except.ok (decide (chain state.lastBlockNumber = state.lastBlockHash)) = _
    rw [decide_eq_false hne]
  unfold reconcile
  rw [if_neg (by rw [hw.initialized]; decide), htip]
  show (findAncestor rpc (floorOf state depth) (min state.lastBlockNumber head + 1 - floorOf state depth) >>=
    fun ancestor => resetTo rpc state depth head now ancestor).exec db = _
  unfold Returns at hfound
  rw [Nat.min_eq_left hhead, exec_bind, hfound]
  rfl

theorem resetTo_publishes {ancestor : Option Nat} {hash : String}
    (hdeep : ancestor.isSome ∨ state.lastBlockNumber - state.startBlock < depth)
    (hfree : ¬ Exhausted db state now)
    (hhash : (match ancestor with
      | some height => rpc height
      | none => .ok "") = .ok hash)
    (hready : Ready .bitcoin state (reset state ancestor hash (revisionAfter db state now) head now) db) :
    Publishes (resetTo rpc state depth head now ancestor) db
      (reset state ancestor hash (revisionAfter db state now) head now) := by
  refine ⟨_, ?_, hready.published⟩
  unfold resetTo
  refine (ensure_returns hdeep).next ((revision_returns hfree).next ?_)
  rw [hhash]
  refine (lift_returns _).next ?_
  rw [← List.append_nil (tombstoneInserts _ _ _ _ ++ _)]
  exact hready.publish.then rfl

/-- The search over the bounded window. -/
theorem search_window (hw : Window db state) (hrpc : ∀ h ≤ head, rpc h = .ok (chain h))
    (hhead : state.lastBlockNumber ≤ head) (depth : Nat) :
    (∃ h, Greatest db chain (floorOf state depth) state.lastBlockNumber h ∧
      Returns (findAncestor rpc (floorOf state depth)
        (state.lastBlockNumber + 1 - floorOf state depth)) db [] (some h)) ∨
    (∀ h, floorOf state depth ≤ h → h ≤ state.lastBlockNumber → ¬ Agrees db chain h) ∧
      Returns (findAncestor rpc (floorOf state depth)
        (state.lastBlockNumber + 1 - floorOf state depth)) db [] none := by
  have hfloor : floorOf state depth ≤ state.lastBlockNumber := by
    have := hw.range
    unfold floorOf
    omega
  have htop : floorOf state depth + (state.lastBlockNumber + 1 - floorOf state depth) - 1 =
      state.lastBlockNumber := by omega
  have hanswers : ∀ h, h < floorOf state depth + (state.lastBlockNumber + 1 - floorOf state depth) →
      rpc h = .ok (chain h) := fun h hh => hrpc h (by omega)
  rcases findAncestor_returns hw.valid hanswers with ⟨h, hbest, hfound⟩ | ⟨hnone, hfound⟩
  · rw [htop] at hbest
    exact Or.inl ⟨h, hbest, hfound⟩
  · exact Or.inr ⟨fun h hlow hhigh => hnone h hlow (by omega), hfound⟩

theorem Greatest.unique {floor top h k : Nat} (hh : Greatest db chain floor top h)
    (hk : Greatest db chain floor top k) : h = k := by
  rcases Nat.lt_trichotomy h k with hlt | heq | hgt
  · exact absurd hk.agrees (hh.above k hlt hk.high)
  · exact heq
  · exact absurd hh.agrees (hk.above h hgt hh.high)

theorem Window.tip_disagrees (hw : Window db state) (hne : chain state.lastBlockNumber ≠ state.lastBlockHash) :
    ¬ Agrees db chain state.lastBlockNumber := by
  rintro ⟨b, hb, hhash⟩
  obtain ⟨c, hc, htip, _⟩ := hw.tip
  rw [blocksAt_unique hb hc, htip] at hhash
  exact hne hhash.symm

theorem reconcile_found (hw : Window db state) (hrpc : ∀ h ≤ head, rpc h = .ok (chain h))
    (hhead : state.lastBlockNumber ≤ head) (hdepth : depth ≤ 10000)
    (hne : chain state.lastBlockNumber ≠ state.lastBlockHash) (hfree : ¬ Exhausted db state now) {h : Nat}
    (hbest : Greatest db chain (floorOf state depth) state.lastBlockNumber h) :
    Publishes (reconcile rpc state depth head now) db
      (reset state (some h) (chain h) (revisionAfter db state now) head now) := by
  have hfound : Returns (findAncestor rpc (floorOf state depth)
      (state.lastBlockNumber + 1 - floorOf state depth)) db [] (some h) := by
    rcases search_window hw hrpc hhead depth with ⟨k, hk, hfound⟩ | ⟨hnone, _⟩
    · rw [hbest.unique hk]
      exact hfound
    · exact absurd hbest.agrees (hnone h hbest.low hbest.high)
  have hlow := hbest.low
  have hhigh := hbest.high
  unfold floorOf at hlow
  have hlt : h < state.lastBlockNumber := by
    refine Nat.lt_of_le_of_ne hhigh fun heq => hw.tip_disagrees hne ?_
    rw [← heq]
    exact hbest.agrees
  have hready : Ready .bitcoin state
      (reset state (some h) (chain h) (revisionAfter db state now) head now) db := by
    refine reset_ready hw lt_revisionAfter ?_ ?_ ?_ ?_
    · intro k hk
      rw [← Option.some.inj hk]
      exact ⟨by omega, hlt⟩
    · intro k hk
      rw [← Option.some.inj hk]
      exact hbest.agrees
    · intro hnone
      cases hnone
    · show state.lastBlockNumber - h ≤ 10000
      omega
  have hhash : (match some h with
      | some height => rpc height
      | none => .ok "") = .ok (chain h) := hrpc h (by omega)
  obtain ⟨ws, hreturns, hcurrent⟩ : Publishes (resetTo rpc state depth head now (some h)) db _ :=
    resetTo_publishes (Or.inl rfl) hfree hhash hready
  refine ⟨ws, ?_, hcurrent⟩
  unfold Returns
  rw [reconcile_searched hw hrpc hhead hne hfound]
  exact hreturns

theorem reconcile_empties (hw : Window db state) (hrpc : ∀ h ≤ head, rpc h = .ok (chain h))
    (hhead : state.lastBlockNumber ≤ head) (hdepth : depth ≤ 10000)
    (hne : chain state.lastBlockNumber ≠ state.lastBlockHash) (hfree : ¬ Exhausted db state now)
    (hnone : ∀ h, floorOf state depth ≤ h → h ≤ state.lastBlockNumber → ¬ Agrees db chain h)
    (hfits : state.lastBlockNumber - state.startBlock < depth) :
    Publishes (reconcile rpc state depth head now) db
      (reset state none "" (revisionAfter db state now) head now) := by
  have hfound := (search_window hw hrpc hhead depth).resolve_left
    fun ⟨h, hbest, _⟩ => hnone h hbest.low hbest.high hbest.agrees
  have hrange := hw.range
  have hready : Ready .bitcoin state (reset state none "" (revisionAfter db state now) head now) db := by
    refine reset_ready hw lt_revisionAfter ?_ ?_ (fun _ => rfl) ?_
    · intro k hk
      cases hk
    · intro k hk
      cases hk
    · show state.lastBlockNumber + 1 - state.startBlock ≤ 10000
      omega
  obtain ⟨ws, hreturns, hcurrent⟩ : Publishes (resetTo rpc state depth head now none) db _ :=
    resetTo_publishes (Or.inr hfits) hfree rfl hready
  refine ⟨ws, ?_, hcurrent⟩
  unfold Returns
  rw [reconcile_searched hw hrpc hhead hne hfound.2]
  exact hreturns

theorem reconcile_too_deep (hw : Window db state) (hrpc : ∀ h ≤ head, rpc h = .ok (chain h))
    (hhead : state.lastBlockNumber ≤ head) (hne : chain state.lastBlockNumber ≠ state.lastBlockHash)
    (hnone : ∀ h, floorOf state depth ≤ h → h ≤ state.lastBlockNumber → ¬ Agrees db chain h)
    (hdeep : depth ≤ state.lastBlockNumber - state.startBlock) :
    (reconcile rpc state depth head now).exec db = ([], .error tooDeep) := by
  have hfound := (search_window hw hrpc hhead depth).resolve_left
    fun ⟨h, hbest, _⟩ => hnone h hbest.low hbest.high hbest.agrees
  rw [reconcile_searched hw hrpc hhead hne hfound.2]
  unfold resetTo
  refine ensure_fails ?_
  rintro (hsome | hlt)
  · cases hsome
  · omega

theorem reconcile_exhausted (hw : Window db state) (hrpc : ∀ h ≤ head, rpc h = .ok (chain h))
    (hhead : state.lastBlockNumber ≤ head) (hne : chain state.lastBlockNumber ≠ state.lastBlockHash)
    (h : Exhausted db state now) :
    ∃ error, (reconcile rpc state depth head now).exec db = ([], .error error) := by
  obtain ⟨ancestor, hfound⟩ : ∃ ancestor, Returns (findAncestor rpc (floorOf state depth)
      (state.lastBlockNumber + 1 - floorOf state depth)) db [] ancestor := by
    rcases search_window hw hrpc hhead depth with ⟨k, _, hfound⟩ | ⟨_, hfound⟩
    · exact ⟨some k, hfound⟩
    · exact ⟨none, hfound⟩
  rw [reconcile_searched hw hrpc hhead hne hfound]
  unfold resetTo
  by_cases hdeep : ancestor.isSome ∨ state.lastBlockNumber - state.startBlock < depth
  · refine ⟨"warehouse revision exhausted", (ensure_returns hdeep).fails ?_⟩
    rw [exec_bind, revision_fails h]
  · exact ⟨tooDeep, ensure_fails hdeep⟩

/-- What a run gives up is within the bound and above every height that agrees. -/
theorem reconcile_discards (hw : Window db state) (hrpc : ∀ h ≤ head, rpc h = .ok (chain h))
    (hhead : state.lastBlockNumber ≤ head) (hdepth : depth ≤ 10000) {ws : List Insert} {next : State}
    (hreturns : Returns (reconcile rpc state depth head now) db ws next) :
    (next.initialized = 0 → state.lastBlockNumber - state.startBlock < depth ∧
      ∀ h, state.startBlock ≤ h → h ≤ state.lastBlockNumber → ¬ Agrees db chain h) ∧
    discarded state next ≤ depth ∧
    ∀ h, state.startBlock ≤ h → h ≤ state.lastBlockNumber → Agrees db chain h →
      next.initialized = 1 ∧ h ≤ next.lastBlockNumber := by
  have hrange := hw.range
  by_cases hsame : chain state.lastBlockNumber = state.lastBlockHash
  · have hstate : next = state := by
      unfold Returns at hreturns
      rw [reconcile_settled hw hrpc hhead hsame] at hreturns
      exact (Except.ok.inj (Prod.mk.inj hreturns).2).symm
    rw [hstate]
    refine ⟨fun hzero => ?_, ?_, fun h _ hhigh _ => ⟨hw.initialized, hhigh⟩⟩
    · rw [hw.initialized] at hzero
      cases hzero
    · unfold discarded
      rw [if_pos hw.initialized, Nat.sub_self]
      exact Nat.zero_le _
  by_cases hexhausted : Exhausted db state now
  · obtain ⟨error, hfails⟩ : ∃ error, (reconcile rpc state depth head now).exec db = ([], .error error) :=
      reconcile_exhausted hw hrpc hhead hsame hexhausted
    unfold Returns at hreturns
    rw [hfails] at hreturns
    cases (Prod.mk.inj hreturns).2
  rcases search_window hw hrpc hhead depth with ⟨k, hbest, _⟩ | ⟨hnone, _⟩
  · obtain ⟨_, hpublished, _⟩ := reconcile_found hw hrpc hhead hdepth hsame hexhausted hbest
    have hnext : next = reset state (some k) (chain k) (revisionAfter db state now) head now :=
      Except.ok.inj (Prod.mk.inj (hreturns.symm.trans hpublished)).2
    have hlow := hbest.low
    unfold floorOf at hlow
    rw [hnext]
    refine ⟨fun hzero => absurd hzero Nat.one_ne_zero, ?_, ?_⟩
    · show state.lastBlockNumber - k ≤ depth
      omega
    · intro h _ hhigh hagrees
      refine ⟨rfl, Nat.le_of_not_lt fun hlt => ?_⟩
      exact hbest.above h hlt hhigh hagrees
  · by_cases hfits : state.lastBlockNumber - state.startBlock < depth
    · obtain ⟨_, hpublished, _⟩ := reconcile_empties hw hrpc hhead hdepth hsame hexhausted hnone hfits
      have hnext : next = reset state none "" (revisionAfter db state now) head now :=
        Except.ok.inj (Prod.mk.inj (hreturns.symm.trans hpublished)).2
      have hall : ∀ h, state.startBlock ≤ h → h ≤ state.lastBlockNumber → ¬ Agrees db chain h := by
        intro h hlow hhigh
        refine hnone h ?_ hhigh
        unfold floorOf
        omega
      rw [hnext]
      refine ⟨fun _ => ⟨hfits, hall⟩, ?_, fun h hlow hhigh hagrees => absurd hagrees (hall h hlow hhigh)⟩
      show state.lastBlockNumber + 1 - state.startBlock ≤ depth
      omega
    · have hfails : (reconcile rpc state depth head now).exec db = ([], .error tooDeep) :=
        reconcile_too_deep hw hrpc hhead hsame hnone (Nat.le_of_not_lt hfits)
      unfold Returns at hreturns
      rw [hfails] at hreturns
      cases (Prod.mk.inj hreturns).2

/-! ## Results -/

/-- A window whose tip the node no longer has is reset to the greatest height within the bound that
still agrees, or as a whole when none agrees and it fits inside the bound. Anything else is refused
with nothing written, and a revision that does not fit is refused too. -/
theorem reconcile_greatest (hw : Window db state) (hrpc : ∀ h ≤ head, rpc h = .ok (chain h))
    (hhead : state.lastBlockNumber ≤ head) (hdepth : depth ≤ 10000) (now : Nat) :
    (chain state.lastBlockNumber = state.lastBlockHash →
      (reconcile rpc state depth head now).exec db = ([], .ok state)) ∧
    (chain state.lastBlockNumber ≠ state.lastBlockHash → ¬ Exhausted db state now →
      (∀ h, Greatest db chain (floorOf state depth) state.lastBlockNumber h →
        ∃ next, Publishes (reconcile rpc state depth head now) db next ∧ next.initialized = 1 ∧
          next.startBlock = state.startBlock ∧ next.lastBlockNumber = h ∧ next.lastBlockHash = chain h) ∧
      ((∀ h, floorOf state depth ≤ h → h ≤ state.lastBlockNumber → ¬ Agrees db chain h) →
        state.lastBlockNumber - state.startBlock < depth →
        ∃ next, Publishes (reconcile rpc state depth head now) db next ∧ next.initialized = 0)) ∧
    (chain state.lastBlockNumber ≠ state.lastBlockHash →
      (Exhausted db state now ∨ depth ≤ state.lastBlockNumber - state.startBlock ∧
        ∀ h, floorOf state depth ≤ h → h ≤ state.lastBlockNumber → ¬ Agrees db chain h) →
      ∃ error, (reconcile rpc state depth head now).exec db = ([], .error error)) ∧
    ∀ ws next, Returns (reconcile rpc state depth head now) db ws next →
      (next.initialized = 0 → state.lastBlockNumber - state.startBlock < depth ∧
        ∀ h, state.startBlock ≤ h → h ≤ state.lastBlockNumber → ¬ Agrees db chain h) ∧
      discarded state next ≤ depth ∧
      ∀ h, state.startBlock ≤ h → h ≤ state.lastBlockNumber → Agrees db chain h →
        next.initialized = 1 ∧ h ≤ next.lastBlockNumber := by
  refine ⟨reconcile_settled hw hrpc hhead, ?_, ?_, ?_⟩
  · intro hne hfree
    constructor
    · intro h hbest
      exact ⟨_, reconcile_found hw hrpc hhead hdepth hne hfree hbest, rfl, rfl, rfl, rfl⟩
    · intro hnone hfits
      exact ⟨_, reconcile_empties hw hrpc hhead hdepth hne hfree hnone hfits, rfl⟩
  · rintro hne (hexhausted | ⟨hdeep, hnone⟩)
    · exact reconcile_exhausted hw hrpc hhead hne hexhausted
    · exact ⟨tooDeep, reconcile_too_deep hw hrpc hhead hne hnone hdeep⟩
  · intro ws next hreturns
    exact reconcile_discards hw hrpc hhead hdepth hreturns

end

/-! Two stored blocks, the second of which the node has replaced. -/

def sampleState (revision : Nat) : State := ⟨.bitcoin, revision, 1, 0, 1, sampleHash 'b', 1, 1000⟩

def sampleDatabase (revision : Nat) : Database where
  identity := .bitcoin
  ingestedBlocks := [blockRow (sampleBlock 0 'a' '0' 2) [(.transactions, 1)],
    blockRow (sampleBlock 1 'b' 'a' 5) [(.transactions, 1)]]
  syncState := [sampleState revision]
  facts := []
  analysisPublications := []
  derived := []

def sampleChain (h : Nat) : String := sampleHash (if h = 0 then 'a' else 'c')

theorem sample_window {revision : Nat} (hrevision : revision = 10 ∨ revision = u64Size - 1) :
    Window (sampleDatabase revision) (sampleState revision) := by
  have hstored : ∀ h ≤ 1, (blocksAt h (sampleDatabase revision)).isEmpty = false := by
    intro h hh
    rcases hrevision with rfl | rfl <;> rcases Nat.le_one_iff_eq_zero_or_eq_one.mp hh with rfl | rfl <;>
      decide +kernel
  have hcurrent : currentState .bitcoin (sampleDatabase revision) = sampleState revision := by
    rcases hrevision with rfl | rfl
    · decide +kernel
    · decide +kernel
  refine ⟨rfl, hcurrent, rfl, Nat.zero_le 1, ?_, ?_⟩
  · intro h _ hhigh
    exact List.exists_mem_of_ne_nil _ (by simpa using hstored h hhigh)
  · intro h b hb
    obtain ⟨hmem, _⟩ := published_of_canonical (mem_blocksAt.mp hb).1
    rcases List.mem_pair.mp hmem with rfl | rfl
    · decide +kernel
    · decide +kernel

theorem sample_reset : ∃ next, Publishes (reconcile (fun h => .ok (sampleChain h)) (sampleState 10) 6 1 0)
    (sampleDatabase 10) next ∧ next.initialized = 1 ∧ next.startBlock = 0 ∧ next.lastBlockNumber = 0 ∧
    next.lastBlockHash = sampleChain 0 := by
  have hw := sample_window (Or.inl rfl)
  have hagrees : Agrees (sampleDatabase 10) sampleChain 0 := by
    refine agrees_iff.mpr ?_
    decide +kernel
  have hne : sampleChain 1 ≠ sampleHash 'b' := by decide +kernel
  have hbest : Greatest (sampleDatabase 10) sampleChain (floorOf (sampleState 10) 6) 1 0 := by
    refine ⟨by decide, by decide, hagrees, ?_⟩
    intro k hlow hhigh
    have hk : k = 1 := by omega
    rw [hk]
    exact hw.tip_disagrees hne
  have hfree : ¬ Exhausted (sampleDatabase 10) (sampleState 10) 0 := by
    show ¬ u64Size ≤ revisionAfter (sampleDatabase 10) (sampleState 10) 0
    decide +kernel
  exact ((reconcile_greatest hw (fun _ _ => rfl) (Nat.le_refl 1) (by decide) 0).2.1 hne hfree).1 0 hbest

/-- At the last revision of the column a window that agrees in part is not reset. -/
theorem last_revision_refused : ¬ ∀ (db : Database) (state : State) (rpc : Nat → Except String String)
    (chain : Nat → String) (head depth now h : Nat), Window db state →
    (∀ h ≤ head, rpc h = .ok (chain h)) → state.lastBlockNumber ≤ head → depth ≤ 10000 →
    chain state.lastBlockNumber ≠ state.lastBlockHash →
    Greatest db chain (floorOf state depth) state.lastBlockNumber h →
    ∃ next, Publishes (reconcile rpc state depth head now) db next ∧ next.initialized = 1 ∧
      next.lastBlockNumber = h := by
  intro hclaim
  have hw := sample_window (Or.inr rfl)
  have hne : sampleChain 1 ≠ sampleHash 'b' := by decide +kernel
  have hagrees : Agrees (sampleDatabase (u64Size - 1)) sampleChain 0 := by
    refine agrees_iff.mpr ?_
    decide +kernel
  have hbest : Greatest (sampleDatabase (u64Size - 1)) sampleChain (floorOf (sampleState (u64Size - 1)) 6) 1 0 := by
    refine ⟨by decide, by decide, hagrees, ?_⟩
    intro k hlow hhigh
    have hk : k = 1 := by omega
    rw [hk]
    exact hw.tip_disagrees hne
  obtain ⟨next, ⟨ws, hreturns, _⟩, _⟩ := hclaim _ _ (fun h => .ok (sampleChain h)) sampleChain 1 6 0 0 hw
    (fun _ _ => rfl) (Nat.le_refl 1) (by decide) hne hbest
  have hexhausted : Exhausted (sampleDatabase (u64Size - 1)) (sampleState (u64Size - 1)) 0 := by
    show u64Size ≤ revisionAfter (sampleDatabase (u64Size - 1)) (sampleState (u64Size - 1)) 0
    decide +kernel
  obtain ⟨error, hfails⟩ : ∃ error, (reconcile (fun h => .ok (sampleChain h)) (sampleState (u64Size - 1)) 6 1 0).exec
      (sampleDatabase (u64Size - 1)) = ([], .error error) :=
    reconcile_exhausted hw (fun _ _ => rfl) (Nat.le_refl 1) hne hexhausted
  unfold Returns at hreturns
  rw [hfails] at hreturns
  cases (Prod.mk.inj hreturns).2

end AmlReal.Bitcoin.Reconcile
