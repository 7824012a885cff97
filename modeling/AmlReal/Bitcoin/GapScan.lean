import AmlReal.Bitcoin.FailureHistory
import AmlReal.Bitcoin.StoredBlocks

/-! # Two judgements of a published height

`scan_gaps` passes over a range and carries the hash of the block before;
`healthy` looks one height up and asks for its predecessor. Both read the
canonical views of one warehouse. -/

namespace AmlReal.Bitcoin.GapScan
open AmlReal.Foundations.LatestRows AmlReal.Foundations.StoreProgram
open AmlReal.Foundations.StoreProgram.Program
open AmlReal.Foundations.Checks (bind_ok)
open AmlReal.Warehouse AmlReal.Warehouse.Values AmlReal.Warehouse.Tables AmlReal.Warehouse.Publication
open AmlReal.Warehouse.Operations AmlReal.Warehouse.Fence AmlReal.Bitcoin.Failures AmlReal.Bitcoin.StoredBlocks

/-! ## The code -/

/-- `from_state`, as far as the failure code reads it. -/
def fromState (state : State) : SyncState where
  initialized := state.initialized
  startHeight := state.startBlock
  tipHeight := state.lastBlockNumber
  tipHash := state.lastBlockHash
  revision := state.revision

/-- The rows of `aml_transactions_canonical` at a height. -/
def transactionsAt (height : Nat) (db : Database) : List (FactTable × FactRow) :=
  (factsCanonical db .transactions).filter fun f => f.2.networkId = .bitcoin ∧ f.2.blockNumber = height

/-- The count that `healthy` asks for. -/
def transactionCount (height : Nat) (hash : String) (db : Database) : Nat :=
  ((transactionsAt height db).filter fun f => f.2.blockHash = hash).length

/-- The block before has the hash that the row names, above the start. -/
def linked (height : Nat) (state : SyncState) (row : Tables.BlockRow) : Program Database Insert String Bool :=
  if height > state.startHeight then do
    let hash ← blockHash (height - 1)
    pure (decide (hash = some row.parentHash))
  else pure true

def healthy (height : Nat) (state : SyncState) : Program Database Insert String Bool :=
  if state.initialized = 0 ∨ height < state.startHeight ∨ height > state.tipHeight then pure false
  else do
    let rows ← read (blocksAt height)
    match rows.head? with
    | none => pure false
    | some row =>
      let count ← read (transactionCount height row.blockHash)
      if count ≠ row.transactionCount then pure false
      else do
        let linked ← linked height state row
        if linked = false then pure false
        else pure (decide (height ≠ state.tipHeight ∨ state.tipHash = row.blockHash))

/-- The canonical hash of a height. -/
def hashAt (height : Nat) (db : Database) : Option String := (blocksAt height db).head?.map (·.blockHash)

/-- What the scan reads of the warehouse. A height without transactions is in no group. -/
def published (db : Database) : Failures.Published where
  state := fromState (currentState .bitcoin db)
  blocks height := (blocksAt height db).head?.map fun b =>
    ⟨b.blockNumber, b.blockHash, b.parentHash, b.transactionCount⟩
  counts height := if transactionsAt height db = [] then none else some (transactionsAt height db).length
  blockHash height := hashAt height db
  revisionAfter := (currentState .bitcoin db).revision

/-- The scan has recorded a gap at the height. -/
def Flagged (ws : List (List Record)) (height : Nat) : Prop :=
  ∃ row ∈ ws.flatten, row.failureId = Failures.id height

/-- The two judge the row of the height differently: it has its transactions but no predecessor is
stored, or it has none to have and links to its predecessor. -/
def Skewed (db : Database) (height : Nat) : Prop :=
  ∃ b ∈ blocksAt height db, (transactionsAt height db).length = b.transactionCount ∧
    (0 < b.transactionCount ∧ (currentState .bitcoin db).startBlock < height ∧
        blocksAt (height - 1) db = [] ∨
      b.transactionCount = 0 ∧ ((currentState .bitcoin db).startBlock < height →
        ∃ p ∈ blocksAt (height - 1) db, p.blockHash = b.parentHash))

/-! ## One height -/

section
variable {db : Database} {height : Nat} {b : Tables.BlockRow}

theorem hashAt_eq_some {hash : String} :
    hashAt height db = some hash ↔ ∃ b ∈ blocksAt height db, b.blockHash = hash := by
  unfold hashAt
  rw [Option.map_eq_some_iff]
  simp only [head_blocksAt]

theorem hashAt_eq_none : hashAt height db = none ↔ blocksAt height db = [] := by
  unfold hashAt
  rw [Option.map_eq_none_iff, List.head?_eq_none_iff]

/-- The transactions of a height belong to its canonical block. -/
theorem transactionCount_eq (hb : b ∈ blocksAt height db) :
    transactionCount height b.blockHash db = (transactionsAt height db).length := by
  unfold transactionCount
  rw [List.filter_eq_self.mpr]
  intro f hf
  unfold transactionsAt factsCanonical at hf
  simp only [List.mem_filter, decide_eq_true_eq] at hf
  obtain ⟨⟨_, _, hany⟩, hnetwork, hheight⟩ := hf
  obtain ⟨c, hc, hmatch⟩ := List.any_eq_true.mp hany
  simp only [FactRow.ofBlock, decide_eq_true_eq] at hmatch
  obtain ⟨⟨hnetwork', hheight', hhash, _⟩, _⟩ := hmatch
  have hmem : c ∈ blocksAt height db :=
    mem_blocksAt.mpr ⟨hc, hnetwork'.symm.trans hnetwork, hheight'.symm.trans hheight⟩
  rw [decide_eq_true_eq, hhash, blocksAt_unique hmem hb]

/-- A canonical row at the tip has the published hash. -/
theorem tip_hash (hb : b ∈ blocksAt height db) :
    height ≠ (currentState .bitcoin db).lastBlockNumber ∨
      (currentState .bitcoin db).lastBlockHash = b.blockHash := by
  obtain ⟨hcanonical, hnetwork, hheight⟩ := mem_blocksAt.mp hb
  obtain ⟨_, _, _, htip⟩ := mem_canonical.mp hcanonical
  rw [hnetwork, hheight] at htip
  rcases htip with hlt | hhash
  · exact Or.inl (Nat.ne_of_lt hlt)
  · exact Or.inr hhash.symm

/-- The verdict of `healthy` inside the published range. -/
def Sound (db : Database) (height : Nat) : Prop :=
  ∃ b ∈ blocksAt height db, (transactionsAt height db).length = b.transactionCount ∧
    ((currentState .bitcoin db).startBlock < height →
      ∃ p ∈ blocksAt (height - 1) db, p.blockHash = b.parentHash)

theorem linked_returns (hvalid : ∀ h, Valid h db) (height : Nat) (b : Tables.BlockRow) :
    ∃ answer, Returns (linked height (fromState (currentState .bitcoin db)) b) db [] answer ∧
      (answer = true ↔ ((currentState .bitcoin db).startBlock < height →
        hashAt (height - 1) db = some b.parentHash)) := by
  unfold linked
  by_cases hstart : height > (fromState (currentState .bitcoin db)).startHeight
  · refine ⟨decide (hashAt (height - 1) db = some b.parentHash), ?_, ?_⟩
    · rw [if_pos hstart]
      exact (blockHash_returns (hvalid _)).next rfl
    · rw [decide_eq_true_eq]
      exact ⟨fun h _ => h, fun h => h hstart⟩
  · refine ⟨true, ?_, iff_of_true rfl fun h => absurd h hstart⟩
    rw [if_neg hstart]
    rfl

theorem healthy_returns (hvalid : ∀ h, Valid h db) (hinit : (currentState .bitcoin db).initialized = 1)
    (hlow : (currentState .bitcoin db).startBlock ≤ height)
    (hhigh : height ≤ (currentState .bitcoin db).lastBlockNumber) :
    ∃ verdict, Returns (healthy height (fromState (currentState .bitcoin db))) db [] verdict ∧
      (verdict = true ↔ Sound db height) := by
  have hrange : ¬ ((fromState (currentState .bitcoin db)).initialized = 0 ∨
      height < (fromState (currentState .bitcoin db)).startHeight ∨
      height > (fromState (currentState .bitcoin db)).tipHeight) := by
    show ¬ ((currentState .bitcoin db).initialized = 0 ∨
      height < (currentState .bitcoin db).startBlock ∨ height > (currentState .bitcoin db).lastBlockNumber)
    omega
  unfold healthy
  rw [if_neg hrange]
  cases hhead : (blocksAt height db).head? with
  | none =>
    refine ⟨false, (read_returns _).next ?_, iff_of_false Bool.false_ne_true ?_⟩
    · rw [hhead]
      rfl
    · rintro ⟨b, hb, _⟩
      rw [head_blocksAt.mpr hb] at hhead
      cases hhead
  | some b =>
    have hb : b ∈ blocksAt height db := head_blocksAt.mp hhead
    have hsound : Sound db height ↔ (transactionsAt height db).length = b.transactionCount ∧
        ((currentState .bitcoin db).startBlock < height → hashAt (height - 1) db = some b.parentHash) := by
      constructor
      · rintro ⟨c, hc, hcount, hlink⟩
        rw [blocksAt_unique hc hb] at hcount hlink
        exact ⟨hcount, fun h => hashAt_eq_some.mpr (hlink h)⟩
      · rintro ⟨hcount, hlink⟩
        exact ⟨b, hb, hcount, fun h => hashAt_eq_some.mp (hlink h)⟩
    rw [hsound, ← transactionCount_eq hb]
    by_cases hcount : transactionCount height b.blockHash db = b.transactionCount
    · obtain ⟨answer, hlink, hiff⟩ := linked_returns hvalid height b
      refine ⟨answer, (read_returns _).next ?_, ?_⟩
      · rw [hhead]
        refine (read_returns _).next ?_
        rw [if_neg (not_not.mpr hcount)]
        refine hlink.next ?_
        cases answer with
        | false => rfl
        | true =>
          have htip : decide (height ≠ (fromState (currentState .bitcoin db)).tipHeight ∨
              (fromState (currentState .bitcoin db)).tipHash = b.blockHash) = true :=
            decide_eq_true (tip_hash hb)
          show Returns (pure (decide (height ≠ (fromState (currentState .bitcoin db)).tipHeight ∨
            (fromState (currentState .bitcoin db)).tipHash = b.blockHash))) db [] true
          rw [htip]
          rfl
      · rw [hiff]
        exact ⟨fun h => ⟨hcount, h⟩, fun h => h.2⟩
    · refine ⟨false, (read_returns _).next ?_, iff_of_false Bool.false_ne_true fun h => hcount h.1⟩
      rw [hhead]
      refine (read_returns _).next ?_
      rw [if_pos hcount]
      rfl

/-- The hash that the scan carries to a height. -/
def carried (db : Database) (height : Nat) : Option String :=
  if (currentState .bitcoin db).startBlock < height then hashAt (height - 1) db else none

/-- The verdict of the scan inside the published range. -/
def Passed (db : Database) (height : Nat) : Prop :=
  ∃ b ∈ blocksAt height db, (transactionsAt height db).length = b.transactionCount ∧
    0 < b.transactionCount ∧ ((currentState .bitcoin db).startBlock < height →
      ∀ p ∈ blocksAt (height - 1) db, p.blockHash = b.parentHash)

theorem published_healthy : (published db).healthy (carried db height) height = true ↔ Passed db height := by
  have hcounts : ∀ n, (published db).counts height = some n ↔ (transactionsAt height db).length = n ∧ 0 < n := by
    intro n
    show (if transactionsAt height db = [] then none else some (transactionsAt height db).length) = some n ↔ _
    by_cases hnil : transactionsAt height db = []
    · rw [if_pos hnil, hnil]
      simp only [reduceCtorEq, List.length_nil, false_iff, not_and]
      omega
    · have hpos := List.length_pos_iff.mpr hnil
      rw [if_neg hnil, Option.some.injEq]
      exact ⟨fun h => ⟨h, h ▸ hpos⟩, fun h => h.1⟩
  have hcarried : ∀ hash, (carried db height).all (· = hash) = true ↔
      ((currentState .bitcoin db).startBlock < height → ∀ p ∈ blocksAt (height - 1) db, p.blockHash = hash) := by
    intro hash
    unfold carried
    by_cases hstart : (currentState .bitcoin db).startBlock < height
    · rw [if_pos hstart, Option.all_eq_true]
      constructor
      · intro h _ p hp
        exact of_decide_eq_true (h p.blockHash (hashAt_eq_some.mpr ⟨p, hp, rfl⟩))
      · intro h found hfound
        obtain ⟨p, hp, rfl⟩ := hashAt_eq_some.mp hfound
        exact decide_eq_true (h hstart p hp)
    · rw [if_neg hstart]
      exact iff_of_true rfl fun h => absurd h hstart
  unfold Published.healthy
  show ((Option.map _ _).any _) = true ↔ _
  rw [Option.any_map, Option.any_eq_true]
  constructor
  · rintro ⟨b, hb, h⟩
    obtain ⟨hcount, hparent, _⟩ := of_decide_eq_true h
    have hmem := head_blocksAt.mp hb
    obtain ⟨hlength, hpos⟩ := (hcounts _).mp hcount
    exact ⟨b, hmem, hlength, hpos, (hcarried _).mp hparent⟩
  · rintro ⟨b, hb, hlength, hpos, hparent⟩
    exact ⟨b, head_blocksAt.mpr hb, decide_eq_true
      ⟨(hcounts _).mpr ⟨hlength, hpos⟩, (hcarried _).mpr hparent, tip_hash hb⟩⟩

/-- The two verdicts differ exactly at a skewed height. -/
theorem verdicts_agree_iff : (Passed db height ↔ Sound db height) ↔ ¬ Skewed db height := by
  constructor
  · rintro hagree ⟨b, hb, hcount, ⟨hpos, hstart, hnone⟩ | ⟨hzero, hlink⟩⟩
    · have hpassed : Passed db height := by
        refine ⟨b, hb, hcount, hpos, fun _ p hp => ?_⟩
        rw [hnone] at hp
        cases hp
      obtain ⟨_, _, _, hlink⟩ := hagree.mp hpassed
      obtain ⟨p, hp, _⟩ := hlink hstart
      rw [hnone] at hp
      cases hp
    · obtain ⟨c, hc, _, hpos, _⟩ := hagree.mpr ⟨b, hb, hcount, hlink⟩
      rw [blocksAt_unique hc hb, hzero] at hpos
      omega
  · intro hskew
    constructor
    · rintro ⟨b, hb, hcount, hpos, hparent⟩
      refine ⟨b, hb, hcount, fun hstart => ?_⟩
      cases hrows : blocksAt (height - 1) db with
      | nil => exact absurd ⟨b, hb, hcount, Or.inl ⟨hpos, hstart, hrows⟩⟩ hskew
      | cons p rest =>
        refine ⟨p, List.mem_cons_self, hparent hstart p ?_⟩
        rw [hrows]
        exact List.mem_cons_self
    · rintro ⟨b, hb, hcount, hlink⟩
      refine ⟨b, hb, hcount, ?_, fun hstart p hp => ?_⟩
      · by_contra hzero
        exact hskew ⟨b, hb, hcount, Or.inr ⟨by omega, hlink⟩⟩
      · obtain ⟨q, hq, hhash⟩ := hlink hstart
        rw [blocksAt_unique hp hq]
        exact hhash

end

/-! ## The scan -/

/-- The gap rows name exactly the heights that do not pass. -/
theorem gapRows_flag {published : Failures.Published} {old : Nat → Option Record}
    {clock : Nat → Nat → Nat} {start count : Nat} {parent : Option String} {rows : List Record}
    (h : gapRows published old clock start count parent = .ok rows) {height : Nat} (hlow : start ≤ height)
    (hhigh : height < start + count) : (∃ row ∈ rows, row.blockNumber = height) ↔
      published.healthy (if height = start then parent
        else (published.blocks (height - 1)).map (·.blockHash)) height = false := by
  induction count generalizing start parent rows with
  | zero => omega
  | succ count ih =>
    have hnext : ∀ {rest : List Record}, gapRows published old clock (start + 1) count
        ((published.blocks start).map (·.blockHash)) = .ok rest → start ≠ height →
        ((∃ row ∈ rest, row.blockNumber = height) ↔ published.healthy (if height = start then parent
          else (published.blocks (height - 1)).map (·.blockHash)) height = false) := by
      intro rest hrest hne
      rw [ih hrest (by omega) (by omega), if_neg fun he : height = start => hne he.symm]
      by_cases hfirst : height = start + 1
      · rw [if_pos hfirst, hfirst]
        rfl
      · rw [if_neg hfirst]
    have hbelow : ∀ {rest : List Record}, gapRows published old clock (start + 1) count
        ((published.blocks start).map (·.blockHash)) = .ok rest → ¬ ∃ row ∈ rest, row.blockNumber = start := by
      rintro rest hrest ⟨row, hrow, hheight⟩
      have hlow := ((FailureHistory.gapRows_ok hrest).2 row hrow).1
      omega
    simp only [gapRows] at h
    by_cases hhealthy : published.healthy parent start = true
    · rw [if_pos hhealthy] at h
      by_cases hsame : start = height
      · rw [if_pos hsame.symm, ← hsame, hhealthy]
        exact iff_of_false (hbelow h) Bool.noConfusion
      · exact hnext h hsame
    · rw [if_neg hhealthy] at h
      obtain ⟨revision, _, h⟩ := bind_ok h
      obtain ⟨rest, hrest, h⟩ := bind_ok h
      obtain rfl := Except.ok.inj h
      by_cases hsame : start = height
      · rw [if_pos hsame.symm, ← hsame]
        exact iff_of_true ⟨_, List.mem_cons_self, rfl⟩ (Bool.eq_false_of_not_eq_true hhealthy)
      · rw [← hnext hrest hsame]
        constructor
        · rintro ⟨row, hrow, hheight⟩
          rcases List.mem_cons.mp hrow with rfl | hrow
          · exact absurd hheight hsame
          · exact ⟨row, hrow, hheight⟩
        · rintro ⟨row, hrow, hheight⟩
          exact ⟨row, List.mem_cons_of_mem _ hrow, hheight⟩

theorem save_returns {rows : List Record} {store : Store} {ws : List (List Record)} {u : Unit}
    (h : Returns (save rows) store ws u) : ws.flatten = rows := by
  unfold save at h
  obtain ⟨_, _, _, rfl, hvalid, h⟩ := h.bind
  obtain ⟨rfl, _⟩ := returns_lift hvalid
  obtain ⟨_, _, _, rfl, hread, h⟩ := h.bind
  obtain ⟨rfl, _⟩ := returns_read hread
  obtain ⟨_, _, _, rfl, hensure, h⟩ := h.bind
  obtain ⟨rfl, _⟩ := returns_ensure hensure
  have hchunks := returns_forM_write h
  rw [List.nil_append, List.nil_append, List.nil_append, hchunks, List.map_id']
  exact chunks_flatten (by decide) rows

section
variable {db : Database} {store : Store} {start stop maxBlocks : Nat} {clock : Nat → Nat → Nat}
  {ws : List (List Record)} {value : AmlReal.Foundations.Json.Value}

/-- A scan that returns stayed inside the published range and has flagged what does not pass. -/
theorem scan_flags (hscan : Returns (scanGaps (published db) start stop maxBlocks clock) store ws value) :
    (currentState .bitcoin db).initialized = 1 ∧ (currentState .bitcoin db).startBlock ≤ start ∧
      stop ≤ (currentState .bitcoin db).lastBlockNumber ∧
    ∀ height, start ≤ height → height ≤ stop → (Flagged ws height ↔ ¬ Passed db height) := by
  unfold scanGaps at hscan
  obtain ⟨_, _, _, rfl, hensure, h⟩ := hscan.bind
  obtain ⟨rfl, _, hle, _, _⟩ := returns_ensure hensure
  obtain ⟨_, _, _, rfl, hensure, h⟩ := h.bind
  obtain ⟨rfl, hinit, hstart, hstop⟩ := returns_ensure hensure
  obtain ⟨_, _, _, rfl, hread, h⟩ := h.bind
  obtain ⟨rfl, _⟩ := returns_read hread
  obtain ⟨_, rows, _, rfl, hlift, h⟩ := h.bind
  obtain ⟨rfl, hrows⟩ := returns_lift hlift
  obtain ⟨_, _, _, rfl, hensure, h⟩ := h.bind
  obtain ⟨rfl, _⟩ := returns_ensure hensure
  obtain ⟨first, _, rest, rfl, hsave, h⟩ := h.bind
  obtain ⟨rfl, _⟩ := returns_pure h
  have hflat := save_returns hsave
  refine ⟨hinit, hstart, hstop, fun height hlow hhigh => ?_⟩
  have hcarried : (if height = start then (if start > (currentState .bitcoin db).startBlock
      then hashAt (start - 1) db else none) else hashAt (height - 1) db) = carried db height := by
    unfold carried
    by_cases hfirst : height = start
    · rw [if_pos hfirst, hfirst]
    · have habove : (currentState .bitcoin db).startBlock < height := by
        have hlow' : (currentState .bitcoin db).startBlock ≤ start := hstart
        omega
      rw [if_neg hfirst, if_pos habove]
  have hblocks : ((published db).blocks (height - 1)).map (·.blockHash) = hashAt (height - 1) db := by
    show Option.map _ (Option.map _ _) = _
    rw [Option.map_map]
    rfl
  have hflag := gapRows_flag hrows hlow (show height < start + (stop - start + 1) by omega)
  rw [hblocks] at hflag
  have hverdict : (published db).healthy (carried db height) height = false ↔ ¬ Passed db height := by
    rw [← published_healthy, Bool.not_eq_true]
  rw [← hverdict, ← hcarried]
  refine Iff.trans ?_ hflag
  have hid : ∀ row ∈ rows, row.failureId = Failures.id row.blockNumber := by
    intro row hmem
    obtain ⟨_, _, _, _, _, _, _, heq, _⟩ := (FailureHistory.gapRows_ok hrows).2 row hmem
    rw [heq]
    rfl
  unfold Flagged
  simp only [List.nil_append, List.append_nil]
  rw [hflat]
  constructor
  · rintro ⟨row, hrow, hrowId⟩
    exact ⟨row, hrow, FailureHistory.id_injective ((hid row hrow).symm.trans hrowId)⟩
  · rintro ⟨row, hrow, rfl⟩
    exact ⟨row, hrow, hid row hrow⟩

theorem healthy_false (hvalid : ∀ h, Valid h db) (hinit : (currentState .bitcoin db).initialized = 1)
    {height : Nat} (hlow : (currentState .bitcoin db).startBlock ≤ height)
    (hhigh : height ≤ (currentState .bitcoin db).lastBlockNumber) :
    Returns (healthy height (fromState (currentState .bitcoin db))) db [] false ↔ ¬ Sound db height := by
  obtain ⟨verdict, hreturns, hiff⟩ := healthy_returns hvalid hinit hlow hhigh
  rw [← hiff, Bool.not_eq_true]
  constructor
  · intro h
    exact Except.ok.inj (Prod.mk.inj (hreturns.symm.trans h)).2
  · rintro rfl
    exact hreturns

/-- Over a scanned range the two judgements agree exactly when no height is skewed. -/
theorem scan_agrees_iff (hvalid : ∀ h, Valid h db)
    (hscan : Returns (scanGaps (published db) start stop maxBlocks clock) store ws value) :
    (∀ height, start ≤ height → height ≤ stop → (Flagged ws height ↔
      Returns (healthy height (fromState (currentState .bitcoin db))) db [] false)) ↔
    ∀ height, start ≤ height → height ≤ stop → ¬ Skewed db height := by
  obtain ⟨hinit, hstart, hstop, hflags⟩ := scan_flags hscan
  refine forall_congr' fun height => forall_congr' fun hlow => forall_congr' fun hhigh => ?_
  rw [hflags height hlow hhigh, healthy_false hvalid hinit (hstart.trans hlow) (hhigh.trans hstop), not_iff_not]
  exact verdicts_agree_iff

end

/-! A published range of two heights, for the blocks that are stored of it. -/

def sampleRange (blocks : List Block) : Database where
  identity := .bitcoin
  ingestedBlocks := blocks.map fun b => blockRow b [(.transactions, 1)]
  syncState := [⟨.bitcoin, 10, 1, 0, 1, sampleHash 'b', 1, 1000⟩]
  facts := blocks.flatMap fun b => (sampleFacts b).tables.flatMap fun (table, rows) => rows.map (table, ·)
  analysisPublications := []
  derived := []

def sampleFirst : Block := sampleBlock 0 'a' '0' 2

def sampleSecond : Block := sampleBlock 1 'b' 'a' 5

theorem sample_valid {blocks : List Block} (h : blocks ⊆ [sampleFirst, sampleSecond]) (height : Nat) :
    Valid height (sampleRange blocks) := by
  intro b hb
  obtain ⟨hmem, _⟩ := published_of_canonical (mem_blocksAt.mp hb).1
  obtain ⟨block, hblock, rfl⟩ := List.mem_map.mp hmem
  rcases List.mem_pair.mp (h hblock) with rfl | rfl
  · decide +kernel
  · decide +kernel

def sampleScan (blocks : List Block) (start : Nat) :=
  (scanGaps (published (sampleRange blocks)) start 1 2 fun _ _ => 0).exec (Store.empty Network.bitcoin.id)

theorem sampleScan_returns {blocks : List Block} {start : Nat} (h : (sampleScan blocks start).2.isOk = true) :
    ∃ value, Returns (scanGaps (published (sampleRange blocks)) start 1 2 fun _ _ => 0)
      (Store.empty Network.bitcoin.id) (sampleScan blocks start).1 value := by
  unfold sampleScan at h ⊢
  unfold Returns
  cases hexec : (scanGaps (published (sampleRange blocks)) start 1 2 fun _ _ => 0).exec
      (Store.empty Network.bitcoin.id) with
  | mk ws outcome =>
    rw [hexec] at h
    cases outcome with
    | error e => cases h
    | ok value => exact ⟨value, rfl⟩

theorem sample_scan_agrees : Flagged (sampleScan [sampleFirst, sampleSecond] 0).1 1 ↔
    Returns (healthy 1 (fromState (currentState .bitcoin (sampleRange [sampleFirst, sampleSecond]))))
      (sampleRange [sampleFirst, sampleSecond]) [] false := by
  obtain ⟨value, hscan⟩ := sampleScan_returns (show (sampleScan [sampleFirst, sampleSecond] 0).2.isOk = true
    by decide +kernel)
  refine (scan_agrees_iff (sample_valid (List.Subset.refl _)) hscan).mpr ?_ 1 (Nat.zero_le 1) (Nat.le_refl 1)
  rintro height - hhigh ⟨b, hb, _, ⟨_, hstart, hnone⟩ | ⟨hzero, _⟩⟩
  · have hlow : 0 < height := hstart
    obtain rfl : height = 1 := by omega
    exact absurd hnone (by decide +kernel)
  · obtain ⟨hmem, _⟩ := published_of_canonical (mem_blocksAt.mp hb).1
    rcases List.mem_pair.mp hmem with rfl | rfl
    · cases hzero
    · cases hzero

/-- A block whose predecessor is not stored passes the scan, and `healthy` refuses it. -/
theorem missing_predecessor_passes : ¬ ∀ (db : Database) (store : Store) (start stop maxBlocks : Nat)
    (clock : Nat → Nat → Nat) (ws : List (List Record)) (value : AmlReal.Foundations.Json.Value),
    (∀ h, Valid h db) → Returns (scanGaps (published db) start stop maxBlocks clock) store ws value →
    ∀ height, start ≤ height → height ≤ stop → (Flagged ws height ↔
      Returns (healthy height (fromState (currentState .bitcoin db))) db [] false) := by
  intro hclaim
  have hvalid := sample_valid (List.subset_cons_self sampleFirst [sampleSecond])
  obtain ⟨value, hscan⟩ := sampleScan_returns (show (sampleScan [sampleSecond] 1).2.isOk = true
    by decide +kernel)
  have hagree := hclaim _ _ _ _ _ _ _ _ hvalid hscan 1 (Nat.le_refl 1) (Nat.le_refl 1)
  obtain ⟨hinit, hlow, hhigh, hflags⟩ := scan_flags hscan
  rw [hflags 1 (Nat.le_refl 1) (Nat.le_refl 1), healthy_false hvalid hinit hlow hhigh, not_iff_not] at hagree
  refine verdicts_agree_iff.mp hagree ⟨blockRow sampleSecond [(.transactions, 1)], ?_, by decide +kernel, Or.inl ?_⟩
  · rw [← head_blocksAt]
    decide +kernel
  · decide +kernel

end AmlReal.Bitcoin.GapScan
