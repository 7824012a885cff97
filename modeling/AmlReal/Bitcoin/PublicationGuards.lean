import AmlReal.Bitcoin.IngestionLoop

/-! # What the ingestion loop publishes

Every insert of a run is looked at where it is made: a block is published on
top of the tip as it then is, within the bounds of the run and of the node that
served it, and past the gate of its height; the visible tip goes back on the
word of the primary alone. The rules of programs that run alone take the loop
apart, from its innermost insert outward. -/

namespace AmlReal.Bitcoin.PublicationGuards
open AmlReal.Foundations.Json AmlReal.Foundations.StoreProgram
open AmlReal.Foundations.StoreProgram.Program AmlReal.Foundations.SubStore
open AmlReal.Foundations.Interleaving
open AmlReal.Foundations.Checks (context context_ok bind_ok ensure_ok mem_of_mapM)
open AmlReal.Warehouse.Values AmlReal.Warehouse.Tables AmlReal.Warehouse.Publication
open AmlReal.Warehouse.Contents
open AmlReal.Bitcoin.Writer (writeBlock)
open AmlReal.Warehouse.Fence (currentState_publish)
open AmlReal.Bitcoin.Failures (Record Policy Stage Status)
open AmlReal.Bitcoin.IngestionLoop
open AmlReal.Warehouse.Operations (sampleHash sampleFacts)

/-! ## What is guarded -/

/-- The current failure record of a height. -/
def recordAt (height : Nat) (db : Failures.Store) : Option Record :=
  ((Failures.failuresCurrent db).filter fun r =>
    r.networkId = Network.bitcoin.id ∧ r.failureId = Failures.id height).getLast?

/-- The gate lets a height through that has this record, when asked at `now`. -/
def Passes (options : RunOptions) (now : Nat) (record : Option Record) : Prop :=
  ∀ row ∈ record, row.status = .resolved ∨
    row.status ≠ .gap ∧ row.status ≠ .deadLetter ∧ row.attempts < options.policy.maxAttempts ∧
      (options.once = false → row.nextAttemptUnixMs ≤ now)

/-- The next state publishes the served block on top of the tip. -/
structure Succeeds (config : IngestConfig) (options : RunOptions) (db : IngestionLoop.Store) (served : Served)
    (next : State) : Prop where
  initialized : next.initialized = 1
  height : next.lastBlockNumber = nextHeight config (tip db)
  hash : served.block["hash"].asStr = some next.lastBlockHash
  parent : (tip db).initialized = 1 → served.block["previousblockhash"].asStr = some (tip db).lastBlockHash
  confirmed : next.lastBlockNumber + config.confirmations ≤ served.head + 1
  last : ∀ last ∈ config.last, next.lastBlockNumber ≤ last
  gate : options.repairHeight = none →
    Passes options served.gateClock (recordAt next.lastBlockNumber db.failures)
  repair : ∀ height ∈ options.repairHeight, height ≤ next.lastBlockNumber

/-- The next state keeps the published blocks up to a height within the depth
bound, or none where all of them are within it. -/
def Rewinds (config : IngestConfig) (old next : State) : Prop :=
  old.initialized ≠ 0 ∧
    (next.initialized = 1 ∧ Reconcile.floorOf old config.reorgDepth ≤ next.lastBlockNumber ∧
        next.lastBlockNumber ≤ old.lastBlockNumber ∨
      next.initialized = 0 ∧ old.lastBlockNumber - old.startBlock < config.reorgDepth)

/-- The height is the published tip or stands below it, under this hash. -/
def Covered (db : Database) (height : Nat) (hash : String) : Prop :=
  (currentState .bitcoin db).initialized = 1 ∧ (currentState .bitcoin db).lastBlockNumber = height ∧
      (currentState .bitcoin db).lastBlockHash = hash ∨
    GapScan.hashAt height db = some hash

/-- A failure is resolved by the block that its height has. -/
def Settled (db : Database) (row : Record) : Prop :=
  row.status = .resolved → ∃ height hash, row.failureId = Failures.id height ∧
    (normalizeHash .bitcoin hash).toOption = row.blockHash ∧ Covered db height hash

def Guarded (config : IngestConfig) (options : RunOptions) (db : IngestionLoop.Store) : Write → Prop
  | .failures rows => ∀ row ∈ rows, Settled db.warehouse row
  | .publishing served w => ∀ next ∈ Insert.stateRows w, Succeeds config options db served next
  | .rewinding endpoint w => endpoint = 0 ∧ options.repairHeight = none ∧
      ∀ next ∈ Insert.stateRows w, Rewinds config (tip db) next

/-! ## The failure records -/

/-- What is saved satisfies `P`. -/
def Saving (P : Record → Prop) (_ : Failures.Store) (rows : List Record) : Prop := ∀ row ∈ rows, P row

section
variable {P : Record → Prop} {policy : Policy} {fs : Failures.Store}

theorem save_over {rows : List Record} (h : ∀ row ∈ rows, P row) :
    Alone (Saving P) (fun _ _ => True) (Failures.save rows) fs := by
  refine under_lift fun _ _ => alone_read (under_ensure fun _ => ?_)
  refine under_forM trivial fun chunk hchunk t _ => ?_
  refine alone_insert (fun row hrow => h row ?_) trivial
  rw [← chunks_flatten (by omega : 0 < 1000) rows]
  exact List.mem_flatten.mpr ⟨chunk, hchunk, hrow⟩

theorem save_one {row : Record} (h : P row) : Alone (Saving P) (fun _ _ => True) (Failures.save [row]) fs :=
  save_over (List.forall_mem_singleton.mpr h)

theorem current_reads {G : Failures.Store → List Record → Prop} (height : Nat) (fs : Failures.Store) :
    Alone G (fun record u => u = fs ∧ record = recordAt height fs) (Failures.current height) fs := by
  refine under_ensure fun _ => ?_
  rintro _ rfl _
  exact ⟨rfl, rfl⟩

theorem recordAt_id {height : Nat} {row : Record} (h : recordAt height fs = some row) :
    row.failureId = Failures.id height := by
  have hrow := (List.mem_filter.mp (List.mem_of_getLast? h)).2
  simp only [decide_eq_true_eq] at hrow
  exact hrow.2

/-- A failure is recorded as one that is left. -/
theorem record_over (hP : ∀ row : Record, row.status ≠ .resolved → P row) {height : Nat} {hash : Option String}
    {stage : Stage} {countAttempt : Bool} {clock : Nat → Nat} :
    Alone (Saving P) (fun _ _ => True) (Failures.record height hash stage policy countAttempt clock) fs := by
  refine under_lift fun _ _ => Under.bind ((current_reads height fs).weaken fun old u _ => ?_)
  refine under_lift fun attempts _ => under_lift fun hash _ => under_lift fun revision _ => ?_
  refine Under.bind ((save_one (hP _ ?_)).weaken fun _ _ _ => under_pure trivial)
  unfold Failures.failed
  split
  · exact fun h => by cases h
  · exact fun h => by cases h

/-- What the gate has to say of a height; it saves a failure only as one that is left. -/
theorem gate_over {options : RunOptions} (hP : ∀ row : Record, row.status ≠ .resolved → P row) (height : Nat)
    (clock : Nat → Nat) :
    Alone (Saving P) (fun reason u => reason = none → Passes options (clock 0) (recordAt height u))
      (Failures.gate height options.policy options.once clock) fs := by
  refine Under.bind ((current_reads height fs).weaken ?_)
  rintro record fs ⟨rfl, hrecord⟩
  cases record with
  | none =>
    intro _ row hrow
    rw [← hrecord] at hrow
    cases hrow
  | some row =>
    have hpass : ∀ hlet : row.status = .resolved ∨ row.status ≠ .gap ∧ row.status ≠ .deadLetter ∧
        row.attempts < options.policy.maxAttempts ∧
          (options.once = false → row.nextAttemptUnixMs ≤ clock 0),
        Passes options (clock 0) (recordAt height fs) := by
      intro hlet other hother
      rw [← hrecord] at hother
      obtain rfl := Option.some.inj hother
      exact hlet
    show Alone _ _ (if row.status = .resolved then _ else _) fs
    by_cases hresolved : row.status = .resolved
    · rw [if_pos hresolved]
      exact under_pure fun _ => hpass (Or.inl hresolved)
    rw [if_neg hresolved]
    by_cases hgap : row.status = .gap
    · rw [if_pos hgap]
      exact under_pure fun h => by cases h
    rw [if_neg hgap]
    by_cases hdead : row.status = .deadLetter
    · rw [if_pos hdead]
      exact under_pure fun h => by cases h
    rw [if_neg hdead]
    by_cases hattempts : row.attempts ≥ options.policy.maxAttempts
    · rw [if_pos hattempts]
      refine under_lift fun revision _ => Under.bind ((save_one (hP _ fun h => ?_)).weaken fun _ _ _ => ?_)
      · cases h
      · exact under_pure fun h => by cases h
    rw [if_neg hattempts]
    by_cases hdue : options.once = false ∧ row.nextAttemptUnixMs > clock 0
    · rw [if_pos hdue]
      exact under_pure fun h => by cases h
    · rw [if_neg hdue]
      refine under_pure fun _ => hpass (Or.inr ⟨hgap, hdead, by omega, fun hmode => ?_⟩)
      by_contra hlate
      exact hdue ⟨hmode, by omega⟩

/-- The record of a height is resolved with its hash. -/
theorem resolved_over {height : Nat} {hash : String} {countAttempt : Bool} {clock : Nat → Nat}
    (hP : ∀ row : Record, row.failureId = Failures.id height →
      (normalizeHash .bitcoin hash).toOption = row.blockHash → P row) :
    Alone (Saving P) (fun _ _ => True) (Failures.resolved height hash countAttempt clock) fs := by
  refine Under.bind ((current_reads height fs).weaken ?_)
  rintro record fs ⟨rfl, hrecord⟩
  cases record with
  | none => exact under_pure trivial
  | some row =>
    have hid := recordAt_id hrecord.symm
    refine under_when (fun _ => ?_) fun _ => trivial
    refine under_lift fun hash hhash => under_lift fun attempts _ => under_lift fun revision _ => ?_
    refine save_one (hP _ hid ?_)
    rw [hhash]
    rfl

theorem recoverInterrupted_over (hP : ∀ row : Record, row.status ≠ .resolved → P row) {clock : Nat → Nat} :
    Alone (Saving P) (fun _ _ => True) (Failures.recoverInterrupted policy clock) fs := by
  refine alone_read (under_lift fun rows hrows => save_over fun row hrow => hP row ?_)
  obtain ⟨old, _, hold⟩ := mem_of_mapM hrows row hrow
  obtain ⟨revision, _, hold⟩ := bind_ok hold
  cases hold
  show (if _ then _ else _) ≠ Status.resolved
  split
  · exact fun h => by cases h
  · exact fun h => by cases h

theorem settlePublished_over {state : Failures.SyncState} {blockHash : Nat → Option String} {clock : Nat → Nat}
    (hP : ∀ height hash, blockHash height = some hash → ∀ row : Record, row.failureId = Failures.id height →
      (normalizeHash .bitcoin hash).toOption = row.blockHash → P row) :
    Alone (Saving P) (fun _ _ => True) (Failures.settlePublished state blockHash clock) fs := by
  refine under_when (fun _ => alone_read ?_) fun _ => trivial
  refine under_forM trivial fun row _ t _ => ?_
  obtain ⟨row, i⟩ := row
  dsimp only
  cases hhash : blockHash row.blockNumber with
  | none => exact under_pure trivial
  | some hash => exact resolved_over (hP _ _ hhash)

end

/-! ## Publications of the warehouse -/

/-- The insert leaves the state alone. -/
def Silent (w : Insert) : Prop := Insert.stateRows w = []

theorem silent_insert {ρ : Type} {validate : ρ → Except String Unit} {network : ρ → Network}
    {chunk : List ρ → Insert} (h : ∀ rows, Silent (chunk rows)) (rows : List ρ) :
    Only Silent (Warehouse.Publication.insert validate network chunk rows) := by
  have hidentity : ∀ networks, Only Silent (insertIdentity networks) := by
    intro networks
    cases networks with
    | nil => exact only_pure ()
    | cons first rest => exact (only_ensure _ _).bind fun _ => (only_read _).bind fun _ => only_ensure _ _
  exact (only_lift _).bind fun _ => (hidentity _).bind fun _ => Only.forM (fun rows => only_write (h rows)) _

theorem silent_blocks (rows : List BlockRow) : Only Silent (insertBlocks rows) :=
  silent_insert (fun rows => show Insert.stateRows (.blocks rows) = [] from rfl) rows

theorem silent_facts (block : Block) (table : FactTable) (rows : List FactRow) :
    Only Silent (facts block table rows) :=
  (only_lift _).bind fun _ =>
    silent_insert (fun rows => show Insert.stateRows (.facts table rows) = [] from rfl) rows

theorem silent_reserve (block : Block) : Only Silent (reserve block) :=
  (only_ensure _ _).bind fun _ => ((only_read _).bind fun _ => only_ensure _ _).bind fun _ => silent_blocks _

theorem silent_complete (block : Block) (counts : List (FactTable × Nat)) :
    Only Silent (complete block counts) := by
  refine (only_ensure _ _).bind fun _ => (only_ensure _ _).bind fun _ => (only_lift _).bind fun _ => ?_
  exact (Only.forM (fun _ => (only_read _).bind fun _ => only_ensure _ _) _).bind fun _ => silent_blocks _

theorem silent_orphanSuffix (network : Network) (previous next : State) :
    Only Silent (orphanSuffix network previous next) :=
  (only_read _).bind fun _ => (only_ensure _ _).bind fun _ => (only_lift _).bind fun _ =>
    (only_ensure _ _).bind fun _ => silent_blocks _

theorem silent_checkTip (network : Network) (previous next : State) :
    Only Silent (checkTip network previous next) :=
  (only_ensure _ _).bind fun _ => (only_read _).bind fun _ => (only_lift _).bind fun _ =>
    (only_ensure _ _).bind fun _ => ((only_ensure _ _).bind fun _ => only_ensure _ _).when _

/-- The states that inserts publish over the current one all satisfy `P`. -/
def Publishing (P : State → State → Prop) (db : Database) (w : Insert) : Prop :=
  ∀ next ∈ Insert.stateRows w, P (currentState .bitcoin db) next

section
variable {α β : Type} {P P' : State → State → Prop} {db : Database}

theorem Publishing.mono {w : Insert} (h : Publishing P db w) (himp : ∀ old next, P old next → P' old next) :
    Publishing P' db w := fun next hnext => himp _ _ (h next hnext)

/-- A part that leaves the state alone publishes nothing. -/
theorem alone_silent {p : Warehouse.Publication.Writer α} {f : α → Warehouse.Publication.Writer β} {Q : β → Database → Prop}
    (h : Only Silent p) (hrest : ∀ a u, Alone (Publishing P) Q (f a) u) :
    Alone (Publishing P) Q (p >>= f) db := by
  refine Under.bind ((alone_only (K := fun _ => True) h trivial ?_).weaken fun a u _ => hrest a u)
  intro u w hw _
  refine ⟨fun next hnext => ?_, trivial⟩
  rw [hw] at hnext
  cases hnext

theorem alone_insertState (next : State) (h : P (currentState .bitcoin db) next)
    (hnetwork : next.networkId = .bitcoin) (hnew : (currentState .bitcoin db).revision < next.revision) :
    Alone (Publishing P) (fun _ u => currentState .bitcoin u = next) (insertState [next]) db := by
  refine under_lift fun _ _ => ?_
  refine Under.bind ((alone_quiet (AmlReal.Warehouse.Stages.insertIdentity_quiet _)
    (Q := fun _ u => u = db) fun _ _ => rfl).weaken ?_)
  rintro _ db rfl
  have htip : currentState .bitcoin (replay db [.syncState [next]]) = next :=
    currentState_publish rfl hnetwork hnew
  refine alone_write ?_ (under_pure htip)
  intro row hrow
  obtain rfl := List.mem_singleton.mp hrow
  exact h

/-- The fence is inserted over the state that the publication started from. -/
theorem publish_over {previous next : State} (h : P previous next) :
    Alone (Publishing P) (fun _ u => currentState .bitcoin u = next) (publish .bitcoin previous next) db := by
  refine under_ensure fun hnetwork => under_ensure fun hrevision => alone_read (under_ensure fun _ => ?_)
  refine under_lift fun _ _ => under_lift fun _ _ => under_lift fun _ _ => ?_
  refine alone_silent ((silent_checkTip _ _ _).when _) fun _ u => ?_
  refine alone_silent ((silent_orphanSuffix _ _ _).when _) fun _ v => ?_
  refine alone_read (under_ensure fun hfound => alone_insertState next ?_ hnetwork.1 ?_)
  · rw [hfound]
    exact h
  · rw [hfound]
    exact hrevision.1

theorem writeBlock_over {previous : State} {source : Writer.LegacyBlock} {evidence : Writer.MappedEvidence}
    {input : Writer.WriteContext} {now : Nat}
    (h : ∀ next : State, next.initialized = 1 → next.lastBlockNumber = source.blockHeight →
      next.lastBlockHash = source.blockHash → P previous next) :
    Alone (Publishing P) (fun next u => currentState .bitcoin u = next ∧ next.initialized = 1)
      (writeBlock previous source evidence input now) db := by
  refine under_lift fun _ _ => under_lift fun _ _ => under_ensure fun _ => under_ensure fun _ => ?_
  refine alone_silent ((only_read _).bind fun _ => only_lift _) fun revision _ => ?_
  refine under_lift fun millis _ => under_lift fun batch _ => ?_
  refine alone_silent (silent_reserve _) fun _ _ => ?_
  refine alone_silent (Only.forM (fun _ => silent_facts _ _ _) _) fun _ _ => ?_
  refine alone_silent (Only.forM (fun _ => (only_read _).bind fun _ => only_ensure _ _) _) fun _ _ => ?_
  refine alone_silent (silent_complete _ _) fun _ _ => under_ensure fun _ => ?_
  exact Under.bind ((publish_over (h _ rfl rfl rfl)).weaken fun _ _ htip => under_pure ⟨htip, rfl⟩)

end

/-! ## The parts of the loop that touch the warehouse -/

section
variable {ρ : Type} {config : IngestConfig} {extract : Value → String → ρ → Except String Evidence}
  {rpc : Answers ρ} {P : State → State → Prop} {db : Database}

theorem commit_over {old : State} {block : Value} {resolved : ρ} {observed now : Nat}
    (h : ∀ next : State, next.initialized = 1 → next.lastBlockNumber = nextHeight config old →
      block["height"].asU64 = some next.lastBlockNumber → block["hash"].asStr = some next.lastBlockHash →
      (old.initialized = 1 → block["previousblockhash"].asStr = some old.lastBlockHash) → P old next) :
    Alone (Publishing P) (fun next u => currentState .bitcoin u = next ∧ next.initialized = 1)
      (commit extract config old block resolved observed now) db := by
  refine under_lift fun height hheight => under_ensure fun hnext => under_ensure fun hparent => ?_
  refine under_lift fun hash hhash => under_lift fun evidence _ => under_lift fun time _ => ?_
  refine under_ensure fun _ => writeBlock_over fun next hinit hnumber hnextHash => ?_
  refine h next hinit (hnumber.trans hnext) ?_ ?_ hparent
  · rw [hnumber]
    exact context_ok hheight
  · rw [hnextHash]
    exact context_ok hhash

/-- The search answers with a height of its range. -/
theorem findAncestor_range (rpc : Nat → Except String String) (floor count : Nat) :
    Alone (Publishing P) (fun found _ => ∀ h ∈ found, floor ≤ h ∧ h < floor + count)
      (Reconcile.findAncestor rpc floor count) db := by
  induction count generalizing db with
  | zero => exact under_pure fun h hh => by cases hh
  | succ count ih =>
    refine Under.bind ((alone_quiet (StoredBlocks.blockHash_quiet _) (Q := fun _ _ => True)
      fun _ _ => trivial).weaken fun stored u _ => under_lift fun hash _ => ?_)
    split
    · refine under_pure fun h hh => ?_
      obtain rfl := Option.some.inj hh
      omega
    · refine ih.weaken fun found _ hfound h hh => ?_
      have := hfound h hh
      omega

theorem reconcileWith_over {state : State} {head now : Nat} :
    Alone (Publishing (Rewinds config)) (fun _ _ => True)
      (reconcileWith rpc state config.reorgDepth head now) db := by
  unfold reconcileWith
  split
  · exact under_pure trivial
  · rename_i hinit
    refine under_lift fun same _ => ?_
    split
    · exact under_pure trivial
    · refine Under.bind ((findAncestor_range _ _ _).weaken fun found u hrange => ?_)
      refine under_ensure fun hbound => alone_silent ((only_read _).bind fun _ => only_lift _) fun revision _ => ?_
      refine under_lift fun hash _ => Under.bind ((publish_over ?_).weaken fun _ _ _ => under_pure trivial)
      refine ⟨hinit, ?_⟩
      cases found with
      | none => exact Or.inr ⟨rfl, hbound.resolve_left (by simp)⟩
      | some h =>
        obtain ⟨hlow, hhigh⟩ := hrange h rfl
        refine Or.inl ⟨rfl, hlow, ?_⟩
        show h ≤ state.lastBlockNumber
        omega

end

/-! ## The blocks of a window -/

/-- A height that the settings and the head of the node admit. -/
structure Admitted (config : IngestConfig) (options : RunOptions) (head height : Nat) : Prop where
  confirmed : height + config.confirmations ≤ head + 1
  last : ∀ last ∈ config.last, height ≤ last
  repair : ∀ selected ∈ options.repairHeight, selected ≤ height

theorem target_admits {config : IngestConfig} {head next last : Nat} (h : target config head next = some last) :
    next ≤ last ∧ last + config.confirmations ≤ head + 1 ∧ ∀ bound ∈ config.last, last ≤ bound := by
  unfold target at h
  obtain ⟨h, hnext⟩ := Option.filter_eq_some_iff.mp h
  obtain ⟨confirmed, hconfirmed, hlast⟩ := Option.map_eq_some_iff.mp h
  have htip : confirmed + config.confirmations ≤ head + 1 := by
    unfold confirmedTip at hconfirmed
    split at hconfirmed
    · cases hconfirmed
    · split at hconfirmed
      · cases hconfirmed
      · cases hconfirmed
        omega
  refine ⟨of_decide_eq_true hnext, ?_⟩
  cases hbound : config.last with
  | none =>
    rw [hbound] at hlast
    obtain rfl : confirmed = last := hlast
    exact ⟨htip, fun bound h => by cases h⟩
  | some bound =>
    rw [hbound] at hlast
    obtain rfl : min bound confirmed = last := hlast
    refine ⟨by omega, fun other hother => ?_⟩
    obtain rfl := Option.some.inj hother
    omega

theorem checkWindow_height {parent : Option Value} {fetched : List (Nat × String × Value)}
    (h : checkWindow parent fetched = .ok ()) : ∀ job ∈ fetched, job.2.2["height"].asU64 = some job.1 := by
  induction fetched generalizing parent with
  | nil => intro job hjob; cases hjob
  | cons first rest ih =>
    obtain ⟨_, hidentity, h⟩ := bind_ok h
    obtain ⟨_, _, h⟩ := bind_ok h
    exact List.forall_mem_cons.mpr ⟨(ensure_ok hidentity).1, ih h⟩

/-- Each block of a window carries a height of it. -/
theorem blocks_range {ρ : Type} {jsonBytes : Value → Nat} {rpc : Answers ρ} {start last limit concurrency : Nat}
    {found : List Value} (h : blocks jsonBytes rpc start last limit concurrency = .ok found) :
    ∀ block ∈ found, ∃ height, block["height"].asU64 = some height ∧ start ≤ height ∧ height ≤ last := by
  obtain ⟨_, hbounds, h⟩ := bind_ok h
  obtain ⟨values, _, h⟩ := bind_ok h
  obtain ⟨hashes, _, h⟩ := bind_ok h
  obtain ⟨fetched, hfetched, h⟩ := bind_ok h
  obtain ⟨_, _, h⟩ := bind_ok h
  obtain ⟨_, hwindow, h⟩ := bind_ok h
  obtain ⟨current, _, h⟩ := bind_ok h
  obtain ⟨_, _, h⟩ := bind_ok h
  cases h
  intro block hblock
  obtain ⟨job, hjob, rfl⟩ := List.mem_map.mp hblock
  refine ⟨job.1, checkWindow_height hwindow job hjob, ?_⟩
  obtain ⟨asked, hasked, hjob⟩ := mem_of_mapM hfetched job hjob
  obtain ⟨served, _, hjob⟩ := bind_ok hjob
  cases hjob
  have hrange := (List.of_mem_zip hasked).1
  have hbounds := ensure_ok hbounds
  rw [List.mem_range'_1] at hrange
  show start ≤ asked.1 ∧ asked.1 ≤ last
  omega

/-! ## One endpoint -/

section
variable {ρ α β : Type} {config : IngestConfig} {options : RunOptions}
  {extract : Value → String → ρ → Except String Evidence} {rpc : Answers ρ} {db : IngestionLoop.Store}

/-- Of what is saved about failures the guard asks no more than that it is settled. -/
def OnRecords (G : IngestionLoop.Store → Write → Prop) : Prop :=
  ∀ db rows, (∀ row ∈ rows, Settled db.warehouse row) → G db (.failures rows)

theorem guarded_onRecords : OnRecords (Guarded config options) := fun _ _ h => h

/-- What is saved about failures is judged by the warehouse as it was. -/
theorem alone_saving {G : IngestionLoop.Store → Write → Prop} (hG : OnRecords G) {P : Record → Prop}
    {p : Failures.Writer α} {Q : α → Failures.Store → Prop} (hp : Alone (Saving P) Q p db.failures)
    (hP : ∀ row, P row → Settled db.warehouse row) :
    Alone G (fun a u => Q a u.failures ∧ u.warehouse = db.warehouse) (onFailures p) db := by
  have hmark : Marks IngestionLoop.Store.failures Write.failures := fun _ _ => rfl
  refine alone_within hmark (K := fun t => t.warehouse = db.warehouse) (fun _ _ ht => ht) ?_ hp rfl
  intro t rows ht hrows
  refine hG t rows fun row hrow => ?_
  rw [ht]
  exact hP row (hrows row hrow)

theorem alone_failures {P : Record → Prop} {p : Failures.Writer α} {f : α → Owner β}
    {Q' : α → Failures.Store → Prop} {Q : β → IngestionLoop.Store → Prop}
    (hp : Alone (Saving P) Q' p db.failures) (hP : ∀ row, P row → Settled db.warehouse row)
    (h : ∀ a u, Q' a u.failures → u.warehouse = db.warehouse → Alone (Guarded config options) Q (f a) u) :
    Alone (Guarded config options) Q (onFailures p >>= f) db :=
  Under.bind ((alone_saving guarded_onRecords hp hP).weaken fun a u hQ => h a u hQ.1 hQ.2)

/-- A failure that is left needs no block. -/
theorem settled_of_left {row : Record} (h : row.status ≠ .resolved) : Settled db.warehouse row :=
  fun hresolved => absurd hresolved h

theorem alone_record {height : Nat} {hash : Option String} {stage : Stage} {countAttempt : Bool}
    {clock : Nat → Nat} {f : Record → Owner β} {Q : β → IngestionLoop.Store → Prop}
    (h : ∀ a u, Alone (Guarded config options) Q (f a) u) :
    Alone (Guarded config options) Q
      (onFailures (Failures.record height hash stage options.policy countAttempt clock) >>= f) db :=
  alone_failures (record_over fun _ hrow => hrow) (fun _ => settled_of_left) fun a u _ _ => h a u

/-- A failure that ends the run is recorded where that is possible. -/
theorem alone_fatal {height : Nat} {hash : Option String} {stage : Stage} {countAttempt : Bool}
    {clock : Nat → Nat} {error : String} {Q : β → IngestionLoop.Store → Prop} :
    Alone (Guarded config options) Q ((do
      let _ ← (onFailures (Failures.record height hash stage options.policy countAttempt clock)).attempt
      lift (.error error)) : Owner β) db := by
  refine Under.bind (under_attempt ?_ ((alone_saving guarded_onRecords (record_over fun _ hrow => hrow)
    fun _ => settled_of_left).weaken fun _ _ _ => trivial) fun _ _ _ => trivial)
  rintro s _ rfl
  exact Extends.refl s

/-- What is published into the warehouse is judged by the state it is published
over, beside the failure records as they were. -/
theorem alone_warehouse {P : State → State → Prop} {mark : Insert → Write} {p : Warehouse.Publication.Writer α}
    {f : Except String α → Owner β} {Q' : α → Database → Prop} {Q : β → IngestionLoop.Store → Prop}
    (hmark : Marks IngestionLoop.Store.warehouse mark)
    (hfailures : ∀ (t : IngestionLoop.Store) w, (LogStore.append t (mark w)).failures = t.failures)
    (hp : Alone (Publishing P) Q' p db.warehouse)
    (hguard : ∀ (t : IngestionLoop.Store) w, t.failures = db.failures → Publishing P t.warehouse w →
      Guarded config options t (mark w))
    (h : ∀ a u, Q' a u.warehouse → Alone (Guarded config options) Q (f (.ok a)) u)
    (herror : ∀ e u, Alone (Guarded config options) Q (f (.error e)) u) :
    Alone (Guarded config options) Q ((within Store.warehouse mark p).attempt >>= f) db := by
  have hwithin := alone_within hmark (K := fun t => t.failures = db.failures)
    (fun t w ht => (hfailures t w).trans ht) (fun t w ht hw => hguard t w ht hw) hp rfl
  refine Under.bind (under_attempt ?_ (hwithin.weaken fun a u hQ => h a u hQ.1) fun e u _ => herror e u)
  rintro s _ rfl
  exact Extends.refl s

theorem askGate_passes {position : Nat} {block : Value} {height : Nat} (hheight : block["height"].asU64 = some height) :
    Alone (Guarded config options) (fun reason u => reason = none → options.repairHeight = none →
      Passes options (rpc.clock (.gate position) 0) (recordAt height u.failures))
      (askGate options rpc position block) db := by
  unfold askGate
  split
  · refine under_lift fun asked hasked => ?_
    obtain rfl := Option.some.inj ((context_ok hasked).symm.trans hheight)
    refine alone_failures (gate_over (fun _ hrow => hrow) asked _) (fun _ => settled_of_left) ?_
    intro reason u hpass _
    cases reason with
    | none => exact under_pure fun _ _ => hpass rfl
    | some reason =>
      show Alone _ _ (if options.once = true then _ else _) u
      split
      · trivial
      · exact under_pure fun h => by cases h
  · rename_i hrepair
    exact under_pure fun _ h => absurd h hrepair

theorem commitOwned_guarded {index head position : Nat} {state : State} {block : Value} {resolved : ρ} {height : Nat}
    (hheight : block["height"].asU64 = some height) (hadmitted : Admitted config options head height)
    (hgate : options.repairHeight = none →
      Passes options (rpc.clock (.gate position) 0) (recordAt height db.failures)) :
    Alone (Guarded config options) (fun next u => tip u = next ∧ next.initialized = 1)
      (commitOwned extract config options rpc index head position state block resolved) db := by
  refine alone_warehouse (fun _ _ => rfl) (fun _ _ => rfl) (commit_over (P := fun old next =>
      next.initialized = 1 ∧ next.lastBlockNumber = nextHeight config old ∧ next.lastBlockNumber = height ∧
      block["hash"].asStr = some next.lastBlockHash ∧
      (old.initialized = 1 → block["previousblockhash"].asStr = some old.lastBlockHash)) ?_) ?_ ?_ ?_
  · intro next hinit hnext hnumber hhash hparent
    exact ⟨hinit, hnext, Option.some.inj (hnumber.symm.trans hheight), hhash, hparent⟩
  · intro t w hfailures hw next hnext
    obtain ⟨hinit, hnumber, hblock, hhash, hparent⟩ := hw next hnext
    refine ⟨hinit, hnumber, hhash, hparent, ?_, ?_, fun hrepair => ?_, ?_⟩
    · rw [hblock]
      exact hadmitted.confirmed
    · rw [hblock]
      exact hadmitted.last
    · rw [hblock, hfailures]
      exact hgate hrepair
    · rw [hblock]
      exact hadmitted.repair
  · exact fun next u htip => under_pure htip
  · exact fun error u => alone_fatal

theorem commitBlocks_guarded {index head position : Nat} {state : State} {window : List Value}
    (hwindow : ∀ block ∈ window, ∃ height, block["height"].asU64 = some height ∧ Admitted config options head height) :
    Alone (Guarded config options) (fun _ _ => True)
      (commitBlocks extract config options rpc index head position state window) db := by
  induction window generalizing position state db with
  | nil => exact under_pure trivial
  | cons block rest ih =>
    obtain ⟨⟨height, hheight, hadmitted⟩, hrest⟩ := List.forall_mem_cons.mp hwindow
    refine Under.bind ((askGate_passes hheight).weaken fun reason u hgate => ?_)
    cases reason with
    | some reason => exact under_pure trivial
    | none =>
      dsimp only
      cases prepare extract rpc state position block with
      | error error => exact under_lift fun _ _ => alone_record fun _ _ => under_pure trivial
      | ok resolved =>
        refine Under.bind ((commitOwned_guarded hheight hadmitted (hgate rfl)).weaken ?_)
        rintro next v ⟨htip, hinit⟩
        refine alone_failures (resolved_over fun row hid hhash => show Settled v.warehouse row from fun _ => ?_)
          (fun _ hrow => hrow) fun _ _ _ _ => ih hrest
        refine ⟨_, _, hid, hhash, Or.inl ?_⟩
        rw [← htip] at hinit ⊢
        exact ⟨hinit, rfl, rfl⟩

theorem reconcileOwned_guarded {index head : Nat} {state : State} :
    Alone (Guarded config options) (fun _ _ => True)
      (reconcileOwned config options rpc index head state) db := by
  unfold reconcileOwned
  split
  · rename_i hprimary
    refine alone_warehouse (fun _ _ => rfl) (fun _ _ => rfl) reconcileWith_over ?_ ?_ ?_
    · exact fun t w _ hw => ⟨hprimary.1, hprimary.2, hw⟩
    · exact fun _ _ _ => under_pure trivial
    · exact fun error u => alone_fatal
  · exact under_pure trivial

variable {tuning : PipelineConfig} {jsonBytes : Value → Nat}

theorem tryEndpoint_guarded {round : Round ρ} {preference : Preference} {index : Nat} :
    Alone (Guarded config options) (fun _ _ => True)
      (tryEndpoint extract config options tuning jsonBytes round preference index) db := by
  refine alone_read (under_ensure fun _ => ?_)
  split
  · exact under_pure trivial
  split
  · exact alone_record fun _ _ => under_pure trivial
  rename_i head _
  refine Under.bind (reconcileOwned_guarded.weaken fun state u _ => under_ensure fun hselected => ?_)
  split
  · exact under_pure trivial
  rename_i last htarget
  obtain ⟨hnext, hconfirmed, hlast⟩ := target_admits htarget
  split
  · exact alone_record fun _ _ => under_pure trivial
  rename_i window hblocks
  refine Under.bind ((commitBlocks_guarded fun block hblock => ?_).weaken fun outcome v _ => ?_)
  · obtain ⟨height, hheight, hlow, hhigh⟩ := blocks_range hblocks block hblock
    refine ⟨height, hheight, by omega, fun bound hbound => ?_, fun selected hrepair => ?_⟩
    · exact Nat.le_trans hhigh (hlast bound hbound)
    · rw [hselected selected hrepair]
      exact hlow
  · cases outcome with
    | committed => exact under_pure trivial
    | waiting => exact under_pure trivial
    | sourceFailed error => exact under_pure trivial

/-! ## Runs -/

theorem tryEndpoints_guarded {round : Round ρ} {preference : Preference} {lastError : Option String}
    {order : List Nat} :
    Alone (Guarded config options) (fun _ _ => True)
      (tryEndpoints extract config options tuning jsonBytes round preference lastError order) db := by
  induction order generalizing lastError db with
  | nil =>
    unfold tryEndpoints
    split
    · trivial
    · exact under_pure trivial
  | cons index rest ih =>
    refine Under.bind (tryEndpoint_guarded.weaken fun turn u _ => ?_)
    cases turn with
    | finished => exact under_pure trivial
    | nextPass preference => exact under_pure trivial
    | nextSource error => exact ih

theorem askFrontier_guarded {round : Round ρ} :
    Alone (Guarded config options) (fun _ _ => True) (askFrontier config options round) db := by
  unfold askFrontier
  split
  · refine alone_read ?_
    split
    · exact under_pure trivial
    split
    · refine alone_failures (gate_over (fun _ hrow => hrow) _ _) (fun _ => settled_of_left) ?_
      intro reason u _ _
      cases reason with
      | none => exact under_pure trivial
      | some reason =>
        show Alone _ _ (if options.once = true then _ else _) u
        split
        · trivial
        · exact under_pure trivial
    · exact under_pure trivial
  · exact under_pure trivial

theorem passes_guarded {endpoints : Nat} {preference : Preference} {rounds : List (Round ρ)} :
    Alone (Guarded config options) (fun _ _ => True)
      (passes extract config options tuning jsonBytes endpoints preference rounds) db := by
  induction rounds generalizing preference db with
  | nil => exact under_pure trivial
  | cons round rounds ih =>
    have hpass : Alone (Guarded config options) (fun _ _ => True)
        (pass extract config options tuning jsonBytes endpoints preference round) db := by
      refine Under.bind (askFrontier_guarded.weaken fun frontier u _ => ?_)
      cases frontier with
      | finished => exact under_pure trivial
      | waiting => exact under_pure trivial
      | free => exact tryEndpoints_guarded
    refine Under.bind (hpass.weaken fun next u _ => ?_)
    cases next with
    | none => exact under_pure trivial
    | some preference => exact ih

theorem settle_guarded {opening : Opening} :
    Alone (Guarded config options) (fun _ _ => True) (settle options opening) db := by
  refine alone_failures (recoverInterrupted_over fun _ hrow => hrow) (fun _ => settled_of_left) ?_
  intro _ u _ _
  refine alone_read ((alone_saving guarded_onRecords (settlePublished_over (P := Settled u.warehouse) ?_)
    fun _ hrow => hrow).weaken fun _ _ _ => trivial)
  exact fun height hash hstored row hid hhash _ => ⟨height, hash, hid, hhash, Or.inr hstored⟩

theorem runOwned_guarded {endpoints : Nat} {opening : Opening} {rounds : List (Round ρ)} :
    Alone (Guarded config options) (fun _ _ => True)
      (runOwned extract config options tuning jsonBytes endpoints opening rounds) db := by
  refine under_lift fun _ _ => under_lift fun _ _ => under_ensure fun _ => ?_
  refine under_lift fun _ _ => under_lift fun _ _ => Under.bind ?_
  exact (under_when (fun _ => settle_guarded) fun _ => trivial).weaken fun _ _ _ => passes_guarded

end

/-- Whatever a run inserts is guarded where it is inserted. -/
theorem publications_guarded {ρ : Type} (extract : Value → String → ρ → Except String Evidence)
    (config : IngestConfig) (options : RunOptions) (tuning : PipelineConfig) (jsonBytes : Value → Nat)
    (endpoints : Nat) (opening : Opening) (rounds : List (Round ρ)) (db : IngestionLoop.Store)
    {before : List Write} {w : Write}
    (h : Writes (runOwned extract config options tuning jsonBytes endpoints opening rounds) db (before ++ [w])) :
    Guarded config options (replay db before) w :=
  (runOwned_guarded.allowedAlong h).last

/-! One pass on an empty warehouse, with a node that has the first block. -/

def sampleJson (height : Nat) (digit parent : Char) : Value :=
  .object [("height", .ofNat height), ("hash", .string (sampleHash digit)),
    ("previousblockhash", .string (sampleHash parent)), ("time", .ofNat 1)]

def sampleNode (height : Nat) (digit parent : Char) : Answers Unit where
  validateChain := .ok ()
  height := .ok height
  tipHash := .ok (sampleHash parent)
  reconcileTip _ := .ok (sampleHash parent)
  reconcileSearch _ := .ok (sampleHash parent)
  reconcileReset _ := .ok (sampleHash parent)
  hashes heights := .ok (heights.map fun _ => .string (sampleHash digit))
  block _ := .ok (sampleJson height digit parent)
  hashesAfter heights := .ok (heights.map fun _ => .string (sampleHash digit))
  resolve _ _ := .ok ()
  blockHash _ := .ok (sampleHash digit)
  clock _ _ := 1

def sampleEvidence (_ : Value) (_ : String) (_ : Unit) : Except String Evidence :=
  .ok ⟨1, fun _ => .ok (), fun block => .ok (sampleFacts block)⟩

def sampleConfig : IngestConfig := ⟨5, none, 1, 6, 2⟩

def sampleTuning : PipelineConfig := ⟨1, 1, 1, 1, 1, 1024, 1⟩

def sampleOpening : Opening := ⟨.ok (), .ok (), fun _ => 1, fun _ => 1⟩

def sampleRound : Round Unit := ⟨fun _ => 1, 1, 1, fun _ => sampleNode 5 'a' '0'⟩

def sampleRun : Owner Bool :=
  runOwned sampleEvidence sampleConfig ⟨true, none, ⟨3, 1⟩⟩ sampleTuning (fun _ => 1) 1 sampleOpening [sampleRound]

def sampleStore : IngestionLoop.Store := ⟨Database.empty .bitcoin, .empty Network.bitcoin.id⟩

theorem first_block_guarded : Succeeds sampleConfig ⟨true, none, ⟨3, 1⟩⟩
    (replay sampleStore ((sampleRun.exec sampleStore).1.take 3)) ⟨0, 5, 1, sampleJson 5 'a' '0'⟩
    ⟨.bitcoin, 1003, 1, 5, 5, sampleHash 'a', 5, 1⟩ :=
  publications_guarded _ _ _ _ _ _ _ _ _
    (show (sampleRun.exec sampleStore).1.take 3 ++ [.publishing ⟨0, 5, 1, sampleJson 5 'a' '0'⟩
      (.syncState [⟨.bitcoin, 1003, 1, 5, 5, sampleHash 'a', 5, 1⟩])] <+: (sampleRun.exec sampleStore).1
      by decide +kernel) _ List.mem_cons_self

end AmlReal.Bitcoin.PublicationGuards
