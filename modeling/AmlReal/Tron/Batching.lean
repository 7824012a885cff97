import Mathlib.Data.List.Infix
import Mathlib.Logic.Function.Basic

/-! # TRON batching

`GenericBatcher` (`batcher/generic.rs`), the five batchers of the loader with
`flush_batches` (`loader.rs`), and the workers and the block loop that use them
(`fetcher.rs`). A section under the `rows` mutex is one step. `flush_lock` is
held over several steps, so the lock carries its holder and how far the holder
is. An insert may fail at any point until `end` has returned. -/

namespace AmlReal.Tron.Batching

/-! ## One batcher -/

/-- How far the holder of `flush_lock` is in `flush_pending`. -/
inductive Stage (α : Type) where
  | locked
  | inserting (batch : List α)
  | inserted (batch : List α)
  | returning (ok : Bool)

/-- The last three fields record what happened; no step reads them. -/
structure GenericBatcher (κ α : Type) where
  rows : List α
  flushLock : Option (κ × Stage α)
  pushed : List α
  ended : List (List α)
  drained : List α

section
variable {κ α : Type}

def GenericBatcher.create : GenericBatcher κ α := ⟨[], none, [], [], []⟩

/-- The `rows` section of `push`. -/
def GenericBatcher.push (b : GenericBatcher κ α) (row : α) : GenericBatcher κ α :=
  { b with rows := b.rows ++ [row], pushed := b.pushed ++ [row] }

def GenericBatcher.shouldFlush (b : GenericBatcher κ α) (maxBatchSize : Nat) : Bool :=
  maxBatchSize ≤ b.rows.length

def GenericBatcher.at (b : GenericBatcher κ α) (caller : κ) (stage : Stage α) : GenericBatcher κ α :=
  { b with flushLock := some (caller, stage) }

def GenericBatcher.release (b : GenericBatcher κ α) : GenericBatcher κ α := { b with flushLock := none }

/-- One step of a call of `flush_pending`. -/
inductive FlushPending (caller : κ) : GenericBatcher κ α → GenericBatcher κ α → Prop
  | lock {b : GenericBatcher κ α} : b.flushLock = none → FlushPending caller b (b.at caller .locked)
  | nothing {b : GenericBatcher κ α} : b.flushLock = some (caller, .locked) → b.rows = [] →
      FlushPending caller b (b.at caller (.returning true))
  | snapshot {b : GenericBatcher κ α} : b.flushLock = some (caller, .locked) → b.rows ≠ [] →
      FlushPending caller b (b.at caller (.inserting b.rows))
  | insertFails {b : GenericBatcher κ α} {batch : List α} :
      b.flushLock = some (caller, .inserting batch) →
        FlushPending caller b (b.at caller (.returning false))
  | insertEnds {b : GenericBatcher κ α} {batch : List α} :
      b.flushLock = some (caller, .inserting batch) →
        FlushPending caller b { b.at caller (.inserted batch) with ended := b.ended ++ [batch] }
  | drain {b : GenericBatcher κ α} {batch : List α} :
      b.flushLock = some (caller, .inserted batch) →
        FlushPending caller b { b.at caller (.returning true) with
          rows := b.rows.drop batch.length
          drained := b.drained ++ b.rows.take batch.length }

/-- The number of pushed rows that a successful insert covers. -/
def GenericBatcher.covered (b : GenericBatcher κ α) : Nat := b.ended.flatten.length

def GenericBatcher.uncovered (b : GenericBatcher κ α) : List α := b.pushed.drop b.covered

/-- The rows of an insert that has ended and is not drained yet. -/
def GenericBatcher.undrained (b : GenericBatcher κ α) : List α :=
  match b.flushLock with
  | some (_, .inserted batch) => batch
  | _ => []

/-- The rows of the insert that is being sent. -/
def GenericBatcher.inFlight (b : GenericBatcher κ α) : List α :=
  match b.flushLock with
  | some (_, .inserting batch) => batch
  | _ => []

/-- Successful inserts cover the first pushed rows, each once. The buffer is
the rows of an undrained insert, then the uncovered rows; only uncovered rows
are being sent. -/
structure Accounted (b : GenericBatcher κ α) : Prop where
  pushed : b.pushed = b.ended.flatten ++ b.uncovered
  rows : b.rows = b.undrained ++ b.uncovered
  drained : b.drained ++ b.undrained = b.ended.flatten
  inFlight : b.inFlight <+: b.uncovered

theorem uncovered_of_pushed {b : GenericBatcher κ α} (rest : List α)
    (h : b.pushed = b.ended.flatten ++ rest) : b.uncovered = rest := by
  unfold GenericBatcher.uncovered GenericBatcher.covered
  rw [h, List.drop_left]

theorem accounted_of {b : GenericBatcher κ α} (rest : List α)
    (hpushed : b.pushed = b.ended.flatten ++ rest) (hrows : b.rows = b.undrained ++ rest)
    (hdrained : b.drained ++ b.undrained = b.ended.flatten) (hflight : b.inFlight <+: rest) :
    Accounted b := by
  have hrest := uncovered_of_pushed rest hpushed
  exact ⟨hrest ▸ hpushed, hrest ▸ hrows, hdrained, hrest ▸ hflight⟩

theorem accounted_create : Accounted (GenericBatcher.create : GenericBatcher κ α) :=
  accounted_of [] rfl rfl rfl (List.prefix_refl _)

theorem Accounted.push {b : GenericBatcher κ α} (h : Accounted b) (row : α) :
    Accounted (b.push row) := by
  refine accounted_of (b.uncovered ++ [row]) ?_ ?_ h.drained ?_
  · show b.pushed ++ [row] = b.ended.flatten ++ (b.uncovered ++ [row])
    rw [← List.append_assoc, ← h.pushed]
  · show b.rows ++ [row] = b.undrained ++ (b.uncovered ++ [row])
    rw [← List.append_assoc, ← h.rows]
  · exact h.inFlight.trans (List.prefix_append _ _)

/-- The lock changes hands or moves on while nothing is undrained. -/
theorem Accounted.moved {b next : GenericBatcher κ α} (h : Accounted b)
    (hnext : next = { b with flushLock := next.flushLock }) (hbefore : b.undrained = [])
    (hafter : next.undrained = []) (hflight : next.inFlight <+: b.uncovered) : Accounted next := by
  have hrows : b.rows = [] ++ b.uncovered := hbefore ▸ h.rows
  have hdrained : b.drained ++ [] = b.ended.flatten := hbefore ▸ h.drained
  refine accounted_of b.uncovered ?_ ?_ ?_ hflight
  · rw [hnext]
    exact h.pushed
  · rw [hafter, hnext]
    exact hrows
  · rw [hafter, hnext]
    exact hdrained

theorem Accounted.release {b : GenericBatcher κ α} {caller : κ} {ok : Bool} (h : Accounted b)
    (hlock : b.flushLock = some (caller, .returning ok)) : Accounted b.release :=
  h.moved rfl (by simp [GenericBatcher.undrained, hlock]) rfl List.nil_prefix

theorem Accounted.flush {b next : GenericBatcher κ α} {caller : κ} (h : Accounted b)
    (hstep : FlushPending caller b next) : Accounted next := by
  cases hstep with
  | lock hlock =>
    exact h.moved rfl (by simp [GenericBatcher.undrained, hlock]) rfl List.nil_prefix
  | nothing hlock _ =>
    exact h.moved rfl (by simp [GenericBatcher.undrained, hlock]) rfl List.nil_prefix
  | snapshot hlock _ =>
    have hnone : b.undrained = [] := by simp [GenericBatcher.undrained, hlock]
    have hrows : b.rows = b.uncovered := by simpa [hnone] using h.rows
    refine h.moved rfl hnone rfl ?_
    show b.rows <+: b.uncovered
    rw [hrows]
  | insertFails hlock =>
    exact h.moved rfl (by simp [GenericBatcher.undrained, hlock]) rfl List.nil_prefix
  | insertEnds hlock =>
    rename_i batch
    have hnone : b.undrained = [] := by simp [GenericBatcher.undrained, hlock]
    have hsent : b.inFlight = batch := by simp [GenericBatcher.inFlight, hlock]
    obtain ⟨rest, hrest⟩ := hsent ▸ h.inFlight
    have hended : (b.ended ++ [batch]).flatten = b.ended.flatten ++ batch := by simp
    refine accounted_of rest ?_ ?_ ?_ List.nil_prefix
    · show b.pushed = (b.ended ++ [batch]).flatten ++ rest
      rw [hended, List.append_assoc, hrest, ← h.pushed]
    · show b.rows = batch ++ rest
      rw [hrest]
      simpa [hnone] using h.rows
    · show b.drained ++ batch = (b.ended ++ [batch]).flatten
      rw [hended, ← h.drained, hnone, List.append_nil]
  | drain hlock =>
    rename_i batch
    have hbatch : b.undrained = batch := by simp [GenericBatcher.undrained, hlock]
    have hrows : b.rows = batch ++ b.uncovered := hbatch ▸ h.rows
    refine accounted_of b.uncovered h.pushed ?_ ?_ List.nil_prefix
    · show b.rows.drop batch.length = [] ++ b.uncovered
      rw [hrows, List.drop_left, List.nil_append]
    · show (b.drained ++ b.rows.take batch.length) ++ [] = b.ended.flatten
      rw [hrows, List.take_left, List.append_nil, ← hbatch, h.drained]

/-- What a flush does to the rows pushed so far: they stay, and no cover is lost. -/
theorem flush_covered {b next : GenericBatcher κ α} {caller : κ} (hstep : FlushPending caller b next) :
    next.pushed = b.pushed ∧ b.covered ≤ next.covered := by
  cases hstep with
  | insertEnds hlock =>
    refine ⟨rfl, ?_⟩
    simp [GenericBatcher.covered]
  | _ => exact ⟨rfl, Nat.le_refl _⟩

end

/-! ## The block loop -/

/-- The rows of every table name their block. -/
structure Row (α : Type) where
  blockNumber : Nat
  content : α

inductive Table where
  | transactions
  | addressRelationships
  | semanticAmlEvents
  | tokenMetadataDiscoveries
  | transactionFeatures
  deriving DecidableEq

/-- The order of `flush_batches`. -/
def flushBatches : List Table :=
  [.transactions, .addressRelationships, .semanticAmlEvents, .tokenMetadataDiscoveries,
    .transactionFeatures]

inductive Caller where
  | worker (id : Nat)
  | flushTask
  | blockLoop
  deriving DecidableEq

/-- A `process_tx` with the rows it has yet to push. -/
structure Worker (α : Type) where
  id : Nat
  blockNumber : Nat
  remaining : List (Table × α)
  flushing : Option Table

/-- Where `fetch_tron_with_options` is; `flushing` names the block to record
after the tables, if there is one. -/
inductive Position (α : Type) where
  | fetching
  | processing (blockNumber : Nat) (transactions : List (List (Table × α))) (failed : Bool)
  | flushing (recorded : Option Nat) (tables : List Table)
  | recording (blockNumber : Nat)

structure System (α : Type) where
  batchers : Table → GenericBatcher Caller (Row α)
  taskAwake : Table → Bool
  workers : List (Worker α)
  nextId : Nat
  position : Position α

/-- The settings, and the number of transactions of every finalized block. -/
structure Setting where
  maxBatchRows : Nat
  txWorkerConcurrency : Nat
  transactionCount : Nat → Nat

/-- Blocks without transactions and the genesis block are recorded at once. -/
def Setting.Processed (setting : Setting) (blockNumber : Nat) : Prop :=
  blockNumber ≠ 0 ∧ setting.transactionCount blockNumber ≠ 0

section
variable {α : Type}

def System.start : System α := ⟨fun _ => .create, fun _ => false, [], 0, .fetching⟩

def System.setBatcher (s : System α) (table : Table) (b : GenericBatcher Caller (Row α)) : System α :=
  { s with batchers := Function.update s.batchers table b }

/-- The callers of `flush_pending` of a table. -/
def System.Calls (s : System α) (table : Table) : Caller → Prop
  | .worker id => ∃ worker ∈ s.workers, worker.id = id ∧ worker.flushing = some table
  | .flushTask => s.taskAwake table = true
  | .blockLoop => ∃ recorded rest, s.position = .flushing recorded (table :: rest)

inductive Step (setting : Setting) : System α → System α → Prop
  | startBlock {s : System α} {blockNumber : Nat} {transactions : List (List (Table × α))} :
      s.position = .fetching → setting.Processed blockNumber →
        transactions.length = setting.transactionCount blockNumber →
        Step setting s { s with position := .processing blockNumber transactions false }
  | emptyBlock {s : System α} {blockNumber : Nat} :
      s.position = .fetching → ¬setting.Processed blockNumber →
        Step setting s { s with position := .recording blockNumber }
  | launch {s : System α} {blockNumber : Nat} {transaction : List (Table × α)}
      {rest : List (List (Table × α))} {failed : Bool} :
      s.position = .processing blockNumber (transaction :: rest) failed →
        s.workers.length < setting.txWorkerConcurrency →
        Step setting s { s with
          workers := ⟨s.nextId, blockNumber, transaction, none⟩ :: s.workers
          nextId := s.nextId + 1
          position := .processing blockNumber rest failed }
  | push {s : System α} {before after : List (Worker α)} {id blockNumber : Nat} {table : Table}
      {content : α} {remaining : List (Table × α)} :
      s.workers = before ++ ⟨id, blockNumber, (table, content) :: remaining, none⟩ :: after →
        Step setting s { s.setBatcher table ((s.batchers table).push ⟨blockNumber, content⟩) with
          workers := before ++ ⟨id, blockNumber, remaining,
            if ((s.batchers table).push ⟨blockNumber, content⟩).shouldFlush setting.maxBatchRows
            then some table else none⟩ :: after }
  | pushFlushed {s : System α} {before after : List (Worker α)} {id blockNumber : Nat} {table : Table}
      {remaining : List (Table × α)} :
      s.workers = before ++ ⟨id, blockNumber, remaining, some table⟩ :: after →
        (s.batchers table).flushLock = some (.worker id, .returning true) →
        Step setting s { s.setBatcher table (s.batchers table).release with
          workers := before ++ ⟨id, blockNumber, remaining, none⟩ :: after }
  | pushFails {s : System α} {before after : List (Worker α)} {id blockNumber block : Nat}
      {table : Table} {remaining : List (Table × α)} {transactions : List (List (Table × α))}
      {failed : Bool} :
      s.workers = before ++ ⟨id, blockNumber, remaining, some table⟩ :: after →
        (s.batchers table).flushLock = some (.worker id, .returning false) →
        s.position = .processing block transactions failed →
        Step setting s { s.setBatcher table (s.batchers table).release with
          workers := before ++ after
          position := .processing block transactions true }
  | processed {s : System α} {before after : List (Worker α)} {id blockNumber : Nat} :
      s.workers = before ++ ⟨id, blockNumber, [], none⟩ :: after →
        Step setting s { s with workers := before ++ after }
  /-- An error of `process_tx` that is not a flush's. -/
  | processFails {s : System α} {before after : List (Worker α)} {id blockNumber block : Nat}
      {remaining : List (Table × α)} {transactions : List (List (Table × α))} {failed : Bool} :
      s.workers = before ++ ⟨id, blockNumber, remaining, none⟩ :: after →
        s.position = .processing block transactions failed →
        Step setting s { s with
          workers := before ++ after
          position := .processing block transactions true }
  | collected {s : System α} {blockNumber : Nat} {failed : Bool} :
      s.position = .processing blockNumber [] failed → s.workers = [] →
        Step setting s { s with
          position := .flushing (if failed then none else some blockNumber) flushBatches }
  /-- `record_error` fails before the flush that follows failed transactions. -/
  | recordErrorFails {s : System α} {blockNumber : Nat} :
      s.position = .processing blockNumber [] true → s.workers = [] →
        Step setting s { s with position := .fetching }
  | tableFlushed {s : System α} {recorded : Option Nat} {table : Table} {rest : List Table} :
      s.position = .flushing recorded (table :: rest) →
        (s.batchers table).flushLock = some (.blockLoop, .returning true) →
        Step setting s { s.setBatcher table (s.batchers table).release with
          position := .flushing recorded rest }
  | flushFails {s : System α} {recorded : Option Nat} {table : Table} {rest : List Table} :
      s.position = .flushing recorded (table :: rest) →
        (s.batchers table).flushLock = some (.blockLoop, .returning false) →
        Step setting s { s.setBatcher table (s.batchers table).release with position := .fetching }
  | flushed {s : System α} {blockNumber : Nat} :
      s.position = .flushing (some blockNumber) [] →
        Step setting s { s with position := .recording blockNumber }
  | flushedOnly {s : System α} : s.position = .flushing none [] →
        Step setting s { s with position := .fetching }
  | recorded {s : System α} {blockNumber : Nat} : s.position = .recording blockNumber →
        Step setting s { s with position := .fetching }
  /-- The flush at the end of a call. -/
  | finish {s : System α} : s.position = .fetching →
        Step setting s { s with position := .flushing none flushBatches }
  | wake {s : System α} {table : Table} : s.taskAwake table = false →
        Step setting s { s with taskAwake := Function.update s.taskAwake table true }
  | taskReturns {s : System α} {table : Table} {ok : Bool} :
      (s.batchers table).flushLock = some (.flushTask, .returning ok) →
        Step setting s { s.setBatcher table (s.batchers table).release with
          taskAwake := Function.update s.taskAwake table false }
  | flushPending {s : System α} {table : Table} {caller : Caller}
      {next : GenericBatcher Caller (Row α)} :
      s.Calls table caller → FlushPending caller (s.batchers table) next →
        Step setting s (s.setBatcher table next)

inductive Reachable (setting : Setting) : System α → Prop
  | start : Reachable setting .start
  | step {s next : System α} : Reachable setting s → Step setting s next → Reachable setting next

/-! ## Every step keeps the account -/

/-- Every pushed row of the block is covered by a successful insert. -/
def CoversBlock (b : GenericBatcher Caller (Row α)) (blockNumber : Nat) : Prop :=
  ∀ i row, b.pushed[i]? = some row → row.blockNumber = blockNumber → i < b.covered

/-- The block loop holds the lock of the batcher. -/
def HeldByLoop (b : GenericBatcher Caller (Row α)) : Prop :=
  ∃ stage, b.flushLock = some (.blockLoop, stage)

/-- When the insert of the block loop ends nothing is left uncovered. -/
def Settling (b : GenericBatcher Caller (Row α)) : Prop :=
  match b.flushLock with
  | some (.blockLoop, .inserting batch) => batch = b.uncovered
  | some (.blockLoop, .inserted _) => b.uncovered = []
  | some (.blockLoop, .returning true) => b.uncovered = []
  | _ => True

/-- What holds of the workers and the batchers where the block loop is. -/
def AtPosition (setting : Setting) (s : System α) : Prop :=
  match s.position with
  | .fetching => s.workers = [] ∧ ∀ table, ¬HeldByLoop (s.batchers table)
  | .processing blockNumber _ _ =>
    setting.Processed blockNumber ∧ ∀ table, ¬HeldByLoop (s.batchers table)
  | .flushing _ tables => s.workers = [] ∧ ∀ table, Settling (s.batchers table) ∧
      (table ∉ tables → (s.batchers table).uncovered = []) ∧
      (HeldByLoop (s.batchers table) → tables.head? = some table)
  | .recording blockNumber => s.workers = [] ∧
      ∀ table, ¬HeldByLoop (s.batchers table) ∧ CoversBlock (s.batchers table) blockNumber

structure Sound (setting : Setting) (s : System α) : Prop where
  accounted : ∀ table, Accounted (s.batchers table)
  processed : ∀ table, ∀ row ∈ (s.batchers table).pushed, setting.Processed row.blockNumber
  workers : ∀ worker ∈ s.workers, setting.Processed worker.blockNumber
  position : AtPosition setting s

variable {setting : Setting} {s : System α}

theorem uncovered_eq_nil {b : GenericBatcher Caller (Row α)} :
    b.uncovered = [] ↔ b.pushed.length ≤ b.covered := List.drop_eq_nil_iff

theorem coversBlock_of_uncovered {b : GenericBatcher Caller (Row α)} (h : b.uncovered = [])
    (blockNumber : Nat) : CoversBlock b blockNumber := by
  intro i row hrow _
  have hi : i < b.pushed.length := (List.getElem?_eq_some_iff.mp hrow).1
  have hlength := uncovered_eq_nil.mp h
  omega

/-- A flush leaves the loop's facts about its batcher. -/
theorem uncovered_flush {b next : GenericBatcher Caller (Row α)} {caller : Caller}
    (hstep : FlushPending caller b next) (h : b.uncovered = []) : next.uncovered = [] := by
  obtain ⟨hpushed, hcovered⟩ := flush_covered hstep
  rw [uncovered_eq_nil] at h ⊢
  rw [hpushed]
  omega

theorem coversBlock_flush {b next : GenericBatcher Caller (Row α)} {caller : Caller}
    (hstep : FlushPending caller b next) {blockNumber : Nat} (h : CoversBlock b blockNumber) :
    CoversBlock next blockNumber := by
  obtain ⟨hpushed, hcovered⟩ := flush_covered hstep
  intro i row hrow hblock
  rw [hpushed] at hrow
  exact Nat.lt_of_lt_of_le (h i row hrow hblock) hcovered

theorem heldByLoop_flush {b next : GenericBatcher Caller (Row α)} {caller : Caller}
    (hstep : FlushPending caller b next) (hheld : HeldByLoop next) : caller = .blockLoop := by
  obtain ⟨stage, hstage⟩ := hheld
  cases hstep <;> exact congrArg Prod.fst (Option.some.inj hstage)

theorem settling_of_caller {b : GenericBatcher Caller (Row α)} {caller : Caller} {stage : Stage (Row α)}
    (hlock : b.flushLock = some (caller, stage)) (hne : caller ≠ .blockLoop) : Settling b := by
  unfold Settling
  rw [hlock]
  cases caller with
  | blockLoop => exact absurd rfl hne
  | _ => trivial

theorem settling_flush {b next : GenericBatcher Caller (Row α)} {caller : Caller}
    (hstep : FlushPending caller b next) (h : Accounted b) (hsettling : Settling b) : Settling next := by
  by_cases hloop : caller = .blockLoop
  · subst hloop
    cases hstep with
    | lock hlock => trivial
    | nothing hlock hrows =>
      show b.uncovered = []
      have hall := h.rows
      rw [hrows] at hall
      exact (List.append_eq_nil_iff.mp hall.symm).2
    | snapshot hlock _ =>
      show b.rows = b.uncovered
      have hnone : b.undrained = [] := by simp [GenericBatcher.undrained, hlock]
      simpa [hnone] using h.rows
    | insertFails hlock => trivial
    | insertEnds hlock =>
      rename_i batch
      have hbatch : batch = b.uncovered := by simpa [Settling, hlock] using hsettling
      refine uncovered_of_pushed [] ?_
      show b.pushed = (b.ended ++ [batch]).flatten ++ []
      simpa [hbatch] using h.pushed
    | drain hlock =>
      have hnone : b.uncovered = [] := by simpa [Settling, hlock] using hsettling
      exact hnone
  · cases hstep <;> exact settling_of_caller rfl hloop

theorem settling_of_not_held {b : GenericBatcher Caller (Row α)} (h : ¬HeldByLoop b) : Settling b := by
  cases hlock : b.flushLock with
  | none => simp [Settling, hlock]
  | some held =>
    obtain ⟨caller, stage⟩ := held
    exact settling_of_caller hlock fun hloop => h ⟨stage, hloop ▸ hlock⟩

theorem forall_setBatcher_of_ne {P : Table → GenericBatcher Caller (Row α) → Prop} {table : Table}
    {b : GenericBatcher Caller (Row α)} (hb : P table b)
    (h : ∀ other, other ≠ table → P other (s.batchers other)) :
    ∀ other, P other ((s.setBatcher table b).batchers other) := by
  intro other
  show P other (Function.update s.batchers table b other)
  by_cases hother : other = table
  · subst hother
    rwa [Function.update_self]
  · rw [Function.update_of_ne hother]
    exact h other hother

theorem forall_setBatcher {P : Table → GenericBatcher Caller (Row α) → Prop} {table : Table}
    {b : GenericBatcher Caller (Row α)} (hb : P table b) (h : ∀ other, P other (s.batchers other)) :
    ∀ other, P other ((s.setBatcher table b).batchers other) :=
  forall_setBatcher_of_ne hb fun other _ => h other

/-- The lock of a batcher moves on or is released; the loop stays where it is. -/
theorem atPosition_setBatcher {table : Table} {next : GenericBatcher Caller (Row α)}
    (h : AtPosition setting s)
    (huncovered : (s.batchers table).uncovered = [] → next.uncovered = [])
    (hcovers : ∀ blockNumber, CoversBlock (s.batchers table) blockNumber →
      CoversBlock next blockNumber)
    (hsettling : Settling (s.batchers table) → Settling next)
    (hheld : HeldByLoop next → HeldByLoop (s.batchers table) ∨
      ∃ recorded rest, s.position = .flushing recorded (table :: rest)) :
    AtPosition setting (s.setBatcher table next) := by
  unfold AtPosition at h ⊢
  have hposition : (s.setBatcher table next).position = s.position := rfl
  have hworkers : (s.setBatcher table next).workers = s.workers := rfl
  rw [hposition, hworkers]
  cases hp : s.position with
  | fetching =>
    rw [hp] at h
    refine ⟨h.1, forall_setBatcher (P := fun _ b => ¬HeldByLoop b) (fun hnext => ?_) h.2⟩
    rcases hheld hnext with hold | ⟨recorded, rest, hflushing⟩
    · exact h.2 table hold
    · rw [hp] at hflushing
      cases hflushing
  | processing blockNumber transactions failed =>
    rw [hp] at h
    refine ⟨h.1, forall_setBatcher (P := fun _ b => ¬HeldByLoop b) (fun hnext => ?_) h.2⟩
    rcases hheld hnext with hold | ⟨recorded, rest, hflushing⟩
    · exact h.2 table hold
    · rw [hp] at hflushing
      cases hflushing
  | flushing recorded tables =>
    rw [hp] at h
    obtain ⟨hsettles, hdone, hhead⟩ := h.2 table
    refine ⟨h.1, forall_setBatcher (P := fun other b => Settling b ∧ (other ∉ tables → b.uncovered = []) ∧
      (HeldByLoop b → tables.head? = some other)) ⟨hsettling hsettles, fun hnot => huncovered (hdone hnot),
        fun hnext => ?_⟩ h.2⟩
    rcases hheld hnext with hold | ⟨recorded, rest, hflushing⟩
    · exact hhead hold
    · rw [hp] at hflushing
      cases hflushing
      rfl
  | recording blockNumber =>
    rw [hp] at h
    obtain ⟨hnot, hcoversBlock⟩ := h.2 table
    refine ⟨h.1, forall_setBatcher (P := fun _ b => ¬HeldByLoop b ∧ CoversBlock b blockNumber)
      ⟨fun hnext => ?_, hcovers blockNumber hcoversBlock⟩ h.2⟩
    rcases hheld hnext with hold | ⟨recorded, rest, hflushing⟩
    · exact hnot hold
    · rw [hp] at hflushing
      cases hflushing

theorem sound_flushPending {table : Table} {caller : Caller} {next : GenericBatcher Caller (Row α)}
    (h : Sound setting s) (hcalls : s.Calls table caller)
    (hstep : FlushPending caller (s.batchers table) next) : Sound setting (s.setBatcher table next) := by
  obtain ⟨hpushed, _⟩ := flush_covered hstep
  refine ⟨forall_setBatcher ((h.accounted table).flush hstep) h.accounted,
    forall_setBatcher (P := fun _ b => ∀ row ∈ b.pushed, setting.Processed row.blockNumber) ?_ h.processed,
    h.workers, atPosition_setBatcher h.position (uncovered_flush hstep)
      (fun _ => coversBlock_flush hstep) (settling_flush hstep (h.accounted table)) fun hheld => ?_⟩
  · rw [hpushed]
    exact h.processed table
  · rw [heldByLoop_flush hstep hheld] at hcalls
    exact Or.inr hcalls

/-- Releasing a lock keeps everything but the holder. -/
theorem sound_release {table : Table} {caller : Caller} {ok : Bool} (h : Sound setting s)
    (hlock : (s.batchers table).flushLock = some (caller, .returning ok)) :
    Sound setting (s.setBatcher table (s.batchers table).release) := by
  refine ⟨forall_setBatcher ((h.accounted table).release hlock) h.accounted,
    forall_setBatcher (P := fun _ b => ∀ row ∈ b.pushed, setting.Processed row.blockNumber)
      (h.processed table) h.processed,
    h.workers, atPosition_setBatcher h.position id (fun _ => id) (fun _ => trivial) ?_⟩
  rintro ⟨stage, hstage⟩
  cases hstage

/-- Workers run only while the loop waits for them. -/
theorem processing_of_workers (h : AtPosition setting s) (hne : s.workers ≠ []) :
    ∃ blockNumber transactions failed, s.position = .processing blockNumber transactions failed := by
  unfold AtPosition at h
  cases hp : s.position with
  | processing blockNumber transactions failed => exact ⟨blockNumber, transactions, failed, rfl⟩
  | fetching => rw [hp] at h; exact absurd h.1 hne
  | flushing recorded tables => rw [hp] at h; exact absurd h.1 hne
  | recording blockNumber => rw [hp] at h; exact absurd h.1 hne

/-- While workers run they may change, and the block may be marked as failed. -/
theorem sound_workers {workers : List (Worker α)} {transactions rest : List (List (Table × α))}
    {failed nowFailed : Bool} {blockNumber nextId : Nat} (h : Sound setting s)
    (hp : s.position = .processing blockNumber transactions failed)
    (hworkers : ∀ worker ∈ workers, setting.Processed worker.blockNumber) :
    Sound setting { s with workers, nextId, position := .processing blockNumber rest nowFailed } := by
  have hposition := h.position
  unfold AtPosition at hposition
  rw [hp] at hposition
  exact ⟨h.accounted, h.processed, hworkers, hposition⟩

theorem sound_busy {workers : List (Worker α)} (h : Sound setting s) (hne : s.workers ≠ [])
    (hworkers : ∀ worker ∈ workers, setting.Processed worker.blockNumber) :
    Sound setting { s with workers } := by
  obtain ⟨blockNumber, transactions, failed, hp⟩ := processing_of_workers h.position hne
  have hposition := h.position
  unfold AtPosition at hposition
  rw [hp] at hposition
  refine ⟨h.accounted, h.processed, hworkers, ?_⟩
  unfold AtPosition
  rw [show ({ s with workers } : System α).position = _ from hp]
  exact hposition

theorem forall_remove {P : Worker α → Prop} {before after : List (Worker α)} {worker : Worker α}
    (h : ∀ w ∈ before ++ worker :: after, P w) : ∀ w ∈ before ++ after, P w := by
  rw [List.forall_mem_append, List.forall_mem_cons] at h
  exact List.forall_mem_append.mpr ⟨h.1, h.2.2⟩

theorem forall_replace {P : Worker α → Prop} {before after : List (Worker α)}
    {worker next : Worker α} (h : ∀ w ∈ before ++ worker :: after, P w) (hnext : P worker → P next) :
    ∀ w ∈ before ++ next :: after, P w := by
  rw [List.forall_mem_append, List.forall_mem_cons] at h ⊢
  exact ⟨h.1, hnext h.2.1, h.2.2⟩

theorem sound_push {table : Table} {content : α} {blockNumber : Nat} (h : Sound setting s)
    (hblock : setting.Processed blockNumber) (hne : s.workers ≠ []) :
    Sound setting (s.setBatcher table ((s.batchers table).push ⟨blockNumber, content⟩)) := by
  obtain ⟨block, transactions, failed, hp⟩ := processing_of_workers h.position hne
  have hposition := h.position
  unfold AtPosition at hposition
  rw [hp] at hposition
  refine ⟨forall_setBatcher ((h.accounted table).push _) h.accounted,
    forall_setBatcher (P := fun _ b => ∀ row ∈ b.pushed, setting.Processed row.blockNumber) ?_ h.processed,
    h.workers, ?_⟩
  · intro row hrow
    rcases List.mem_append.mp hrow with hrow | hrow
    · exact h.processed table row hrow
    · rw [List.mem_singleton.mp hrow]
      exact hblock
  · unfold AtPosition
    rw [show (s.setBatcher table _).position = _ from hp]
    exact ⟨hposition.1, forall_setBatcher (P := fun _ b => ¬HeldByLoop b) (hposition.2 table) hposition.2⟩

/-- The loop starts to flush while it holds no lock and no worker runs. -/
theorem sound_flushBatches {recorded : Option Nat} (h : Sound setting s) (hworkers : s.workers = [])
    (hheld : ∀ table, ¬HeldByLoop (s.batchers table)) :
    Sound setting { s with position := .flushing recorded flushBatches } := by
  refine ⟨h.accounted, h.processed, h.workers, hworkers, fun table => ?_⟩
  refine ⟨settling_of_not_held (hheld table), fun hnot => ?_, fun hloop => absurd hloop (hheld table)⟩
  cases table <;> exact absurd (by decide) hnot

/-- The loop returns from the flush of a table. -/
theorem atPosition_return {recorded : Option Nat} {table : Table} {rest : List Table} {ok : Bool}
    (h : AtPosition setting s) (hp : s.position = .flushing recorded (table :: rest))
    (hlock : (s.batchers table).flushLock = some (.blockLoop, .returning ok)) :
    s.workers = [] ∧ ∀ other, let b := (s.setBatcher table (s.batchers table).release).batchers other
      ¬HeldByLoop b ∧ (ok = true → other ∉ rest → b.uncovered = []) := by
  unfold AtPosition at h
  rw [hp] at h
  refine ⟨h.1, forall_setBatcher_of_ne (P := fun other b =>
    ¬HeldByLoop b ∧ (ok = true → other ∉ rest → b.uncovered = [])) ⟨?_, fun hok _ => ?_⟩
      fun other hne => ⟨fun hheld => ?_, fun _ hnot => ?_⟩⟩
  · rintro ⟨stage, hstage⟩
    cases hstage
  · subst hok
    have hsettling := (h.2 table).1
    unfold Settling at hsettling
    rw [hlock] at hsettling
    exact hsettling
  · have hhead : some table = some other := (h.2 other).2.2 hheld
    exact hne (Option.some.inj hhead).symm
  · exact (h.2 other).2.1 fun hmem => (List.mem_cons.mp hmem).elim hne hnot

theorem sound_step {next : System α} (h : Sound setting s) (hstep : Step setting s next) :
    Sound setting next := by
  have hat := h.position
  unfold AtPosition at hat
  cases hstep with
  | startBlock hp hblock _ =>
    rw [hp] at hat
    exact ⟨h.accounted, h.processed, h.workers, hblock, hat.2⟩
  | emptyBlock hp hblock =>
    rw [hp] at hat
    refine ⟨h.accounted, h.processed, h.workers, hat.1, fun table => ⟨hat.2 table, ?_⟩⟩
    -- no row of such a block was ever pushed
    intro i row hrow hsame
    exact absurd (hsame ▸ h.processed table row (List.mem_of_getElem? hrow)) hblock
  | launch hp _ =>
    rw [hp] at hat
    exact sound_workers h hp (List.forall_mem_cons.mpr ⟨hat.1, h.workers⟩)
  | @push before after id blockNumber table content remaining hworkers =>
    have hne : s.workers ≠ [] := by simp [hworkers]
    have hall := h.workers
    rw [hworkers] at hall
    have hblock : setting.Processed blockNumber :=
      (List.forall_mem_cons.mp (List.forall_mem_append.mp hall).2).1
    have hpushed : Sound setting (s.setBatcher table ((s.batchers table).push ⟨blockNumber, content⟩)) :=
      sound_push h hblock hne
    exact sound_busy hpushed hne (forall_replace hall fun hb => hb)
  | pushFlushed hworkers hlock =>
    have hne : s.workers ≠ [] := by simp [hworkers]
    have hall := h.workers
    rw [hworkers] at hall
    exact sound_busy (sound_release h hlock) hne (forall_replace hall fun hb => hb)
  | pushFails hworkers hlock hp =>
    have hall := h.workers
    rw [hworkers] at hall
    exact sound_workers (sound_release h hlock) hp (forall_remove hall)
  | processed hworkers =>
    have hne : s.workers ≠ [] := by simp [hworkers]
    have hall := h.workers
    rw [hworkers] at hall
    exact sound_busy h hne (forall_remove hall)
  | processFails hworkers hp =>
    have hall := h.workers
    rw [hworkers] at hall
    exact sound_workers h hp (forall_remove hall)
  | collected hp hworkers =>
    rw [hp] at hat
    exact sound_flushBatches h hworkers hat.2
  | recordErrorFails hp hworkers =>
    rw [hp] at hat
    exact ⟨h.accounted, h.processed, h.workers, hworkers, hat.2⟩
  | tableFlushed hp hlock =>
    obtain ⟨hworkers, hreturn⟩ := atPosition_return h.position hp hlock
    have hreleased := sound_release h hlock
    refine ⟨hreleased.accounted, hreleased.processed, h.workers, hworkers, fun table => ?_⟩
    obtain ⟨hheld, hdone⟩ := hreturn table
    exact ⟨settling_of_not_held hheld, hdone rfl, fun hloop => absurd hloop hheld⟩
  | flushFails hp hlock =>
    obtain ⟨hworkers, hreturn⟩ := atPosition_return h.position hp hlock
    have hreleased := sound_release h hlock
    exact ⟨hreleased.accounted, hreleased.processed, h.workers, hworkers, fun table => (hreturn table).1⟩
  | flushed hp =>
    rw [hp] at hat
    refine ⟨h.accounted, h.processed, h.workers, hat.1, fun table => ?_⟩
    obtain ⟨_, hdone, hhead⟩ := hat.2 table
    exact ⟨fun hheld => by simpa using hhead hheld,
      coversBlock_of_uncovered (hdone (List.not_mem_nil)) _⟩
  | flushedOnly hp =>
    rw [hp] at hat
    refine ⟨h.accounted, h.processed, h.workers, hat.1, fun table hheld => ?_⟩
    simpa using (hat.2 table).2.2 hheld
  | recorded hp =>
    rw [hp] at hat
    exact ⟨h.accounted, h.processed, h.workers, hat.1, fun table => (hat.2 table).1⟩
  | finish hp =>
    rw [hp] at hat
    exact sound_flushBatches h hat.1 hat.2
  | wake _ => exact ⟨h.accounted, h.processed, h.workers, h.position⟩
  | taskReturns hlock =>
    have hreleased := sound_release h hlock
    exact ⟨hreleased.accounted, hreleased.processed, hreleased.workers, hreleased.position⟩
  | flushPending hcalls hflush => exact sound_flushPending h hcalls hflush

theorem sound_start : Sound setting (System.start : System α) := by
  refine ⟨fun _ => accounted_create, fun _ row hrow => ?_, fun worker hworker => ?_, rfl, fun _ => ?_⟩
  · cases hrow
  · cases hworker
  · rintro ⟨stage, hstage⟩
    cases hstage

theorem sound_reachable (h : Reachable setting s) : Sound setting s := by
  induction h with
  | start => exact sound_start
  | step _ hstep ih => exact sound_step ih hstep

/-- In every reachable state successful inserts cover the first pushed rows,
each once; the buffer holds the uncovered rows, after the rows of an insert that
has ended and is not drained; what is drained was part of ended inserts, and what
is being sent is uncovered. Where a block is recorded, all its rows are covered. -/
theorem batches_lose_nothing (h : Reachable setting s) :
    (∀ table, Accounted (s.batchers table)) ∧
      ∀ blockNumber, s.position = .recording blockNumber →
        ∀ table, CoversBlock (s.batchers table) blockNumber := by
  have hsound := sound_reachable h
  refine ⟨hsound.accounted, fun blockNumber hp table => ?_⟩
  have hposition := hsound.position
  unfold AtPosition at hposition
  rw [hp] at hposition
  exact (hposition.2 table).2

end

/-! ## A block with one transaction -/

/-- Block 1 has a transaction; a buffer of one row is flushed at once. -/
def sampleSetting : Setting := ⟨1, 1, fun _ => 1⟩

def sampleRow : Row String := ⟨1, "row"⟩

def sampleSystem (b : GenericBatcher Caller (Row String)) (workers : List (Worker String))
    (position : Position String) : System String :=
  ⟨Function.update (fun _ => .create) .transactions b, fun _ => false, workers, 1, position⟩

def flushingWorker : Worker String := ⟨0, 1, [], some .transactions⟩

/-- The batcher at the stage of the worker's flush. -/
def sampleBatcher (stage : Stage (Row String)) (rows : List (Row String))
    (ended : List (List (Row String))) (drained : List (Row String)) :
    GenericBatcher Caller (Row String) :=
  ⟨rows, some (.worker 0, stage), [sampleRow], ended, drained⟩

theorem sample_flush {b next : GenericBatcher Caller (Row String)} {position : Position String}
    (h : Reachable sampleSetting (sampleSystem b [flushingWorker] position))
    (hstep : FlushPending (.worker 0) b next) :
    Reachable sampleSetting (sampleSystem next [flushingWorker] position) := by
  have hcalls : (sampleSystem b [flushingWorker] position).Calls .transactions (.worker 0) :=
    ⟨flushingWorker, List.mem_singleton.mpr rfl, rfl, rfl⟩
  have hnext := h.step (.flushPending hcalls (by simpa [sampleSystem] using hstep))
  simpa [System.setBatcher, sampleSystem] using hnext

/-- The insert of the worker has ended and its row is not drained. -/
theorem sample_ended : Reachable sampleSetting (sampleSystem
    (sampleBatcher (.inserted [sampleRow]) [sampleRow] [[sampleRow]] []) [flushingWorker]
    (.processing 1 [] false)) := by
  have hprocessed : sampleSetting.Processed 1 := ⟨by decide, by decide⟩
  have hstart : Reachable sampleSetting (System.start : System String) := .start
  have hblock := hstart.step
    (@Step.startBlock String sampleSetting _ 1 [[(.transactions, "row")]] rfl hprocessed rfl)
  have hworker := hblock.step (.launch rfl (by decide))
  have hpush : Reachable sampleSetting (sampleSystem (GenericBatcher.create.push sampleRow)
      [flushingWorker] (.processing 1 [] false)) := hworker.step (@Step.push String sampleSetting _ [] [] 0 1 .transactions "row" [] rfl)
  have hlock := sample_flush hpush (.lock rfl)
  have hsnapshot := sample_flush hlock (.snapshot rfl (by simp [GenericBatcher.push, GenericBatcher.at]))
  exact sample_flush hsnapshot (.insertEnds rfl)

/-- Between the end of an insert and its drain the buffer holds covered rows. -/
theorem buffer_holds_covered : ¬∀ (setting : Setting) (s : System String), Reachable setting s →
    ∀ table, (s.batchers table).rows = (s.batchers table).uncovered := by
  intro h
  have hrows := h sampleSetting _ sample_ended .transactions
  simp [sampleSystem, sampleBatcher, GenericBatcher.uncovered, GenericBatcher.covered] at hrows

/-- A flush of an empty batcher changes nothing. -/
theorem Reachable.flushEmpty {α : Type} {setting : Setting} {s : System α} {recorded : Option Nat}
    {table : Table} {rest : List Table} (h : Reachable setting s)
    (hp : s.position = .flushing recorded (table :: rest))
    (hlock : (s.batchers table).flushLock = none) (hrows : (s.batchers table).rows = []) :
    Reachable setting { s with position := .flushing recorded rest } := by
  let locked := (s.batchers table).at .blockLoop .locked
  let returning := locked.at .blockLoop (.returning true)
  have hcalls : ∀ b, (s.setBatcher table b).Calls table .blockLoop := fun _ => ⟨recorded, rest, hp⟩
  have hlocked : Reachable setting (s.setBatcher table locked) :=
    h.step
      (@Step.flushPending α setting s table .blockLoop locked ⟨recorded, rest, hp⟩ (.lock hlock))
  have hreturning : Reachable setting (s.setBatcher table returning) := by
    have hnothing : FlushPending .blockLoop locked returning := .nothing rfl hrows
    have hstep : FlushPending .blockLoop ((s.setBatcher table locked).batchers table) returning := by
      simpa [System.setBatcher] using hnothing
    simpa [System.setBatcher] using hlocked.step (.flushPending (hcalls locked) hstep)
  have hreturned := hreturning.step (.tableFlushed hp (by simp [System.setBatcher, returning,
    GenericBatcher.at]))
  have hsame : returning.release = s.batchers table := by
    show ({ s.batchers table with flushLock := none } : GenericBatcher Caller (Row α)) = _
    rw [← hlock]
  simpa [System.setBatcher, hsame] using hreturned

/-- A block whose row is inserted and which is recorded. -/
theorem sample_recorded : ∃ s : System String, s.position = .recording 1 ∧
    (s.batchers .transactions).pushed = [sampleRow] ∧ (∀ table, Accounted (s.batchers table)) ∧
      ∀ blockNumber, s.position = .recording blockNumber →
        ∀ table, CoversBlock (s.batchers table) blockNumber := by
  have hdrained := sample_flush sample_ended (.drain rfl)
  let b : GenericBatcher Caller (Row String) := ⟨[], none, [sampleRow], [[sampleRow]], [sampleRow]⟩
  have hworker : Reachable sampleSetting (sampleSystem b [⟨0, 1, [], none⟩] (.processing 1 [] false)) := by
    have hreturned := hdrained.step
      (@Step.pushFlushed String sampleSetting _ [] [] 0 1 .transactions [] rfl rfl)
    simp only [System.setBatcher, sampleSystem, Function.update_idem, Function.update_self]
      at hreturned
    exact hreturned
  have hcollected := (hworker.step (@Step.processed String sampleSetting _ [] [] 0 1 rfl)).step (.collected rfl rfl)
  have hflushed := ((((hcollected.flushEmpty rfl rfl rfl).flushEmpty rfl rfl rfl).flushEmpty
    rfl rfl rfl).flushEmpty rfl rfl rfl).flushEmpty rfl rfl rfl
  have hrecording := hflushed.step (.flushed rfl)
  exact ⟨_, rfl, rfl, batches_lose_nothing hrecording⟩

end AmlReal.Tron.Batching
