import AmlReal.Bitcoin.Writer

/-! # The operations of the cursor owner

One writer owns a network's cursor. It runs block attempts, by the common
batch writer or by Bitcoin's own, and bare publications, such as a rollback or
a refresh of the observed height, one after another. Each draws its revision
from `next_revision` and may stop after any insert. A history lists the
inserts that each operation made. -/

namespace AmlReal.Warehouse.Operations
open AmlReal.Foundations.StoreProgram AmlReal.Foundations.StoreProgram.Program
open AmlReal.Warehouse.Values AmlReal.Warehouse.Tables AmlReal.Warehouse.Publication
open AmlReal.Bitcoin.Writer (LegacyBlock MappedEvidence WriteContext)

/-- An operation of the cursor owner. `clock` is the lower bound an adapter
adds to the previous revision before it draws the next one; the block and the
facts of a batch may depend on the revision drawn. -/
inductive Operation where
  | publishBatch (clock : Nat) (block : Nat → Block) (facts : Nat → FactBatch)
  | writeBlock (source : LegacyBlock) (evidence : MappedEvidence) (input : WriteContext) (now : Nat)
  | publish (clock : Nat) (next : State)

def Operation.program (network : Network) : Operation → Writer State
  | .publishBatch clock block facts => do
    let previous ← state network
    let revision ← nextRevision network (max previous.revision clock)
    Publication.publishBatch previous { block revision with revision := revision } (facts revision)
  | .writeBlock source evidence input now => do
    let previous ← state .bitcoin
    AmlReal.Bitcoin.Writer.writeBlock previous source evidence input now
  | .publish clock next => do
    let previous ← state network
    let revision ← nextRevision network (max previous.revision clock)
    Publication.publish network previous { next with revision := revision }
    pure { next with revision := revision }

/-- Some operation started on `db` may have stopped after the inserts `ws`. -/
def Stopped (network : Network) (db : Database) (ws : List Insert) : Prop :=
  ∃ op : Operation, Writes (op.program network) db ws

/-- The histories of one warehouse from its installation on. -/
abbrev Histories (network : Network) : List (List Insert) → Prop :=
  History (Stopped network) (Database.empty network)

/-- The warehouse after a history. -/
def after (network : Network) (history : List (List Insert)) : Database :=
  replay (Database.empty network) history.flatten

/-! ## Runs on given operations -/

/-- The inserts of operations of which each stops after a number of inserts. -/
def runs (network : Network) : Database → List (Operation × Nat) → List (List Insert)
  | _, [] => []
  | db, (op, made) :: rest =>
    let ws := ((op.program network).exec db).1.take made
    ws :: runs network (replay db ws) rest

theorem histories_runs {network : Network} {history : List (List Insert)}
    (h : Histories network history) (ops : List (Operation × Nat)) :
    Histories network (history ++ runs network (after network history) ops) := by
  induction ops generalizing history with
  | nil => simpa [runs] using h
  | cons o rest ih =>
    obtain ⟨op, made⟩ := o
    have hnext : Histories network
        (history ++ [((op.program network).exec (after network history)).1.take made]) :=
      h.concat ⟨op, List.take_prefix ..⟩
    have hrest := ih hnext
    unfold after at hrest
    rw [replay_concat, List.append_assoc] at hrest
    exact hrest

theorem histories_of_runs (network : Network) (ops : List (Operation × Nat)) :
    Histories network (runs network (Database.empty network) ops) := histories_runs .nil ops

/-! A small chain of blocks with one transaction each, for runs on fixed inputs. -/

def sampleHash (digit : Char) : String := String.ofList (List.replicate 64 digit)

def sampleBlock (height : Nat) (digit parent : Char) (revision : Nat) : Block where
  networkId := .bitcoin
  blockNumber := height
  blockHash := sampleHash digit
  blockTimestampUnixMs := 1000
  commitId := "commit"
  revision := revision
  parentHash := sampleHash parent
  canonical := 1
  ingestionStatus := .complete
  transactionCount := 1
  receiptCoverage := none
  traceCoverage := none
  prevoutCoverage := some 1
  sourceId := "source"
  createdAtUnixMs := 1000

def sampleFacts (block : Block) : FactBatch where
  tables := [(.transactions, [{
    networkId := block.networkId
    blockNumber := block.blockNumber
    blockHash := block.blockHash
    blockTimestampUnixMs := block.blockTimestampUnixMs
    commitId := block.commitId
    revision := block.revision
    rowKey := ["transaction"]
    columns := "" }])]
  nodup := by simp

def sampleAttempt (height : Nat) (digit parent : Char) : Operation :=
  .publishBatch 0 (sampleBlock height digit parent) fun revision =>
    sampleFacts (sampleBlock height digit parent revision)

def sampleRollback (start height : Nat) (digit : Char) : Operation :=
  .publish 0 ⟨.bitcoin, 0, 1, start, height, sampleHash digit, height, 1000⟩

end AmlReal.Warehouse.Operations
