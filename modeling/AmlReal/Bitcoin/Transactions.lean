import Mathlib.Algebra.GroupWithZero.Nat
import Mathlib.Algebra.BigOperators.Group.List.Basic
import Mathlib.Data.List.Sort
import AmlReal.Foundations.Checks
import AmlReal.Foundations.Json
import AmlReal.Warehouse.Values

/-! # Canonical Bitcoin transactions

`bitcoin/transactions.rs`: a transaction is rebuilt from its canonical header
and the edges of its relationship graph. The reader's budgets and its cache are
explicit; what its queries return is an argument. The address parser of the
Bitcoin library is a parameter. -/

namespace AmlReal.Bitcoin.Transactions
open AmlReal.Foundations.Checks AmlReal.Foundations.Json AmlReal.Warehouse.Values

def supply : Nat := 2100000000000000

structure Header where
  blockNumber : Nat
  blockHash : String
  txHash : String
  transactionIndex : Nat
  blockTimestampUnixMs : Nat
  commitId : String
  revision : Nat
  coinbase : Nat
  inputCount : Option Nat
  outputCount : Option Nat
  feeRaw : String
  deriving DecidableEq

structure Leg where
  index : Nat
  subject : String
  value : Nat
  relationshipId : String
  prevTxHash : Option String
  prevOutputIndex : Option Nat
  deriving DecidableEq

structure Tx where
  h : Header
  inputs : List Leg
  outputs : List Leg
  total : Nat
  fee : Nat
  deriving DecidableEq

def Tx.position (tx : Tx) : Nat × Nat := (tx.h.blockNumber, tx.h.transactionIndex)

/-- The order of positions: by block, then by index. -/
def Tx.before (a b : Tx) : Prop :=
  a.h.blockNumber < b.h.blockNumber ∨
    (a.h.blockNumber = b.h.blockNumber ∧ a.h.transactionIndex < b.h.transactionIndex)

instance (a b : Tx) : Decidable (a.before b) := inferInstanceAs (Decidable (_ ∨ _))

def Tx.key (tx : Tx) : String := s!"tx:{tx.h.blockHash}:{tx.h.txHash}"

/-! ## Fields of an edge -/

def text (row : Value) (key : String) : Except String String :=
  context row[key].asStr s!"missing exposure field {key}"

def number (row : Value) (key : String) : Except String Nat :=
  match row[key] with
  | .string s => context (parseU64 s) "invalid digit found in string"
  | v => context v.asU64 s!"missing exposure integer {key}"

/-- `u32::try_from` -/
def u32 (n : Nat) : Except String Nat :=
  if n < 2 ^ 32 then .ok n else .error "out of range integral type conversion attempted"

/-- `iter().try_fold(0u64, checked_add)` -/
def sumU64 (values : List Nat) (error : String) : Except String Nat :=
  values.foldlM (fun n v => context (checkedAdd n v) error) 0

/-! ## Loading -/

section
variable (address : String → Except String String)

/-- A script subject is its digest; an address must be in its canonical spelling. -/
def checkSubject (subject : String) : Except String Unit :=
  if "script:".toList.isPrefixOf subject.toList then .ok ()
  else do
    let normalized ← address subject
    ensure (normalized = subject) "noncanonical exposure address"

def previousHash (edge : Value) (incoming : Bool) : Except String (Option String) :=
  if incoming then some <$> text edge "prev_txid" else .ok none

def previousIndex (edge : Value) (incoming : Bool) : Except String (Option Nat) :=
  if incoming then do
    let vout ← number edge "prev_vout"
    some <$> u32 vout
  else .ok none

/-- One edge of the graph as a leg; the flag says that it is an input. -/
def readLeg (h : Header) (edge : Value) : Except String (Bool × Leg) := do
  ensure (edge["block_hash"] = .string h.blockHash ∧ edge["tx_hash"] = .string h.txHash)
    "exposure occurrence changed"
  let revision ← number edge "revision"
  ensure (revision = h.revision ∧ edge["commit_id"] = .string h.commitId)
    "exposure occurrence changed"
  let incoming : Bool := edge["transfer_type"] = .string "utxo_input"
  let subject ← text edge (if incoming then "from_subject_id" else "to_subject_id")
  checkSubject address subject
  let value ← number edge "amount"
  ensure (value ≤ supply) "exposure amount exceeds supply"
  let index ← number edge (if incoming then "input_index" else "output_index")
  let index ← u32 index
  let relationshipId ← text edge "id"
  let prevTxHash ← previousHash edge incoming
  let prevOutputIndex ← previousIndex edge incoming
  pure (incoming, ⟨index, subject, value, relationshipId, prevTxHash, prevOutputIndex⟩)

/-- `sort_by_key(|v| v.index)` -/
def sortLegs (legs : List Leg) : List Leg := legs.insertionSort fun a b => a.index ≤ b.index

def positions (legs : List Leg) : List Nat := legs.map Leg.index

/-- The transaction of a header and its edges: what `load` does after its queries. -/
def readTx (h : Header) (edges : List Value) : Except String Tx := do
  let legs ← edges.mapM (readLeg address h)
  let inputs := sortLegs ((legs.filter fun l => l.1).map Prod.snd)
  let outputs := sortLegs ((legs.filter fun l => !l.1).map Prod.snd)
  ensure (inputs.map fun i => (i.prevTxHash, i.prevOutputIndex)).Nodup
    "a transaction repeats a spent outpoint"
  ensure (h.coinbase ≤ 1 ∧ h.outputCount = some outputs.length ∧
    h.inputCount = some (if h.coinbase = 1 then 1 else inputs.length))
    "incomplete exposure transaction legs"
  ensure (positions inputs = List.range inputs.length ∧
    positions outputs = List.range outputs.length)
    "duplicate or missing exposure leg positions"
  let total ← sumU64 (inputs.map Leg.value) "exposure input overflow"
  let out ← sumU64 (outputs.map Leg.value) "exposure output overflow"
  let fee ← context (parseU64 h.feeRaw) "invalid digit found in string"
  ensure (total ≤ supply ∧ out ≤ supply ∧
    (if h.coinbase = 1 then inputs = [] ∧ fee = 0 else checkedAdd out fee = some total))
    "exposure conservation mismatch"
  pure ⟨h, inputs, outputs, total, fee⟩

end

/-! ## What a loaded transaction satisfies -/

/-- A transaction as `readTx` returns it. -/
structure Loaded (tx : Tx) : Prop where
  outpoints : (tx.inputs.map fun i => (i.prevTxHash, i.prevOutputIndex)).Nodup
  spends : ∀ i ∈ tx.inputs, i.prevTxHash.isSome ∧ ∃ n, i.prevOutputIndex = some n ∧ n < 2 ^ 32
  positions : positions tx.inputs = List.range tx.inputs.length ∧
    positions tx.outputs = List.range tx.outputs.length
  total : tx.total = (tx.inputs.map Leg.value).sum
  bound : tx.total ≤ supply
  conservation : if tx.h.coinbase = 1 then tx.inputs = [] ∧ tx.fee = 0
    else (tx.outputs.map Leg.value).sum + tx.fee = tx.total

theorem sumU64_ok {values : List Nat} {error : String} {n : Nat}
    (h : sumU64 values error = .ok n) : n = values.sum := by
  have hfold : ∀ start, values.foldlM (fun n v => context (checkedAdd n v) error) start = .ok n →
      n = start + values.sum := by
    clear h
    induction values with
    | nil => intro start h; cases h; rfl
    | cons v rest ih =>
      intro start h
      rw [List.foldlM_cons] at h
      obtain ⟨next, hadd, hrest⟩ := bind_ok h
      rw [ih next hrest, (checkedAdd_eq_some (context_ok hadd)).1, List.sum_cons]
      omega
  simpa using hfold 0 h

theorem u32_ok {n m : Nat} (h : u32 n = .ok m) : m = n ∧ n < 2 ^ 32 := by
  unfold u32 at h
  split at h
  · rename_i hlt; exact ⟨(Except.ok.inj h).symm, hlt⟩
  · cases h

section
variable {address : String → Except String String}

theorem readLeg_spends {h : Header} {edge : Value} {leg : Leg}
    (hread : readLeg address h edge = .ok (true, leg)) :
    leg.prevTxHash.isSome ∧ ∃ n, leg.prevOutputIndex = some n ∧ n < 2 ^ 32 := by
  obtain ⟨_, _, hread⟩ := bind_ok hread
  obtain ⟨_, _, hread⟩ := bind_ok hread
  obtain ⟨_, _, hread⟩ := bind_ok hread
  obtain ⟨_, _, hread⟩ := bind_ok hread
  obtain ⟨_, _, hread⟩ := bind_ok hread
  obtain ⟨_, _, hread⟩ := bind_ok hread
  obtain ⟨_, _, hread⟩ := bind_ok hread
  obtain ⟨_, _, hread⟩ := bind_ok hread
  obtain ⟨_, _, hread⟩ := bind_ok hread
  obtain ⟨_, _, hread⟩ := bind_ok hread
  obtain ⟨hash, hhash, hread⟩ := bind_ok hread
  obtain ⟨index, hindex, hread⟩ := bind_ok hread
  obtain ⟨hincoming, rfl⟩ := Prod.mk.inj (Except.ok.inj hread)
  rw [hincoming] at hhash hindex
  obtain ⟨previous, _, rfl⟩ := map_ok hhash
  obtain ⟨vout, _, hvout⟩ := bind_ok hindex
  obtain ⟨n, hn, rfl⟩ := map_ok hvout
  exact ⟨rfl, n, rfl, (u32_ok hn).1 ▸ (u32_ok hn).2⟩

theorem readTx_loaded {h : Header} {edges : List Value} {tx : Tx}
    (hread : readTx address h edges = .ok tx) : Loaded tx ∧ tx.h = h := by
  obtain ⟨legs, hlegs, hread⟩ := bind_ok hread
  obtain ⟨_, houtpoints, hread⟩ := bind_ok hread
  obtain ⟨_, hcounts, hread⟩ := bind_ok hread
  obtain ⟨_, hpositions, hread⟩ := bind_ok hread
  obtain ⟨total, htotal, hread⟩ := bind_ok hread
  obtain ⟨out, hout, hread⟩ := bind_ok hread
  obtain ⟨fee, hfee, hread⟩ := bind_ok hread
  obtain ⟨_, hconserve, hread⟩ := bind_ok hread
  cases hread
  obtain ⟨hbound, _, hconserve⟩ := ensure_ok hconserve
  refine ⟨⟨ensure_ok houtpoints, ?_, ensure_ok hpositions, sumU64_ok htotal, hbound, ?_⟩, rfl⟩
  · intro leg hleg
    unfold sortLegs at hleg
    rw [List.mem_insertionSort] at hleg
    obtain ⟨⟨flag, l⟩, hl, rfl⟩ := List.mem_map.mp hleg
    obtain ⟨hmem, hflag⟩ := List.mem_filter.mp hl
    obtain ⟨edge, _, hedge⟩ := mem_of_mapM hlegs _ hmem
    cases hflag
    exact readLeg_spends hedge
  · split at hconserve
    · rename_i hcoinbase
      rw [if_pos hcoinbase]; exact hconserve
    · rename_i hcoinbase
      rw [if_neg hcoinbase, ← sumU64_ok hout]
      exact (checkedAdd_eq_some hconserve).1.symm

theorem readTx_lengths {h : Header} {edges : List Value} {tx : Tx}
    (hread : readTx address h edges = .ok tx) :
    tx.inputs.length ≤ edges.length ∧ tx.outputs.length ≤ edges.length := by
  obtain ⟨legs, hlegs, hread⟩ := bind_ok hread
  obtain ⟨_, _, hread⟩ := bind_ok hread
  obtain ⟨_, _, hread⟩ := bind_ok hread
  obtain ⟨_, _, hread⟩ := bind_ok hread
  obtain ⟨total, _, hread⟩ := bind_ok hread
  obtain ⟨out, _, hread⟩ := bind_ok hread
  obtain ⟨fee, _, hread⟩ := bind_ok hread
  obtain ⟨_, _, hread⟩ := bind_ok hread
  cases hread
  have hlength := length_of_mapM hlegs
  simp only [sortLegs, List.length_insertionSort, List.length_map]
  have hinputs := List.length_filter_le (fun l : Bool × Leg => l.1) legs
  have houtputs := List.length_filter_le (fun l : Bool × Leg => !l.1) legs
  omega

end

end AmlReal.Bitcoin.Transactions
