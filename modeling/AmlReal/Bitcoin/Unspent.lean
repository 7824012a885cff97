import Mathlib.Data.Prod.Lex
import Mathlib.Order.MinMax
import AmlReal.Foundations.KeyedLog
import AmlReal.Foundations.LatestRows
import AmlReal.Bitcoin.Extract

/-! # Unspent outputs

The query `utxos` of `db/warehouse.rs` reads the unspent outputs off the rows of
all canonical blocks, by the last occurrence and the last spend of an outpoint.
The other account of them is the one a node keeps: go through the transactions
in order, remove what each spends, then add what it creates. -/

namespace AmlReal.Bitcoin.Unspent
open AmlReal.Foundations.Checks AmlReal.Foundations.Json AmlReal.Foundations.KeyedLog
open AmlReal.Foundations.LatestRows AmlReal.Warehouse.Values AmlReal.Bitcoin.Transactions
open AmlReal.Bitcoin.Extract

abbrev Outpoint := String × Nat

/-- `tuple(block_height, tx_index)` -/
abbrev Position := Nat ×ₗ Nat

def outputPoint (o : Output) : Outpoint := (o.txid, o.outputIndex)
def outputPosition (o : Output) : Position := toLex (o.blockHeight, o.txIndex)
def inputPoint (i : Input) : Outpoint := (i.prevTxid, i.prevVout)
def inputPosition (i : Input) : Position := toLex (i.blockHeight, i.txIndex)

/-! ## The query -/

/-- `max(tuple(block_height,tx_index)) … GROUP BY prev_txid,prev_vout` -/
def spentAt (inputs : List Input) (point : Outpoint) : Option Position :=
  ((inputs.filter fun i => inputPoint i = point).map inputPosition).max?

def utxos (outputs : List Output) (inputs : List Input) : List Output :=
  (limitOneBy outputPoint
    (outputs.insertionSort fun a b => outputPosition b ≤ outputPosition a)).filter fun o =>
      match spentAt inputs (outputPoint o) with
      | none => true
      | some position => position < outputPosition o

/-- The output is the last occurrence of its outpoint. -/
def LastOccurrence (outputs : List Output) (o : Output) : Prop :=
  ∀ other ∈ outputs, outputPoint other = outputPoint o → outputPosition other ≤ outputPosition o

theorem unspent_iff {inputs : List Input} {o : Output} :
    (match spentAt inputs (outputPoint o) with
      | none => true
      | some position => decide (position < outputPosition o)) = true ↔
      ∀ i ∈ inputs, inputPoint i = outputPoint o → inputPosition i < outputPosition o := by
  have hmem : ∀ p, p ∈ (inputs.filter fun i => inputPoint i = outputPoint o).map inputPosition ↔
      ∃ i ∈ inputs, inputPoint i = outputPoint o ∧ inputPosition i = p := by
    intro p; simp [and_assoc]
  cases h : spentAt inputs (outputPoint o) with
  | none =>
    have hnil := List.max?_eq_none_iff.mp h
    rw [hnil] at hmem
    refine ⟨fun _ i hi hpoint => ?_, fun _ => rfl⟩
    exact absurd ((hmem _).mpr ⟨i, hi, hpoint, rfl⟩) List.not_mem_nil
  | some position =>
    obtain ⟨hin, hmax⟩ := List.max?_eq_some_iff.mp h
    rw [decide_eq_true_eq]
    constructor
    · intro hlt i hi hpoint
      exact lt_of_le_of_lt (hmax _ ((hmem _).mpr ⟨i, hi, hpoint, rfl⟩)) hlt
    · intro hall
      obtain ⟨i, hi, hpoint, rfl⟩ := (hmem _).mp hin
      exact hall i hi hpoint

theorem mem_utxos {outputs : List Output} {inputs : List Input} {o : Output}
    (h : o ∈ utxos outputs inputs) :
    o ∈ outputs ∧ LastOccurrence outputs o ∧
      ∀ i ∈ inputs, inputPoint i = outputPoint o → inputPosition i < outputPosition o := by
  obtain ⟨hlimit, hunspent⟩ := List.mem_filter.mp h
  refine ⟨List.mem_insertionSort _ |>.mp (limitOneBy_subset _ hlimit), ?_, unspent_iff.mp hunspent⟩
  intro other hother hpoint
  exact limitOneBy_greatest outputPosition (fun _ => le_rfl) (List.pairwise_insertionSort _ _) hlimit
    ((List.mem_insertionSort _).mpr hother) hpoint

theorem exists_utxo {outputs : List Output} {inputs : List Input} {o : Output}
    (ho : o ∈ outputs) (hlast : LastOccurrence outputs o)
    (hunspent : ∀ i ∈ inputs, inputPoint i = outputPoint o → inputPosition i < outputPosition o) :
    ∃ r ∈ utxos outputs inputs, outputPoint r = outputPoint o ∧
      outputPosition r = outputPosition o := by
  have hsorted := (List.mem_insertionSort
    (fun a b => outputPosition b ≤ outputPosition a)).mpr ho
  obtain ⟨r, hr, hpoint⟩ : ∃ r ∈ limitOneBy outputPoint _, outputPoint r = outputPoint o :=
    exists_mem_limitOneBy hsorted
  have hr' := (List.mem_insertionSort _).mp (limitOneBy_subset _ hr)
  have hposition : outputPosition r = outputPosition o :=
    le_antisymm (hlast r hr' hpoint)
      (limitOneBy_greatest outputPosition (fun _ => le_rfl) (List.pairwise_insertionSort _ _) hr hsorted hpoint.symm)
  refine ⟨r, List.mem_filter.mpr ⟨hr, unspent_iff.mpr fun i hi hi' => ?_⟩, hpoint, hposition⟩
  rw [hposition]
  exact hunspent i hi (hi'.trans hpoint)

/-! ## Replay -/

/-- An unspent output as a node keeps it. -/
structure Coin where
  position : Position
  coinbase : Nat
  output : ScriptOutput
  deriving DecidableEq

def outputCoin (o : Output) : Coin := ⟨outputPosition o, o.coinbase, o.output⟩

/-- What a transaction does to the unspent outputs. -/
structure Movement where
  position : Position
  txid : String
  spends : List Outpoint
  creates : List (Outpoint × Coin)

/-- The outpoint an input names. -/
def spendOf (input : Value) : Option Outpoint := do
  let raw ← input["txid"].asStr
  let previous ← (normalizeHash .bitcoin raw).toOption
  let n ← input["vout"].asU64
  some (previous, n)

def txidOf (tx : Value) : String :=
  ((tx["txid"].asStr.bind fun raw => (normalizeHash .bitcoin raw).toOption)).getD ""

section
variable (scripts : ScriptLibrary)

def createOf (txid : String) (position : Position) (coinbase : Nat) (vout : Value × Nat) :
    Option (Outpoint × Coin) :=
  (ScriptOutput.fromRpc scripts vout.1).toOption.map fun output =>
    ((txid, vout.2), ⟨position, coinbase, output⟩)

/-- The transaction at an index of the block at a height. -/
def movement (height : Nat) (tx : Value × Nat) : Movement :=
  let vin := tx.1["vin"].asArray.getD []
  let coinbase := if isCoinbase tx.2 vin then 1 else 0
  ⟨toLex (height, tx.2), txidOf tx.1, if coinbase = 0 then vin.filterMap spendOf else [],
    (tx.1["vout"].asArray.getD []).zipIdx.filterMap
      (createOf scripts (txidOf tx.1) (toLex (height, tx.2)) coinbase)⟩

def heightOf (block : Value) : Nat := block["height"].asU64.getD 0

def movementsOf (block : Value) : List Movement :=
  (block["tx"].asArray.getD []).zipIdx.map (movement scripts (heightOf block))

end

/-- The log of a transaction: it spends before it creates. -/
def Movement.entries (m : Movement) : List (Entry Outpoint Position Coin) :=
  m.spends.map (fun point => ⟨point, m.position, none⟩) ++
    m.creates.map fun created => ⟨created.1, m.position, some created.2⟩

def log (ms : List Movement) : List (Entry Outpoint Position Coin) := ms.flatMap Movement.entries

/-- Every transaction spends only outputs that exist when it comes. -/
def spendsExistingFrom (store : Outpoint → Option Coin) : List Movement → Bool
  | [] => true
  | m :: rest => m.spends.all (fun point => (store point).isSome) &&
      spendsExistingFrom (replayFrom store m.entries) rest

def SpendsExisting (ms : List Movement) : Prop := spendsExistingFrom (fun _ => none) ms = true

/-- The id of a transaction commits to what it spends. -/
def CommitsToSpends (ms : List Movement) : Prop :=
  ∀ a ∈ ms, ∀ b ∈ ms, a.txid = b.txid → a.spends = b.spends

instance (ms : List Movement) : Decidable (SpendsExisting ms) := inferInstanceAs (Decidable (_ = _))
instance (ms : List Movement) : Decidable (CommitsToSpends ms) := by
  unfold CommitsToSpends; infer_instance

theorem spendsExistingFrom_append {store : Outpoint → Option Coin} {before after : List Movement}
    {m : Movement} (h : spendsExistingFrom store (before ++ m :: after) = true) :
    ∀ point ∈ m.spends, (replayFrom store (log before) point).isSome := by
  induction before generalizing store with
  | nil =>
    obtain ⟨hspends, _⟩ := Bool.and_eq_true_iff.mp h
    exact fun point hpoint => List.all_eq_true.mp hspends point hpoint
  | cons first rest ih =>
    obtain ⟨_, hrest⟩ := Bool.and_eq_true_iff.mp h
    unfold log
    rw [List.flatMap_cons, replayFrom_append]
    exact ih hrest

theorem SpendsExisting.exists {ms before after : List Movement} {m : Movement}
    (h : SpendsExisting ms) (hsplit : ms = before ++ m :: after) {point : Outpoint}
    (hpoint : point ∈ m.spends) : ∃ coin, replay (log before) point = some coin :=
  Option.isSome_iff_exists.mp (spendsExistingFrom_append (hsplit ▸ h) point hpoint)

/-! ## The rows of a block are its movements -/

def outputEntry (o : Output) : Outpoint × Coin := (outputPoint o, outputCoin o)
def inputEntry (i : Input) : Outpoint × Position := (inputPoint i, inputPosition i)

section
variable {scripts : ScriptLibrary} {site : Site} {place : Place}

theorem extractInput_ok {s s' : Extraction × Nat} {input : Value × Nat}
    (h : extractInput scripts site place s input = .ok s') :
    ∃ row : Input, spendOf input.1 = some (inputPoint row) ∧
      inputPosition row = toLex (site.height, place.index) ∧
      s'.1.evidence = { s.1.evidence with inputs := s.1.evidence.inputs ++ [row] } := by
  obtain ⟨raw, hraw, h⟩ := bind_ok h
  obtain ⟨previous, hprevious, h⟩ := bind_ok h
  obtain ⟨vout, hvout, h⟩ := bind_ok h
  obtain ⟨n, hn, h⟩ := bind_ok h
  obtain ⟨_, _, h⟩ := bind_ok h
  obtain ⟨output, _, h⟩ := bind_ok h
  obtain ⟨total, _, h⟩ := bind_ok h
  obtain rfl := Except.ok.inj h
  obtain ⟨rfl, _⟩ := u32_ok hn
  refine ⟨_, ?_, rfl, rfl⟩
  unfold spendOf
  rw [context_ok hraw, context_ok hvout]
  show ((normalizeHash .bitcoin raw).toOption.bind fun previous => some (previous, n)) = _
  rw [hprevious]; rfl

theorem extractInputs_ok {vin : List Value} {k : Nat} {s s' : Extraction × Nat}
    (h : (vin.zipIdx k).foldlM (extractInput scripts site place) s = .ok s') :
    ∃ rows : List Input, rows.map inputEntry =
        (vin.filterMap spendOf).map (fun point => (point, toLex (site.height, place.index))) ∧
      s'.1.evidence = { s.1.evidence with inputs := s.1.evidence.inputs ++ rows } := by
  induction vin generalizing k s with
  | nil => cases h; exact ⟨[], rfl, by simp⟩
  | cons input rest ih =>
    rw [List.zipIdx_cons, List.foldlM_cons] at h
    obtain ⟨mid, hone, hrest⟩ := bind_ok h
    obtain ⟨row, hspend, hposition, hmid⟩ := extractInput_ok hone
    obtain ⟨rows, hrows, hs⟩ := ih hrest
    refine ⟨row :: rows, ?_, by rw [hs, hmid]; simp⟩
    rw [List.filterMap_cons_some hspend, List.map_cons, List.map_cons, hrows]
    show (inputPoint row, inputPosition row) :: _ = _
    rw [hposition]

theorem extractOutput_ok {s s' : Extraction × Nat} {vout : Value × Nat}
    (h : extractOutput scripts site place s vout = .ok s') :
    ∃ row : Output, createOf scripts place.txid (toLex (site.height, place.index)) place.coinbase
        vout = some (outputEntry row) ∧
      s'.1.evidence = { s.1.evidence with outputs := s.1.evidence.outputs ++ [row] } := by
  obtain ⟨_, _, h⟩ := bind_ok h
  obtain ⟨output, houtput, h⟩ := bind_ok h
  obtain ⟨total, _, h⟩ := bind_ok h
  obtain rfl := Except.ok.inj h
  refine ⟨_, ?_, rfl⟩
  unfold createOf
  rw [houtput]; rfl

theorem extractOutputs_ok {vout : List (Value × Nat)} {s s' : Extraction × Nat}
    (h : vout.foldlM (extractOutput scripts site place) s = .ok s') :
    ∃ rows : List Output, rows.map outputEntry = vout.filterMap
        (createOf scripts place.txid (toLex (site.height, place.index)) place.coinbase) ∧
      s'.1.evidence = { s.1.evidence with outputs := s.1.evidence.outputs ++ rows } := by
  induction vout generalizing s with
  | nil => cases h; exact ⟨[], rfl, by simp⟩
  | cons output rest ih =>
    rw [List.foldlM_cons] at h
    obtain ⟨mid, hone, hrest⟩ := bind_ok h
    obtain ⟨row, hcreate, hmid⟩ := extractOutput_ok hone
    obtain ⟨rows, hrows, hs⟩ := ih hrest
    refine ⟨row :: rows, ?_, by rw [hs, hmid]; simp⟩
    rw [List.filterMap_cons_some hcreate, List.map_cons, hrows]

theorem extractTransaction_ok {s s' : Extraction} {tx : Value × Nat}
    (h : extractTransaction scripts site s tx = .ok s') :
    s'.evidence.outputs.map outputEntry =
        s.evidence.outputs.map outputEntry ++ (movement scripts site.height tx).creates ∧
      s'.evidence.inputs.map inputEntry = s.evidence.inputs.map inputEntry ++
        (movement scripts site.height tx).spends.map
          fun point => (point, toLex (site.height, tx.2)) := by
  obtain ⟨raw, hraw, h⟩ := bind_ok h
  obtain ⟨txid, htxid, h⟩ := bind_ok h
  obtain ⟨vin, hvin, h⟩ := bind_ok h
  obtain ⟨vout, hvout, h⟩ := bind_ok h
  obtain ⟨_, _, h⟩ := bind_ok h
  obtain ⟨_, _, h⟩ := bind_ok h
  obtain ⟨⟨spent, inputTotal⟩, hinputs, h⟩ := bind_ok h
  obtain ⟨⟨created, outputTotal⟩, houtputs, h⟩ := bind_ok h
  obtain ⟨fee, _, h⟩ := bind_ok h
  obtain rfl := Except.ok.inj h
  have hid : txidOf tx.1 = txid := by
    unfold txidOf
    rw [context_ok hraw, Option.bind_some, htxid]; rfl
  obtain ⟨outs, houts, hcreated⟩ := extractOutputs_ok houtputs
  have hins : ∃ rows : List Input, rows.map inputEntry =
        (movement scripts site.height tx).spends.map
          (fun point => (point, toLex (site.height, tx.2))) ∧
      spent.evidence = { s.evidence with inputs := s.evidence.inputs ++ rows } := by
    unfold movement
    rw [context_ok hvin]
    simp only [Option.getD_some]
    by_cases hcoinbase : isCoinbase tx.2 vin = true
    · simp only [hcoinbase, if_true, Nat.one_ne_zero, if_false] at hinputs ⊢
      cases hinputs
      exact ⟨[], rfl, by simp⟩
    · simp only [hcoinbase, Bool.false_eq_true, if_false, if_true] at hinputs ⊢
      exact extractInputs_ok hinputs
  obtain ⟨ins, hins, hspent⟩ := hins
  simp only at hcreated
  constructor
  · show created.evidence.outputs.map _ = _
    rw [hcreated, hspent]
    unfold movement
    rw [context_ok hvin, context_ok hvout, hid, List.map_append, houts]
    rfl
  · show created.evidence.inputs.map _ = _
    rw [hcreated, hspent, List.map_append, hins]

theorem extractTransactions_ok {txs : List (Value × Nat)} {s s' : Extraction}
    (h : txs.foldlM (extractTransaction scripts site) s = .ok s') :
    s'.evidence.outputs.map outputEntry = s.evidence.outputs.map outputEntry ++
        (txs.map (movement scripts site.height)).flatMap Movement.creates ∧
      s'.evidence.inputs.map inputEntry = s.evidence.inputs.map inputEntry ++
        (txs.map (movement scripts site.height)).flatMap
          fun m => m.spends.map fun point => (point, m.position) := by
  induction txs generalizing s with
  | nil => cases h; simp
  | cons tx rest ih =>
    rw [List.foldlM_cons] at h
    obtain ⟨mid, hone, hrest⟩ := bind_ok h
    obtain ⟨houts, hins⟩ := extractTransaction_ok hone
    obtain ⟨houts', hins'⟩ := ih hrest
    constructor
    · rw [houts', houts, List.map_cons, List.flatMap_cons, List.append_assoc]
    · rw [hins', hins, List.map_cons, List.flatMap_cons, List.append_assoc]
      rfl

/-- The rows `extract` makes of a block say what its transactions do, in order. -/
theorem extract_ok {block : Value} {commitId : String} {resolved : List (String × ScriptOutput)}
    {evidence : Evidence} (h : extract scripts block commitId resolved = .ok evidence) :
    evidence.outputs.map outputEntry = (movementsOf scripts block).flatMap Movement.creates ∧
      evidence.inputs.map inputEntry = (movementsOf scripts block).flatMap
        fun m => m.spends.map fun point => (point, m.position) := by
  obtain ⟨height, hheight, h⟩ := bind_ok h
  obtain ⟨raw, _, h⟩ := bind_ok h
  obtain ⟨blockHash, _, h⟩ := bind_ok h
  obtain ⟨time, _, h⟩ := bind_ok h
  obtain ⟨transactions, htxs, h⟩ := bind_ok h
  obtain ⟨_, _, h⟩ := bind_ok h
  obtain ⟨final, hfinal, h⟩ := bind_ok h
  obtain rfl := Except.ok.inj h
  unfold movementsOf heightOf
  rw [context_ok hheight, context_ok htxs]
  exact extractTransactions_ok hfinal

end

end AmlReal.Bitcoin.Unspent
