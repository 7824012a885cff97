import Mathlib.Data.List.Dedup
import Mathlib.Data.Prod.Lex
import AmlReal.Foundations.OrderedLimit
import AmlReal.Warehouse.Relationships

/-! # Reading a neighbourhood

`relationships/query.rs` and its `query.sql`: the newest transactions that touch a
subject, and every relationship of theirs up to a limit. A Bitcoin relationship
is shown only where a canonical input or output bears it out. The canonical views
of one checkpoint are lists of rows. -/

namespace AmlReal.Warehouse.RelationshipReader
open AmlReal.Foundations AmlReal.Foundations.Checks AmlReal.Foundations.OrderedLimit
open AmlReal.Tron.AddressSpellings (Sha256 hexDigits LOWER)
open AmlReal.Warehouse.Relationships AmlReal.Warehouse.Values

/-! ## The canonical views -/

/-- The columns that inputs and outputs share. -/
structure ScriptFact where
  networkId : Network
  blockNumber : Nat
  blockHash : String
  blockTimestampUnixMs : Nat
  commitId : String
  revision : Nat
  txHash : String
  transactionIndex : Nat
  address : Option String
  scriptHex : String
  scriptType : String
  valueSats : Nat
  createdAtUnixMs : Nat
  deriving DecidableEq

/-- `aml_bitcoin_inputs` -/
structure InputRow extends ScriptFact where
  inputIndex : Nat
  prevTxHash : String
  prevOutputIndex : Nat
  deriving DecidableEq

/-- `aml_bitcoin_outputs` -/
structure OutputRow extends ScriptFact where
  outputIndex : Nat
  coinbase : Nat
  deriving DecidableEq

structure Facts where
  revision : Nat
  relationships : List Row
  inputs : List InputRow
  outputs : List OutputRow

/-! ## Transaction occurrences -/

structure Query where
  maxTransactions : Nat
  maxEdges : Nat

def Query.validate (query : Query) : Except String Unit :=
  ensure (1 ≤ query.maxTransactions ∧ query.maxTransactions ≤ 100 ∧ 1 ≤ query.maxEdges ∧ query.maxEdges ≤ 2000)
    "relationship query limits exceeded"

structure Occurrence where
  height : Nat
  hash : String
  commit : String
  revision : Nat
  tx : String
  index : Nat
  deriving DecidableEq

/-- What `Occurrence::parse` asks of the columns of an answer. -/
def Occurrence.check (network : Network) (o : Occurrence) : Except String Unit := do
  checkHashes network o.hash o.tx "invalid occurrence hashes"
  ensure (o.commit ≠ "" ∧ 0 < o.revision) "invalid occurrence commit/revision"

def occurrence (row : Row) : Occurrence :=
  ⟨row.blockNumber, row.blockHash, row.commitId, row.revision, row.txHash, row.transactionIndex⟩

def ScriptFact.occurrence (fact : ScriptFact) : Occurrence :=
  ⟨fact.blockNumber, fact.blockHash, fact.commitId, fact.revision, fact.txHash, fact.transactionIndex⟩

/-- `ORDER BY block_number DESC,transaction_index,block_hash,tx_hash` -/
def Occurrence.rank (o : Occurrence) : Natᵒᵈ ×ₗ Nat ×ₗ String ×ₗ String :=
  toLex (OrderDual.toDual o.height, toLex (o.index, toLex (o.hash, o.tx)))

/-- The subject stands at one end of the row. -/
def touches (subject : Subject) (row : Row) : Prop :=
  (row.fromSubjectId = subject.subjectId ∧ row.fromSubjectType = subject.subjectType.asStr) ∨
    (row.toSubjectId = subject.subjectId ∧ row.toSubjectType = subject.subjectType.asStr)

instance (subject : Subject) (row : Row) : Decidable (touches subject row) := inferInstanceAs (Decidable (_ ∨ _))

def touching (facts : Facts) (network : Network) (subject : Subject) : List Occurrence :=
  ((facts.relationships.filter fun row => row.networkId = network ∧ touches subject row).map occurrence).dedup

/-! ## Witnesses -/

/-- A line of the union of inputs and outputs. -/
structure Witness where
  fact : ScriptFact
  legIndex : Nat
  legKind : String
  prevTxHash : Option String
  prevOutputIndex : Option Nat
  outputIndex : Option Nat

def InputRow.witness (row : InputRow) : Witness where
  fact := row.toScriptFact
  legIndex := row.inputIndex
  legKind := "utxo_input"
  prevTxHash := some row.prevTxHash
  prevOutputIndex := some row.prevOutputIndex
  outputIndex := none

def OutputRow.witness (row : OutputRow) : Witness where
  fact := row.toScriptFact
  legIndex := row.outputIndex
  legKind := "utxo_output"
  prevTxHash := none
  prevOutputIndex := none
  outputIndex := some row.outputIndex

def witnesses (facts : Facts) (network : Network) (keys : List Occurrence) : List Witness :=
  (facts.inputs.map InputRow.witness ++ facts.outputs.map OutputRow.witness).filter fun w =>
    w.fact.networkId = network ∧ w.fact.occurrence ∈ keys

/-- `ifNull(toString(n),'')` -/
def printed (n : Option Nat) : String := (n.map Nat.repr).getD ""

section
variable (sha : Sha256)

def scriptSubject (scriptHex : String) : String :=
  "script:" ++ String.ofList ((sha.digest (scriptHex.toUTF8.toList.map UInt8.toNat)).flatMap (hexDigits LOWER))

def ScriptFact.walletSubject (fact : ScriptFact) : String := fact.address.getD (scriptSubject sha fact.scriptHex)

/-- The condition of the join. -/
def Matches (row : Row) (w : Witness) : Prop :=
  (row.networkId = w.fact.networkId ∧ row.blockTimestampUnixMs = w.fact.blockTimestampUnixMs ∧
    occurrence row = w.fact.occurrence) ∧
  (row.transferType = w.legKind ∧ row.eventIndex = w.legIndex ∧ row.amountRaw = w.fact.valueSats) ∧
  ((if row.transferType = "utxo_input" then row.fromSubjectId else row.toSubjectId) = w.fact.walletSubject sha ∧
    (if row.transferType = "utxo_input" then row.fromAddress else row.toAddress).getD "" = w.fact.address.getD "") ∧
  (row.prevTxHash.getD "" = w.prevTxHash.getD "" ∧ printed row.prevOutputIndex = printed w.prevOutputIndex ∧
    printed row.outputIndex = printed w.outputIndex)

instance (row : Row) (w : Witness) : Decidable (Matches sha row w) := inferInstanceAs (Decidable (_ ∧ _))

/-- A relationship of the left join, once for each witness, with the flag `matched`. -/
def joined (found : List Witness) (row : Row) : List (Row × Nat) :=
  match found.filter fun w => Matches sha row w with
  | [] => [(row, 0)]
  | matched => matched.map fun _ => (row, 1)

/-- `ORDER BY block_number DESC,transaction_index,event_index,event_sub_index,relationship_id` -/
def lineRank (line : Row × Nat) : Natᵒᵈ ×ₗ Nat ×ₗ Nat ×ₗ Nat ×ₗ String :=
  toLex (OrderDual.toDual line.1.blockNumber, toLex (line.1.transactionIndex,
    toLex (line.1.eventIndex, toLex (line.1.eventSubIndex, line.1.relationshipId))))

def lines (facts : Facts) (network : Network) (keys : List Occurrence) : List (Row × Nat) :=
  (facts.relationships.filter fun row => row.networkId = network ∧ occurrence row ∈ keys).flatMap
    (joined sha (witnesses facts network keys))

/-! ## The neighbourhood -/

/-- One line of the answer; the line beyond the limit is checked, and not shown. -/
def addLine (network : Network) (maxEdges : Nat) (g : Graph sha) (line : (Row × Nat) × Nat) :
    Except String (Graph sha) := do
  let edge ← Edge.fromValidated line.1.1
  ensure (network = .bitcoin → line.1.2 = 1)
    s!"canonical UTXO witness does not match relationship {line.1.1.relationshipId}"
  if line.2 < maxEdges then g.edge edge else pure g

def readEdges (facts : Facts) (network : Network) (query : Query) (occurrences : List Occurrence)
    (g : Graph sha) : Except String (Graph sha) :=
  if occurrences = [] then .ok g
  else
    let found := limited lineRank (query.maxEdges + 1) (lines sha facts network occurrences)
    found.zipIdx.foldlM (addLine sha network query.maxEdges)
      { g with truncated := g.truncated || decide (query.maxEdges < found.length) }

structure Neighborhood where
  graph : Graph sha
  revision : Nat
  selectedTransactions : Nat

def readNeighborhood (facts : Facts) (network : Network) (subject : Subject) (query : Query) :
    Except String (Neighborhood sha) := do
  query.validate
  ensure (subject.networkId = network) "cross-network subject query"
  let selected := limited Occurrence.rank (query.maxTransactions + 1) (touching facts network subject)
  let g ← (Graph.new network).node subject
  let occurrences := selected.take query.maxTransactions
  occurrences.forM (Occurrence.check network)
  let g ← readEdges sha facts network query occurrences
    { g with truncated := decide (query.maxTransactions < selected.length) }
  pure ⟨g, facts.revision, occurrences.length⟩

end

/-! ## What a neighbourhood shows -/

section
variable (sha : Sha256)

/-- A relationship of a transaction that touches the subject. -/
def Related (facts : Facts) (network : Network) (subject : Subject) (row : Row) : Prop :=
  row ∈ facts.relationships ∧ row.networkId = network ∧
    ∃ r ∈ facts.relationships, r.networkId = network ∧ touches subject r ∧ occurrence r = occurrence row

/-- An input of the same occurrence, at the same index, of the same amount and wallet. -/
def InputBehind (facts : Facts) (row : Row) : Prop :=
  ∃ i ∈ facts.inputs, i.occurrence = occurrence row ∧ i.inputIndex = row.eventIndex ∧
    i.valueSats = row.amountRaw ∧ i.walletSubject sha = row.fromSubjectId ∧
    row.prevTxHash = some i.prevTxHash ∧ row.prevOutputIndex = some i.prevOutputIndex

def OutputBehind (facts : Facts) (row : Row) : Prop :=
  ∃ o ∈ facts.outputs, o.occurrence = occurrence row ∧ o.outputIndex = row.eventIndex ∧
    o.valueSats = row.amountRaw ∧ o.walletSubject sha = row.toSubjectId

/-- The canonical fact behind a Bitcoin relationship. -/
def BornOut (facts : Facts) (row : Row) : Prop :=
  (IsInput sha row ∧ InputBehind sha facts row) ∨ (IsOutput sha row ∧ OutputBehind sha facts row)

variable {sha} {facts : Facts} {network : Network} {subject : Subject} {query : Query} {row : Row}
  {g g' : Graph sha}

theorem printed_inj {a b : Nat} (h : printed (some a) = printed (some b)) : a = b :=
  AmlReal.Foundations.JoinedText.repr_injective h

theorem mem_witnesses {keys : List Occurrence} {w : Witness} (h : w ∈ witnesses facts network keys) :
    (∃ i ∈ facts.inputs, w = i.witness) ∨ ∃ o ∈ facts.outputs, w = o.witness := by
  obtain ⟨h, _⟩ := List.mem_filter.mp h
  rcases List.mem_append.mp h with h | h
  · obtain ⟨i, hi, rfl⟩ := List.mem_map.mp h
    exact Or.inl ⟨i, hi, rfl⟩
  · obtain ⟨o, ho, rfl⟩ := List.mem_map.mp h
    exact Or.inr ⟨o, ho, rfl⟩

/-- The witness of an accepted edge is the input or output it speaks of. -/
theorem born_out {edge : Edge sha} (hnetwork : edge.row.networkId = .bitcoin) {keys : List Occurrence}
    {w : Witness} (hw : w ∈ witnesses facts network keys) (h : Matches sha edge.row w) :
    BornOut sha facts edge.row := by
  obtain ⟨⟨_, _, hoccurrence⟩, ⟨hkind, hindex, hamount⟩, ⟨hwallet, _⟩, hhash, hprevious, _⟩ := h
  rcases edge.utxo hnetwork with hinput | houtput
  · refine Or.inl ⟨hinput, ?_⟩
    obtain ⟨htype, _, htx, hvout, _⟩ := hinput
    rw [if_pos htype] at hwallet
    rcases mem_witnesses hw with ⟨i, hi, rfl⟩ | ⟨o, _, rfl⟩
    · obtain ⟨previous, hprev⟩ := Option.isSome_iff_exists.mp htx
      obtain ⟨vout, hv⟩ := Option.isSome_iff_exists.mp hvout
      rw [hprev] at hhash
      rw [hv] at hprevious
      exact ⟨i, hi, hoccurrence.symm, hindex.symm, hamount.symm, hwallet.symm,
        hprev.trans (congrArg some hhash), hv.trans (congrArg some (printed_inj hprevious))⟩
    · exact absurd (htype.symm.trans hkind) (show "utxo_input" ≠ "utxo_output" by decide)
  · refine Or.inr ⟨houtput, ?_⟩
    have htype := houtput.1
    rw [if_neg (by rw [htype]; decide)] at hwallet
    rcases mem_witnesses hw with ⟨i, _, rfl⟩ | ⟨o, ho, rfl⟩
    · exact absurd (htype.symm.trans hkind) (show "utxo_output" ≠ "utxo_input" by decide)
    · exact ⟨o, ho, hoccurrence.symm, hindex.symm, hamount.symm, hwallet.symm⟩

theorem mem_joined {found : List Witness} {line : Row × Nat} (h : line ∈ joined sha found row) :
    line.1 = row ∧ (line.2 = 1 → ∃ w ∈ found, Matches sha row w) := by
  unfold joined at h
  split at h
  · obtain rfl := List.mem_singleton.mp h
    exact ⟨rfl, fun h => by cases h⟩
  · rename_i matched hmatched
    obtain ⟨w, hw, rfl⟩ := List.mem_map.mp h
    obtain ⟨hw, hmatches⟩ := List.mem_filter.mp hw
    exact ⟨rfl, fun _ => ⟨w, hw, of_decide_eq_true hmatches⟩⟩

variable (sha) in
/-- The left join keeps every relationship. -/
theorem exists_joined (found : List Witness) (row : Row) : ∃ flag, (row, flag) ∈ joined sha found row := by
  unfold joined
  split
  · exact ⟨0, List.mem_singleton.mpr rfl⟩
  · rename_i matched hmatched
    obtain ⟨w, hw⟩ := List.exists_mem_of_ne_nil _ hmatched
    exact ⟨1, List.mem_map.mpr ⟨w, hw, rfl⟩⟩

theorem mem_lines {keys : List Occurrence} {line : Row × Nat} (h : line ∈ lines sha facts network keys) :
    line.1 ∈ facts.relationships ∧ line.1.networkId = network ∧ occurrence line.1 ∈ keys ∧
      (line.2 = 1 → ∃ w ∈ witnesses facts network keys, Matches sha line.1 w) := by
  obtain ⟨row, hrow, h⟩ := List.mem_flatMap.mp h
  obtain ⟨hrow, hkeys⟩ := List.mem_filter.mp hrow
  obtain ⟨rfl, hmatch⟩ := mem_joined h
  have hkeys := of_decide_eq_true hkeys
  exact ⟨hrow, hkeys.1, hkeys.2, hmatch⟩

variable (sha) in
theorem exists_line {keys : List Occurrence} (hrow : row ∈ facts.relationships) (hnetwork : row.networkId = network)
    (hkey : occurrence row ∈ keys) : ∃ flag, (row, flag) ∈ lines sha facts network keys := by
  obtain ⟨flag, hflag⟩ := exists_joined sha (witnesses facts network keys) row
  exact ⟨flag, List.mem_flatMap.mpr ⟨row, List.mem_filter.mpr ⟨hrow, decide_eq_true ⟨hnetwork, hkey⟩⟩, hflag⟩⟩

theorem mem_touching {o : Occurrence} : o ∈ touching facts network subject ↔
    ∃ r ∈ facts.relationships, r.networkId = network ∧ touches subject r ∧ occurrence r = o := by
  rw [touching, List.mem_dedup, List.mem_map]
  simp only [List.mem_filter, decide_eq_true_eq, and_assoc]

/-- The lines that were shown, each as an accepted edge. -/
structure Showing (network : Network) (found : List (Row × Nat)) (edges : List (Edge sha)) (g g' : Graph sha) :
    Prop where
  rows : edges.map Edge.row = found.map Prod.fst
  matched : network = .bitcoin → ∀ line ∈ found, line.2 = 1
  adds : Graph.Adds edges g g'
  present : ∀ e ∈ edges, ∃ d ∈ g'.edges, d.key = e.key
  count : g'.edges.length ≤ g.edges.length + edges.length
  truncated : g'.truncated = g.truncated

theorem Showing.refl (h : g.Closed) : Showing network [] [] g g where
  rows := rfl
  matched := fun _ _ h => by cases h
  adds := Graph.Adds.refl h
  present := fun _ h => by cases h
  count := Nat.le_refl _
  truncated := rfl

theorem Showing.cons {line : Row × Nat} {rest : List (Row × Nat)} {edge : Edge sha} {edges : List (Edge sha)}
    {g'' : Graph sha} (hrow : edge.row = line.1) (hmatched : network = .bitcoin → line.2 = 1) (hg : g.Closed)
    (hedge : g.edge edge = .ok g') (h : Showing network rest edges g' g'') :
    Showing network (line :: rest) (edge :: edges) g g'' := by
  obtain ⟨hmem, hcount, htruncated⟩ := Graph.edge_counts hg hedge
  exact {
    rows := by rw [List.map_cons, List.map_cons, hrow, h.rows]
    matched := fun hnetwork => List.forall_mem_cons.mpr ⟨hmatched hnetwork, h.matched hnetwork⟩
    adds := (Graph.edge_adds hg hedge).trans h.adds
    present := h.adds.present (List.forall_mem_singleton.mpr ⟨edge, hmem, rfl⟩) h.present
    count := by
      have := h.count
      rw [List.length_cons]
      omega
    truncated := h.truncated.trans htruncated }

/-- A line is checked wherever it stands; before the limit it becomes an edge. -/
theorem addLine_ok {maxEdges k : Nat} {line : Row × Nat} (h : addLine sha network maxEdges g (line, k) = .ok g') :
    ∃ edge : Edge sha, edge.row = line.1 ∧ (network = .bitcoin → line.2 = 1) ∧
      if k < maxEdges then g.edge edge = .ok g' else g' = g := by
  obtain ⟨edge, hedge, h⟩ := bind_ok h
  obtain ⟨_, hmatched, h⟩ := bind_ok h
  refine ⟨edge, fromValidated_row hedge, ensure_ok hmatched, ?_⟩
  split at h
  · rename_i hlt
    rw [if_pos hlt]
    exact h
  · rename_i hlt
    rw [if_neg hlt]
    exact (Except.ok.inj h).symm

theorem readLines_showing {maxEdges k : Nat} {found : List (Row × Nat)} (hg : g.Closed)
    (h : (found.zipIdx k).foldlM (addLine sha network maxEdges) g = .ok g') :
    ∃ edges, Showing network (found.take (maxEdges - k)) edges g g' := by
  induction found generalizing g k with
  | nil =>
    cases h
    exact ⟨[], by rw [List.take_nil]; exact Showing.refl hg⟩
  | cons line rest ih =>
    rw [List.zipIdx_cons, List.foldlM_cons] at h
    obtain ⟨mid, hline, hgo⟩ := bind_ok h
    obtain ⟨edge, hrow, hmatched, hstep⟩ := addLine_ok hline
    split at hstep
    · rename_i hlt
      obtain ⟨edges, hrest⟩ := ih (hg.edge hstep) hgo
      rw [show maxEdges - k = (maxEdges - (k + 1)) + 1 by omega, List.take_succ_cons]
      exact ⟨edge :: edges, hrest.cons hrow hmatched hg hstep⟩
    · rename_i hlt
      rw [hstep] at hgo
      obtain ⟨edges, hrest⟩ := ih hg hgo
      rw [show maxEdges - (k + 1) = 0 by omega, List.take_zero] at hrest
      rw [show maxEdges - k = 0 by omega, List.take_zero]
      exact ⟨edges, hrest⟩

/-- The relationships that are shown, what is behind them, and what is left out. -/
structure Neighbouring (facts : Facts) (network : Network) (subject : Subject) (query : Query)
    (n : Neighborhood sha) : Prop where
  closed : n.graph.Closed
  networkId : n.graph.networkId = network
  root : ∃ node ∈ n.graph.nodes, node.subjectId = subject.subjectId
  transactions : n.selectedTransactions ≤ query.maxTransactions
  edges : n.graph.edges.length ≤ query.maxEdges
  related : ∀ e ∈ n.graph.edges, Related facts network subject e.row
  bornOut : network = .bitcoin → ∀ e ∈ n.graph.edges, BornOut sha facts e.row
  /-- What is left out of the graph is no newer than anything in it. -/
  newest : ∀ row, Related facts network subject row → (∀ d ∈ n.graph.edges, d.key ≠ row.key) →
    ∀ e ∈ n.graph.edges, row.blockNumber ≤ e.row.blockNumber
  whole : n.graph.truncated = false → ∀ row, Related facts network subject row → ∃ e ∈ n.graph.edges, e.key = row.key

theorem rank_height {a b : Occurrence} (h : a.rank ≤ b.rank) : b.height ≤ a.height := by
  rcases Prod.Lex.toLex_le_toLex.mp h with h | h
  · exact Nat.le_of_lt (OrderDual.toDual_lt_toDual.mp h)
  · exact Nat.le_of_eq (OrderDual.toDual.injective h.1).symm

theorem lineRank_height {a b : Row × Nat} (h : lineRank a ≤ lineRank b) : b.1.blockNumber ≤ a.1.blockNumber := by
  rcases Prod.Lex.toLex_le_toLex.mp h with h | h
  · exact Nat.le_of_lt (OrderDual.toDual_lt_toDual.mp h)
  · exact Nat.le_of_eq (OrderDual.toDual.injective h.1).symm

section
variable {found : List (Row × Nat)} {edges : List (Edge sha)}

theorem Showing.key (h : Showing network found edges g g') {line : Row × Nat} (hline : line ∈ found) :
    ∃ d ∈ g'.edges, d.key = line.1.key := by
  have hrow : line.1 ∈ edges.map Edge.row := h.rows ▸ List.mem_map.mpr ⟨line, hline, rfl⟩
  obtain ⟨e, he, hrow⟩ := List.mem_map.mp hrow
  rw [← hrow]
  exact h.present e he

theorem Showing.line (h : Showing network found edges g g') {e : Edge sha} (he : e ∈ edges) :
    ∃ line ∈ found, line.1 = e.row := by
  have hrow : e.row ∈ found.map Prod.fst := h.rows ▸ List.mem_map.mpr ⟨e, he, rfl⟩
  exact List.mem_map.mp hrow

end

/-! ## The lines that are shown -/

variable (facts network subject query) in
/-- The transactions that a query reads. -/
def chosen : List Occurrence := limited Occurrence.rank query.maxTransactions (touching facts network subject)

variable (sha facts network subject query) in
/-- Their lines, up to the limit. -/
def answered : List (Row × Nat) :=
  limited lineRank query.maxEdges (lines sha facts network (chosen facts network subject query))

theorem touching_of_related (h : Related facts network subject row) :
    occurrence row ∈ touching facts network subject := mem_touching.mpr h.2.2

theorem related_of_answered {line : Row × Nat} (h : line ∈ answered sha facts network subject query) :
    Related facts network subject line.1 := by
  obtain ⟨hrow, hnetwork, hkey, _⟩ := mem_lines (mem_of_mem_limited h)
  exact ⟨hrow, hnetwork, mem_touching.mp (mem_of_mem_limited hkey)⟩

/-- A line that is not shown is no newer than the lines that are. -/
theorem answered_newest {line : Row × Nat} (hline : line ∈ answered sha facts network subject query)
    (hrow : Related facts network subject row) (hout : ∀ flag, (row, flag) ∉ answered sha facts network subject query) :
    row.blockNumber ≤ line.1.blockNumber := by
  by_cases hkey : occurrence row ∈ chosen facts network subject query
  · -- its transaction was chosen, the line fell behind the limit
    obtain ⟨flag, hflag⟩ := exists_line sha hrow.1 hrow.2.1 hkey
    have hrank := limited_first hflag (hout flag) hline
    exact lineRank_height hrank
  · have hchosen := (mem_lines (mem_of_mem_limited hline)).2.2.1
    have hrank := limited_first (touching_of_related hrow) hkey hchosen
    exact rank_height hrank

/-- Where one more transaction and one more line were asked for in vain, every line is shown. -/
theorem answered_whole
    (htransactions : (limited Occurrence.rank (query.maxTransactions + 1) (touching facts network subject)).length ≤
      query.maxTransactions)
    (hlines : (limited lineRank (query.maxEdges + 1) (lines sha facts network
      (chosen facts network subject query))).length ≤ query.maxEdges)
    (hrow : Related facts network subject row) : ∃ flag, (row, flag) ∈ answered sha facts network subject query := by
  have hkey : occurrence row ∈ chosen facts network subject query :=
    mem_limited htransactions (touching_of_related hrow)
  obtain ⟨flag, hflag⟩ := exists_line sha hrow.1 hrow.2.1 hkey
  exact ⟨flag, mem_limited hlines hflag⟩

/-- What the lines show, from a graph of the subject alone. -/
theorem showing_neighbouring {g : Graph sha} {truncated : Bool} {edges : List (Edge sha)}
    (h : Showing network (answered sha facts network subject query) edges
      ⟨network, [subject], [], truncated⟩ g)
    (hwhole : truncated = false → ∀ row, Related facts network subject row →
      ∃ flag, (row, flag) ∈ answered sha facts network subject query) :
    Neighbouring facts network subject query ⟨g, facts.revision, (chosen facts network subject query).length⟩ := by
  have hline : ∀ e ∈ g.edges, ∃ line ∈ answered sha facts network subject query, line.1 = e.row := fun e he =>
    h.line ((h.adds.added e he).resolve_left fun hnone => by cases hnone)
  exact {
    closed := h.adds.closed
    networkId := h.adds.networkId
    root := h.adds.nodes subject (List.mem_singleton.mpr rfl)
    transactions := length_limited_le
    edges := by
      have hcount := h.count
      have hlength := congrArg List.length h.rows
      rw [List.length_map, List.length_map] at hlength
      rw [List.length_nil, Nat.zero_add, hlength] at hcount
      exact hcount.trans length_limited_le
    related := fun e he => by
      obtain ⟨line, hfound, heq⟩ := hline e he
      exact heq ▸ related_of_answered hfound
    bornOut := fun hbitcoin e he => by
      obtain ⟨line, hfound, heq⟩ := hline e he
      obtain ⟨_, hnetwork, _, hmatch⟩ := mem_lines (mem_of_mem_limited hfound)
      obtain ⟨w, hw, hmatches⟩ := hmatch (h.matched hbitcoin line hfound)
      rw [heq] at hnetwork hmatches
      exact born_out (hnetwork.trans hbitcoin) hw hmatches
    newest := fun row hrow hout e he => by
      obtain ⟨line, hfound, heq⟩ := hline e he
      rw [← heq]
      refine answered_newest hfound hrow fun flag hflag => ?_
      obtain ⟨d, hd, hsame⟩ := h.key hflag
      exact hout d hd hsame
    whole := fun htruncated row hrow => by
      have hstart : truncated = false := h.truncated.symm.trans htruncated
      obtain ⟨flag, hflag⟩ := hwhole hstart row hrow
      obtain ⟨d, hd, hsame⟩ := h.key hflag
      exact ⟨d, hd, hsame⟩ }

/-- A neighbourhood shows the lines that were asked for, all of them where one more
transaction and one more line were asked for in vain. -/
theorem readNeighborhood_showing {n : Neighborhood sha}
    (h : readNeighborhood sha facts network subject query = .ok n) : ∃ g edges truncated,
      Showing network (answered sha facts network subject query) edges ⟨network, [subject], [], truncated⟩ g ∧
      (truncated = false → ∀ row, Related facts network subject row →
        ∃ flag, (row, flag) ∈ answered sha facts network subject query) ∧
      n = ⟨g, facts.revision, (chosen facts network subject query).length⟩ := by
  obtain ⟨_, _, h⟩ := bind_ok h
  obtain ⟨_, _, h⟩ := bind_ok h
  obtain ⟨start, hstart, h⟩ := bind_ok h
  obtain ⟨_, _, h⟩ := bind_ok h
  obtain ⟨g, hread, h⟩ := bind_ok h
  cases h
  rw [take_limited] at hread ⊢
  obtain ⟨hnetwork, rfl⟩ := Graph.node_ok hstart
  have hclosed : ∀ truncated, (⟨network, [subject], [], truncated⟩ : Graph sha).Closed := fun truncated =>
    ((Graph.closed_new network).insertNode hnetwork).truncate truncated
  unfold readEdges at hread
  split at hread
  · rename_i hnone
    cases hread
    have hnone : chosen facts network subject query = [] := hnone
    have hanswer : answered sha facts network subject query = [] := by
      rw [answered, hnone]
      simp [lines, limited]
    refine ⟨_, [], _, hanswer ▸ Showing.refl (hclosed _), fun hwhole row hrow => ?_, rfl⟩
    refine answered_whole (by simpa using hwhole) ?_ hrow
    rw [hnone]
    simp [lines, limited]
  · obtain ⟨edges, hshowing⟩ := readLines_showing (hclosed _) hread
    rw [Nat.sub_zero, take_limited] at hshowing
    refine ⟨_, edges, _, hshowing, fun hwhole row hrow => ?_, rfl⟩
    rw [Bool.or_eq_false_iff, decide_eq_false_iff_not, decide_eq_false_iff_not, not_lt, not_lt] at hwhole
    exact answered_whole hwhole.1 hwhole.2 hrow

/-- Accepted rows with their witness become the edges of the graph, in their order. -/
theorem addLines_of {maxEdges k : Nat} {edges : List (Edge sha)} (hnetwork : ∀ e ∈ edges, e.row.networkId = g.networkId)
    (hfew : k + edges.length ≤ maxEdges) :
    ((edges.map fun e => (e.row, 1)).zipIdx k).foldlM (addLine sha network maxEdges) g =
      .ok (edges.foldl Graph.withEdge g) := by
  induction edges generalizing g k with
  | nil => rfl
  | cons e rest ih =>
    obtain ⟨he, hrest⟩ := List.forall_mem_cons.mp hnetwork
    rw [List.length_cons] at hfew
    have hline : addLine sha network maxEdges g ((e.row, 1), k) = .ok (g.withEdge e) := by
      unfold addLine
      rw [fromValidated_of e.interpreted, ok_bind, ensure_eq fun _ => rfl, ok_bind, if_pos (by omega)]
      exact Graph.edge_of he
    rw [List.map_cons, List.zipIdx_cons, List.foldlM_cons, hline, ok_bind, List.foldl_cons]
    exact ih hrest (by omega)

theorem readEdges_of {occurrences : List Occurrence} (hsome : occurrences ≠ []) {edges : List (Edge sha)}
    (hlines : limited lineRank (query.maxEdges + 1) (lines sha facts network occurrences) =
      edges.map fun e => (e.row, 1))
    (hfew : edges.length ≤ query.maxEdges) (hnetwork : ∀ e ∈ edges, e.row.networkId = g.networkId) :
    readEdges sha facts network query occurrences g = .ok (edges.foldl Graph.withEdge g) := by
  unfold readEdges
  rw [if_neg hsome]
  dsimp only
  rw [hlines, List.length_map, decide_eq_false (Nat.not_lt.mpr hfew), Bool.or_false]
  exact addLines_of hnetwork (by omega)

theorem readNeighborhood_of (hquery : query.validate = .ok ()) (hsubject : subject.networkId = network)
    {occurrences : List Occurrence}
    (hchosen : limited Occurrence.rank (query.maxTransactions + 1) (touching facts network subject) = occurrences)
    (hfew : occurrences.length ≤ query.maxTransactions) (hcheck : ∀ o ∈ occurrences, o.check network = .ok ())
    (hread : readEdges sha facts network query occurrences ⟨network, [subject], [], false⟩ = .ok g) :
    readNeighborhood sha facts network subject query = .ok ⟨g, facts.revision, occurrences.length⟩ := by
  have hstart : (Graph.new network : Graph sha).node subject = .ok ⟨network, [subject], [], false⟩ :=
    Graph.node_of hsubject
  unfold readNeighborhood
  rw [hquery, ok_bind, ensure_eq hsubject, ok_bind]
  dsimp only
  rw [hchosen, List.take_of_length_le hfew, decide_eq_false (Nat.not_lt.mpr hfew), hstart, ok_bind, forM_of hcheck,
    ok_bind]
  dsimp only
  rw [hread, ok_bind]
  rfl

end

/-! ## A payment -/

def zeros (_ : List Nat) : List Nat := List.replicate 32 0

theorem zeros_length (bytes : List Nat) : (zeros bytes).length = 32 := List.length_replicate

theorem zeros_lt (bytes : List Nat) (b : Nat) (hb : b ∈ zeros bytes) : b < 256 := by
  rw [List.eq_of_mem_replicate hb]
  decide

/-- A digest that no address of the sample asks for. -/
def sampleSha : Sha256 := ⟨zeros, zeros_length, zeros_lt⟩

def sampleHash (c : Char) : String := String.ofList (List.replicate 64 c)

def payer : String := "1BoatSLRHtKNngkdXEeobR76b53LETtpyT"

def payee : String := "1BvBMSEYstWetqTFn5Au4m4GFg7xJaNVN2"

/-- An output of an earlier transaction, spent in the transaction of a block. -/
def sampleInput : InputRow where
  networkId := .bitcoin
  blockNumber := 5
  blockHash := sampleHash 'a'
  blockTimestampUnixMs := 1000
  commitId := "c5"
  revision := 3
  txHash := sampleHash '1'
  transactionIndex := 1
  address := some payer
  scriptHex := "51"
  scriptType := "pubkeyhash"
  valueSats := 70
  createdAtUnixMs := 1000
  inputIndex := 0
  prevTxHash := sampleHash '2'
  prevOutputIndex := 4

def sampleOutput : OutputRow where
  toScriptFact := { sampleInput.toScriptFact with address := some payee, valueSats := 60 }
  outputIndex := 1
  coinbase := 0

def inputLeg : Row where
  networkId := .bitcoin
  blockNumber := 5
  blockHash := sampleHash 'a'
  blockTimestampUnixMs := 1000
  commitId := "c5"
  revision := 3
  relationshipId := sampleHash 'a' ++ ":" ++ sampleHash '1' ++ ":" ++ "in" ++ ":" ++ Nat.repr 0
  txHash := sampleHash '1'
  transactionIndex := 1
  eventIndex := 0
  fromSubjectId := payer
  fromSubjectType := "address"
  toSubjectId := "tx:" ++ sampleHash 'a' ++ ":" ++ sampleHash '1'
  toSubjectType := "transaction"
  fromAddress := some payer
  toAddress := none
  assetId := "native"
  amountRaw := 70
  decimals := some 8
  transferType := "utxo_input"
  attributionMethod := "observed_prevout"
  confidence := .natural 1
  prevTxHash := some (sampleHash '2')
  prevOutputIndex := some 4
  outputIndex := none
  evidenceRefs := ["outpoint:" ++ sampleHash '2' ++ ":" ++ Nat.repr 4]
  createdAtUnixMs := 1000
  eventSubIndex := 0
  traceAddress := []
  tokenId := none

def outputLeg : Row := { inputLeg with
  relationshipId := sampleHash 'a' ++ ":" ++ sampleHash '1' ++ ":" ++ "out" ++ ":" ++ Nat.repr 1
  eventIndex := 1
  fromSubjectId := inputLeg.toSubjectId
  fromSubjectType := "transaction"
  toSubjectId := payee
  toSubjectType := "address"
  fromAddress := none
  toAddress := some payee
  amountRaw := 60
  transferType := "utxo_output"
  attributionMethod := "observed_output"
  prevTxHash := none
  prevOutputIndex := none
  outputIndex := some 1
  evidenceRefs := ["outpoint:" ++ sampleHash '1' ++ ":" ++ Nat.repr 1] }

def sampleFacts : Facts := ⟨3, [inputLeg, outputLeg], [sampleInput], [sampleOutput]⟩

def samplePayer : Subject := ⟨.bitcoin, payer, .address⟩

def samplePayee : Subject := ⟨.bitcoin, payee, .address⟩

/-- What is computed of the sample before its edges are made. -/
structure SampleComputed : Prop where
  payer : endpoint sampleSha .bitcoin "address" payer (some payer) = .ok samplePayer
  payee : endpoint sampleSha .bitcoin "address" payee (some payee) = .ok samplePayee
  block : normalizeHash .bitcoin (sampleHash 'a') = .ok (sampleHash 'a')
  tx : normalizeHash .bitcoin (sampleHash '1') = .ok (sampleHash '1')
  confidence : (Json.Value.number inputLeg.confidence).asF64 = some 1
  chosen : limited Occurrence.rank (20 + 1) (touching sampleFacts .bitcoin samplePayer) = [sampleInput.occurrence]
  lines : limited lineRank (2000 + 1) (lines sampleSha sampleFacts .bitcoin [sampleInput.occurrence]) =
    [(inputLeg, 1), (outputLeg, 1)]
  nodes : SortedMap.insert Subject.subjectId samplePayee (SortedMap.insert Subject.subjectId inputLeg.transaction
    (SortedMap.insert Subject.subjectId inputLeg.transaction (SortedMap.insert Subject.subjectId samplePayer
      [samplePayer]))) = [samplePayer, samplePayee, inputLeg.transaction]

theorem sample_computed : SampleComputed where
  payer := by decide +kernel
  payee := by decide +kernel
  block := by decide +kernel
  tx := by decide +kernel
  confidence := by decide +kernel
  chosen := by decide +kernel
  lines := by decide +kernel
  nodes := by decide +kernel

theorem inputLeg_observed : Observed inputLeg where
  network := rfl
  block := sample_computed.block
  tx := sample_computed.tx
  positions := ⟨rfl, rfl, rfl⟩
  confidence := sample_computed.confidence

theorem outputLeg_observed : Observed outputLeg where
  network := rfl
  block := sample_computed.block
  tx := sample_computed.tx
  positions := ⟨rfl, rfl, rfl⟩
  confidence := sample_computed.confidence

theorem inputLeg_interpreted : interpret sampleSha inputLeg = .ok (samplePayer, inputLeg.transaction) :=
  inputLeg_observed.input sample_computed.payer (Or.inl rfl) ⟨rfl, rfl, rfl⟩ ⟨rfl, rfl⟩ ⟨rfl, rfl⟩ rfl rfl
    (List.mem_singleton.mpr rfl)

theorem outputLeg_interpreted : interpret sampleSha outputLeg = .ok (inputLeg.transaction, samplePayee) :=
  outputLeg_observed.output sample_computed.payee (Or.inl rfl) ⟨rfl, rfl, rfl⟩ ⟨rfl, rfl⟩ ⟨rfl, rfl⟩ rfl rfl
    (List.mem_singleton.mpr rfl)

def inputEdge : Edge sampleSha := ⟨samplePayer, inputLeg.transaction, inputLeg, inputLeg_interpreted⟩

def outputEdge : Edge sampleSha := ⟨inputLeg.transaction, samplePayee, outputLeg, outputLeg_interpreted⟩

theorem sample_nodes : SortedMap.insert Subject.subjectId outputEdge.toSubject
    (SortedMap.insert Subject.subjectId outputEdge.fromSubject (SortedMap.insert Subject.subjectId inputEdge.toSubject
      (SortedMap.insert Subject.subjectId inputEdge.fromSubject [samplePayer]))) =
    [samplePayer, samplePayee, inputLeg.transaction] :=
  sample_computed.nodes

theorem sample_keys : inputLeg.key < outputLeg.key := by
  have hinput : inputLeg.relationshipId = legId inputLeg "in" := rfl
  have houtput : outputLeg.relationshipId = legId outputLeg "out" := rfl
  refine key_lt ⟨rfl, rfl, rfl, rfl⟩ ?_
  rw [hinput, houtput]
  exact legId_lt ⟨rfl, rfl⟩

theorem sample_legs_inserted :
    SortedMap.insert Edge.key outputEdge (SortedMap.insert Edge.key inputEdge []) = [inputEdge, outputEdge] :=
  SortedMap.insert_last (List.forall_mem_singleton.mpr sample_keys)

/-- What is read of the payer. -/
def sampleGraph : Graph sampleSha :=
  ⟨.bitcoin, [samplePayer, samplePayee, inputLeg.transaction], [inputEdge, outputEdge], false⟩

theorem sample_read : readNeighborhood sampleSha sampleFacts .bitcoin samplePayer ⟨20, 2000⟩ =
    .ok ⟨sampleGraph, 3, 1⟩ := by
  have hgraph : [inputEdge, outputEdge].foldl Graph.withEdge ⟨.bitcoin, [samplePayer], [], false⟩ = sampleGraph := by
    simp only [List.foldl_cons, List.foldl_nil, Graph.withEdge, sample_nodes, sample_legs_inserted]
    rfl
  have hlines : limited lineRank (2000 + 1) (lines sampleSha sampleFacts .bitcoin [sampleInput.occurrence]) =
      [inputEdge, outputEdge].map fun e => (e.row, 1) := sample_computed.lines
  have hedges : readEdges sampleSha sampleFacts .bitcoin ⟨20, 2000⟩ [sampleInput.occurrence]
      ⟨.bitcoin, [samplePayer], [], false⟩ =
      .ok ([inputEdge, outputEdge].foldl Graph.withEdge ⟨.bitcoin, [samplePayer], [], false⟩) :=
    readEdges_of (List.cons_ne_nil _ _) hlines (show 2 ≤ 2000 by decide)
      (List.forall_mem_cons.mpr ⟨rfl, List.forall_mem_singleton.mpr rfl⟩)
  rw [hgraph] at hedges
  have hcheck : sampleInput.occurrence.check .bitcoin = .ok () := by
    show (checkHashes .bitcoin (sampleHash 'a') (sampleHash '1') _ >>= fun _ => ensure ("c5" ≠ "" ∧ 0 < 3) _) = _
    rw [checkHashes_of sample_computed.block sample_computed.tx, ok_bind]
    exact ensure_eq (by decide)
  have hquery : (⟨20, 2000⟩ : Query).validate = .ok () := ensure_eq (by decide)
  have hread : readNeighborhood sampleSha sampleFacts .bitcoin samplePayer ⟨20, 2000⟩ =
      .ok ⟨sampleGraph, sampleFacts.revision, [sampleInput.occurrence].length⟩ :=
    readNeighborhood_of hquery rfl sample_computed.chosen (show 1 ≤ 20 by decide)
      (List.forall_mem_singleton.mpr hcheck) hedges
  exact hread

end AmlReal.Warehouse.RelationshipReader
