import Mathlib.Data.String.Basic
import AmlReal.Foundations.SortedMap
import AmlReal.Foundations.Text
import AmlReal.Tron.AddressSpellings
import AmlReal.Warehouse.Values

/-! # Relationships and their graph

`relationships/model.rs`: a row of `aml_address_relationships` is an edge between
typed subjects once `interpret` has accepted it. A graph holds the edges it was
given and the subjects at their ends, of one network. SHA-256 is a parameter. -/

namespace AmlReal.Warehouse.Relationships
open AmlReal.Foundations.Checks AmlReal.Foundations.Json AmlReal.Foundations.SortedMap
open AmlReal.Foundations.Text (isAsciiAlphanumeric)
open AmlReal.Tron.AddressSpellings (Sha256 tronWallet)
open AmlReal.Warehouse.Values

inductive Kind where
  | address
  | transaction
  | script
  deriving DecidableEq

def Kind.asStr : Kind → String
  | .address => "address"
  | .transaction => "transaction"
  | .script => "script"

def Kind.parse (value : String) : Except String Kind :=
  if value = "address" then .ok .address
  else if value = "transaction" then .ok .transaction
  else if value = "script" then .ok .script
  else .error "unsupported subject type"

structure Subject where
  networkId : Network
  subjectId : String
  subjectType : Kind
  deriving DecidableEq

def BASE58 : List Char := "123456789ABCDEFGHJKLMNPQRSTUVWXYZabcdefghijkmnopqrstuvwxyz".toList

/-- Both hashes are in their stored spelling; the first is looked at first. -/
def checkHashes (network : Network) (block tx error : String) : Except String Unit := do
  let normalized ← normalizeHash network block
  ensure (normalized = block) error
  let normalized ← normalizeHash network tx
  ensure (normalized = tx) error

def checkTransaction (network : Network) (id : String) : Except String Unit := do
  let (block, tx) ← context ((stripPrefix "tx:" id).bind (splitOnce ':')) "transaction occurrence subject required"
  checkHashes network block tx "noncanonical transaction occurrence"

def checkScript (network : Network) (id : String) : Except String Unit := do
  ensure (network = .bitcoin) "script subjects require Bitcoin"
  let digest ← context (stripPrefix "script:" id) "script subject prefix missing"
  ensure (hex digest 64 ∧ digest = toAsciiLowercase digest) "noncanonical script identity"

def bech (id : String) : Bool :=
  "bc1".toList.isPrefixOf id.toList ∧ 14 ≤ id.length ∧ id.length ≤ 90 ∧ id = toAsciiLowercase id

def base (id : String) : Bool :=
  (id.toList.head? = some '1' ∨ id.toList.head? = some '3') ∧ 26 ≤ id.length ∧ id.length ≤ 35 ∧
    id.toList.all BASE58.contains

section
variable (sha : Sha256)

def checkAddress (network : Network) (id : String) : Except String Unit := do
  ensure (id ≠ "" ∧ id.length ≤ 128 ∧ id.toList.all isAsciiAlphanumeric) "invalid address subject syntax"
  match network with
  | .ethereum | .bsc =>
    ensure ((stripPrefix "0x" id).any (hex · 40) ∧ id = toAsciiLowercase id) "noncanonical EVM address subject"
  | .tron => do
    let wallet ← tronWallet sha id.toList
    ensure (wallet = id.toList) "canonical TRON wallet subject required"
  | .bitcoin => ensure (bech id ∨ base id) "Bitcoin mainnet subject syntax required"

def checkSubject (network : Network) (kind : Kind) (id : String) : Except String Unit :=
  match kind with
  | .address => checkAddress sha network id
  | .transaction => checkTransaction network id
  | .script => checkScript network id

def Subject.new (network : Network) (kind : Kind) (id : String) : Except String Subject := do
  checkSubject sha network kind id
  pure ⟨network, id, kind⟩

/-- The spelling of an address under which it is a subject. -/
def canonicalAddress (network : Network) (id : String) : Except String String :=
  match network with
  | .tron => String.ofList <$> tronWallet sha id.toList
  | .ethereum | .bsc => .ok (toAsciiLowercase id)
  | .bitcoin => .ok id

def Subject.address (network : Network) (id : String) : Except String Subject := do
  let canonical ← canonicalAddress sha network id
  Subject.new sha network .address canonical

def transactionSubjectId (network : Network) (block tx : String) : Except String String := do
  let id := s!"tx:{block}:{tx}"
  let _ ← Subject.new sha network .transaction id
  pure id

end

/-! ## Edges -/

/-- `aml_address_relationships`, without `raw_evidence_json`. -/
structure Row where
  networkId : Network
  blockNumber : Nat
  blockHash : String
  blockTimestampUnixMs : Nat
  commitId : String
  revision : Nat
  relationshipId : String
  txHash : String
  transactionIndex : Nat
  eventIndex : Nat
  fromSubjectId : String
  fromSubjectType : String
  toSubjectId : String
  toSubjectType : String
  fromAddress : Option String
  toAddress : Option String
  assetId : String
  amountRaw : Nat
  decimals : Option Nat
  transferType : String
  attributionMethod : String
  confidence : Number
  prevTxHash : Option String
  prevOutputIndex : Option Nat
  outputIndex : Option Nat
  evidenceRefs : List String
  createdAtUnixMs : Nat
  eventSubIndex : Nat
  traceAddress : List Nat
  tokenId : Option Nat
  deriving DecidableEq

section
variable (sha : Sha256)

/-- One end of a row: its typed subject, with the address column in agreement. -/
def endpoint (network : Network) (subjectType subjectId : String) (address : Option String) :
    Except String Subject := do
  let kind ← Kind.parse subjectType
  let subject ← Subject.new sha network kind subjectId
  ensure (address = if kind = .address then some subject.subjectId else none)
    "address and typed subject disagree"
  pure subject

def legId (row : Row) (direction : String) : String :=
  s!"{row.blockHash}:{row.txHash}:{direction}:{row.eventIndex.repr}"

/-- The direction of a Bitcoin leg and the outpoint it is about. -/
def leg (row : Row) (tx : String) (fromSubject toSubject : Subject) : Except String (String × String) :=
  if row.transferType = "utxo_input" then do
    ensure ((fromSubject.subjectType = .address ∨ fromSubject.subjectType = .script) ∧
      toSubject.subjectType = .transaction ∧ toSubject.subjectId = tx)
      "Bitcoin input must connect its prevout subject to its transaction"
    ensure (row.outputIndex = none) "inapplicable relationship field: output_index"
    ensure (row.attributionMethod = "observed_prevout") "unknown Bitcoin input attribution"
    let previous ← context row.prevTxHash "relationship string missing: prev_tx_hash"
    let output ← context row.prevOutputIndex "relationship integer missing: prev_output_index"
    pure ("in", s!"outpoint:{previous}:{output.repr}")
  else if row.transferType = "utxo_output" then do
    ensure (fromSubject.subjectType = .transaction ∧ fromSubject.subjectId = tx ∧
      (toSubject.subjectType = .address ∨ toSubject.subjectType = .script))
      "Bitcoin output must connect its transaction to its output subject"
    ensure (row.prevTxHash = none) "inapplicable relationship field: prev_tx_hash"
    ensure (row.prevOutputIndex = none) "inapplicable relationship field: prev_output_index"
    let output ← context row.outputIndex "relationship integer missing: output_index"
    ensure (output = row.eventIndex ∧ row.attributionMethod = "observed_output")
      "Bitcoin output index/attribution mismatch"
    pure ("out", s!"outpoint:{row.txHash}:{row.eventIndex.repr}")
  else .error "Bitcoin does not establish pairwise address transfers"

def checkUtxo (row : Row) (fromSubject toSubject : Subject) : Except String Unit := do
  ensure (row.eventSubIndex = 0 ∧ row.traceAddress = [] ∧ row.tokenId = none)
    "Bitcoin leg cannot carry EVM/NFT positions"
  ensure ((Value.number row.confidence).asF64 = some 1) "observed UTXO evidence requires confidence 1"
  let tx ← transactionSubjectId sha .bitcoin row.blockHash row.txHash
  let (direction, outpoint) ← leg row tx fromSubject toSubject
  ensure (row.relationshipId = legId row direction) "Bitcoin leg identity/index mismatch"
  ensure (outpoint ∈ row.evidenceRefs) "UTXO outpoint evidence missing"

def checkTransfer (row : Row) (fromSubject toSubject : Subject) : Except String Unit := do
  ensure (fromSubject.subjectType = .address ∧ toSubject.subjectType = .address)
    "account transfer endpoints must be observed addresses"
  ensure (¬ "utxo_".toList.isPrefixOf row.transferType.toList)
    "UTXO semantics are not applicable to an account network"
  ensure (row.prevTxHash = none) "inapplicable relationship field: prev_tx_hash"
  ensure (row.prevOutputIndex = none) "inapplicable relationship field: prev_output_index"
  ensure (row.outputIndex = none) "inapplicable relationship field: output_index"

def checkEdge (row : Row) (fromSubject toSubject : Subject) : Except String Unit :=
  if row.networkId = .bitcoin then checkUtxo sha row fromSubject toSubject
  else checkTransfer row fromSubject toSubject

def interpret (row : Row) : Except String (Subject × Subject) := do
  let fromSubject ← endpoint sha row.networkId row.fromSubjectType row.fromSubjectId row.fromAddress
  let toSubject ← endpoint sha row.networkId row.toSubjectType row.toSubjectId row.toAddress
  checkEdge sha row fromSubject toSubject
  pure (fromSubject, toSubject)

/-- A row and the subjects that `interpret` found at its ends. -/
structure Edge where
  fromSubject : Subject
  toSubject : Subject
  row : Row
  interpreted : interpret sha row = .ok (fromSubject, toSubject)
  deriving DecidableEq

variable {sha}

def Edge.fromValidated (row : Row) : Except String (Edge sha) :=
  match h : interpret sha row with
  | .ok ends => .ok ⟨ends.1, ends.2, row, h⟩
  | .error error => .error error

end

/-! ## Graphs -/

def Row.key (row : Row) : String :=
  s!"{row.networkId.id}/{row.blockHash}/{row.commitId}/{row.revision.repr}/{row.relationshipId}"

section
variable {sha : Sha256}

def Edge.key (edge : Edge sha) : String := edge.row.key

/-- `Graph`: the nodes in the order of their ids, the edges in that of their keys. -/
structure Graph (sha : Sha256) where
  networkId : Network
  nodes : List Subject
  edges : List (Edge sha)
  truncated : Bool
  deriving DecidableEq

namespace Graph

def new (network : Network) : Graph sha := ⟨network, [], [], false⟩

def hasNode (g : Graph sha) (id : String) : Bool := (find Subject.subjectId id g.nodes).isSome

def node (g : Graph sha) (subject : Subject) : Except String (Graph sha) := do
  ensure (subject.networkId = g.networkId) "mixed-network graph"
  pure { g with nodes := insert Subject.subjectId subject g.nodes }

def edge (g : Graph sha) (edge : Edge sha) : Except String (Graph sha) := do
  let g ← g.node edge.fromSubject
  let g ← g.node edge.toSubject
  pure { g with edges := insert Edge.key edge g.edges }

/-- A graph with one more edge and the subjects at its ends. -/
def withEdge (g : Graph sha) (edge : Edge sha) : Graph sha := { g with
  nodes := insert Subject.subjectId edge.toSubject (insert Subject.subjectId edge.fromSubject g.nodes)
  edges := insert Edge.key edge g.edges }

/-- A node of the other graph, unless the nodes are full. -/
def mergeNode (maxNodes : Nat) (g : Graph sha) (subject : Subject) : Graph sha :=
  if g.nodes.length < maxNodes ∨ g.hasNode subject.subjectId then
    { g with nodes := insert Subject.subjectId subject g.nodes }
  else { g with truncated := true }

/-- An edge of the other graph, where both of its ends were kept. -/
def mergeEdge (g : Graph sha) (edge : Edge sha) : Graph sha :=
  if g.hasNode edge.row.fromSubjectId ∧ g.hasNode edge.row.toSubjectId ∧ g.edges.length < 2000 then
    { g with edges := insert Edge.key edge g.edges }
  else { g with truncated := true }

def merge (g other : Graph sha) (maxNodes : Nat) : Except String (Graph sha) := do
  ensure (g.networkId = other.networkId) "mixed-network graph merge"
  let g := { g with truncated := g.truncated || other.truncated }
  let g := other.nodes.foldl (mergeNode maxNodes) g
  pure (other.edges.foldl mergeEdge g)

end Graph

/-! ## What the operations keep -/

theorem endpoint_ok {network : Network} {subjectType id : String} {address : Option String} {subject : Subject}
    (h : endpoint sha network subjectType id address = .ok subject) :
    subject.networkId = network ∧ subject.subjectId = id := by
  obtain ⟨kind, _, h⟩ := bind_ok h
  obtain ⟨_, hsubject, h⟩ := bind_ok h
  obtain ⟨_, _, h⟩ := bind_ok h
  cases h
  obtain ⟨_, _, hsubject⟩ := bind_ok hsubject
  cases hsubject
  exact ⟨rfl, rfl⟩

theorem Edge.ends (edge : Edge sha) :
    (edge.fromSubject.networkId = edge.row.networkId ∧ edge.fromSubject.subjectId = edge.row.fromSubjectId) ∧
    (edge.toSubject.networkId = edge.row.networkId ∧ edge.toSubject.subjectId = edge.row.toSubjectId) := by
  obtain ⟨source, hsource, h⟩ := bind_ok edge.interpreted
  obtain ⟨target, htarget, h⟩ := bind_ok h
  obtain ⟨_, _, h⟩ := bind_ok h
  obtain ⟨hfrom, hto⟩ := Prod.mk.inj (Except.ok.inj h)
  rw [← hfrom, ← hto]
  exact ⟨endpoint_ok hsource, endpoint_ok htarget⟩

/-- A leg into its transaction, with the outpoint it spends. -/
def IsInput (sha : Sha256) (row : Row) : Prop :=
  row.transferType = "utxo_input" ∧
    transactionSubjectId sha .bitcoin row.blockHash row.txHash = .ok row.toSubjectId ∧
    row.prevTxHash.isSome ∧ row.prevOutputIndex.isSome ∧ row.outputIndex = none ∧ row.relationshipId = legId row "in"

/-- A leg out of its transaction, at its own index. -/
def IsOutput (sha : Sha256) (row : Row) : Prop :=
  row.transferType = "utxo_output" ∧
    transactionSubjectId sha .bitcoin row.blockHash row.txHash = .ok row.fromSubjectId ∧
    row.prevTxHash = none ∧ row.prevOutputIndex = none ∧ row.outputIndex = some row.eventIndex ∧
    row.relationshipId = legId row "out"

theorem checkUtxo_ok {row : Row} {fromSubject toSubject : Subject} {u : Unit}
    (h : checkUtxo sha row fromSubject toSubject = .ok u) (hfrom : fromSubject.subjectId = row.fromSubjectId)
    (hto : toSubject.subjectId = row.toSubjectId) : IsInput sha row ∨ IsOutput sha row := by
  obtain ⟨_, _, h⟩ := bind_ok h
  obtain ⟨_, _, h⟩ := bind_ok h
  obtain ⟨tx, htx, h⟩ := bind_ok h
  obtain ⟨⟨direction, outpoint⟩, hleg, h⟩ := bind_ok h
  obtain ⟨_, hid, _⟩ := bind_ok h
  have hid := ensure_ok hid
  unfold leg at hleg
  split at hleg
  · rename_i hinput
    obtain ⟨_, hends, hleg⟩ := bind_ok hleg
    obtain ⟨_, hnone, hleg⟩ := bind_ok hleg
    obtain ⟨_, _, hleg⟩ := bind_ok hleg
    obtain ⟨previous, hprevious, hleg⟩ := bind_ok hleg
    obtain ⟨output, houtput, hleg⟩ := bind_ok hleg
    obtain ⟨rfl, rfl⟩ := Prod.mk.inj (Except.ok.inj hleg)
    have htarget : tx = row.toSubjectId := (ensure_ok hends).2.2.symm.trans hto
    exact Or.inl ⟨hinput, htarget ▸ htx, by rw [context_ok hprevious]; rfl,
      by rw [context_ok houtput]; rfl, ensure_ok hnone, hid⟩
  split at hleg
  · rename_i houtput
    obtain ⟨_, hends, hleg⟩ := bind_ok hleg
    obtain ⟨_, hnoTx, hleg⟩ := bind_ok hleg
    obtain ⟨_, hnoIndex, hleg⟩ := bind_ok hleg
    obtain ⟨output, hindex, hleg⟩ := bind_ok hleg
    obtain ⟨_, hsame, hleg⟩ := bind_ok hleg
    obtain ⟨rfl, rfl⟩ := Prod.mk.inj (Except.ok.inj hleg)
    have hsource : tx = row.fromSubjectId := (ensure_ok hends).2.1.symm.trans hfrom
    exact Or.inr ⟨houtput, hsource ▸ htx, ensure_ok hnoTx, ensure_ok hnoIndex,
      (context_ok hindex).trans (congrArg some (ensure_ok hsame).1), hid⟩
  · cases hleg

/-- An edge of Bitcoin is an input or an output of its transaction. -/
theorem Edge.utxo (edge : Edge sha) (hnetwork : edge.row.networkId = .bitcoin) :
    IsInput sha edge.row ∨ IsOutput sha edge.row := by
  have hends := edge.ends
  obtain ⟨source, _, h⟩ := bind_ok edge.interpreted
  obtain ⟨target, _, h⟩ := bind_ok h
  obtain ⟨_, hcheck, h⟩ := bind_ok h
  obtain ⟨hfrom, hto⟩ := Prod.mk.inj (Except.ok.inj h)
  unfold checkEdge at hcheck
  rw [if_pos hnetwork, hfrom, hto] at hcheck
  exact checkUtxo_ok hcheck hends.1.2 hends.2.2

/-! ## One subject for each transaction -/

theorem stripPrefix_some {start value rest : String} (h : stripPrefix start value = some rest) :
    value.toList = start.toList ++ rest.toList := by
  unfold stripPrefix at h
  split at h
  · rename_i hstart
    obtain ⟨tail, htail⟩ := List.isPrefixOf_iff_prefix.mp hstart
    rw [← Option.some.inj h, ← htail, String.toList_ofList, List.drop_left]
  · cases h

theorem splitOnce_some {value before after : String} (h : splitOnce ':' value = some (before, after)) :
    value.toList = before.toList ++ ':' :: after.toList := by
  unfold splitOnce at h
  rw [List.span_eq_takeWhile_dropWhile] at h
  have hall := List.takeWhile_append_dropWhile (p := fun c => decide (c ≠ ':')) (l := value.toList)
  split at h
  · cases h
  · rename_i head c tail hspan
    obtain ⟨hhead, htail⟩ := Prod.mk.inj hspan
    obtain ⟨rfl, rfl⟩ := Prod.mk.inj (Option.some.inj h)
    have hc : c = ':' := by
      have hfirst := List.head?_dropWhile_not (fun c => decide (c ≠ ':')) value.toList
      rw [htail] at hfirst
      simpa using hfirst
    rw [← hall, hhead, htail, hc, String.toList_ofList, String.toList_ofList]

theorem hex_colon {digits : String} {n : Nat} (h : hex digits n = true) : ':' ∉ digits.toList := by
  intro hcolon
  have hall := (Bool.and_eq_true_iff.mp h).2
  exact absurd (List.all_eq_true.mp hall _ hcolon) (by decide)

/-- No hash has a colon in it. -/
theorem normalizeHash_colon {network : Network} {text normalized : String}
    (h : normalizeHash network text = .ok normalized) : ':' ∉ text.toList := by
  unfold normalizeHash at h
  split at h
  · dsimp only at h
    split at h
    · rename_i hhex
      have hnone := hex_colon hhex
      cases hlower : stripPrefix "0x" text with
      | some rest =>
        rw [hlower] at hnone
        rw [stripPrefix_some hlower]
        simpa using hnone
      | none =>
        cases hupper : stripPrefix "0X" text with
        | some rest =>
          rw [hlower, hupper] at hnone
          rw [stripPrefix_some hupper]
          simpa using hnone
        | none =>
          rw [hlower, hupper] at hnone
          exact hnone
    · cases h
  · dsimp only at h
    split at h
    · rename_i hhex
      exact hex_colon hhex
    · cases h

theorem checkHashes_colon {network : Network} {block tx error : String} {u : Unit}
    (h : checkHashes network block tx error = .ok u) : ':' ∉ block.toList ∧ ':' ∉ tx.toList := by
  obtain ⟨_, hblock, h⟩ := bind_ok h
  obtain ⟨_, _, h⟩ := bind_ok h
  obtain ⟨_, htx, _⟩ := bind_ok h
  exact ⟨normalizeHash_colon hblock, normalizeHash_colon htx⟩

/-- There is one colon in what follows the prefix, so it ends the block's hash. -/
theorem transactionSubjectId_ok {network : Network} {block tx id : String}
    (h : transactionSubjectId sha network block tx = .ok id) :
    id = s!"tx:{block}:{tx}" ∧ ':' ∉ block.toList := by
  obtain ⟨_, hsubject, h⟩ := bind_ok h
  cases h
  refine ⟨rfl, ?_⟩
  obtain ⟨_, hcheck, _⟩ := bind_ok hsubject
  obtain ⟨⟨before, after⟩, hparts, hcheck⟩ := bind_ok (show checkTransaction network _ = .ok _ from hcheck)
  obtain ⟨rest, hrest, hsplit⟩ := Option.bind_eq_some_iff.mp (context_ok hparts)
  have hbody : rest.toList = block.toList ++ ':' :: tx.toList := by
    have hid := stripPrefix_some hrest
    simp only [String.toList_append, toString] at hid
    simpa using hid.symm
  have hcolon := checkHashes_colon hcheck
  have hcount := congrArg (List.count ':') (hbody.symm.trans (splitOnce_some hsplit))
  rw [List.count_append, List.count_append, List.count_cons_self, List.count_cons_self,
    List.count_eq_zero_of_not_mem hcolon.1, List.count_eq_zero_of_not_mem hcolon.2] at hcount
  exact List.count_eq_zero.mp (by omega)

/-- A transaction subject names its block and its transaction. -/
theorem transactionSubjectId_inj {network : Network} {block block' tx tx' id : String}
    (h : transactionSubjectId sha network block tx = .ok id)
    (h' : transactionSubjectId sha network block' tx' = .ok id) : block = block' ∧ tx = tx' := by
  obtain ⟨hid, hblock⟩ := transactionSubjectId_ok h
  obtain ⟨hid', hblock'⟩ := transactionSubjectId_ok h'
  have htext := congrArg String.toList (hid.symm.trans hid')
  simp only [String.toList_append, toString] at htext
  have hbody : block.toList ++ ':' :: tx.toList = block'.toList ++ ':' :: tx'.toList := by simpa using htext
  obtain ⟨hb, ht⟩ := AmlReal.Foundations.JoinedText.split_separator hblock hblock' hbody
  exact ⟨String.toList_inj.mp hb, String.toList_inj.mp ht⟩

/-! ## Accepted legs -/

theorem stripPrefix_append (start rest : String) : stripPrefix start (start ++ rest) = some rest := by
  unfold stripPrefix
  rw [String.toList_append, if_pos (List.isPrefixOf_iff_prefix.mpr (List.prefix_append ..)), List.drop_left,
    String.ofList_toList]

theorem splitOnce_append {before : String} (h : ':' ∉ before.toList) (after : String) :
    splitOnce ':' (before ++ ":" ++ after) = some (before, after) := by
  have htext : (before ++ ":" ++ after).toList = before.toList ++ ':' :: after.toList := by
    rw [String.toList_append, String.toList_append, List.append_assoc]
    rfl
  have hbefore : ∀ c ∈ before.toList, decide (c ≠ ':') = true := fun c hc => decide_eq_true fun he => h (he ▸ hc)
  unfold splitOnce
  rw [htext, List.span_eq_takeWhile_dropWhile, List.takeWhile_append_of_pos hbefore,
    List.dropWhile_append_of_pos hbefore]
  simp

section
variable {network : Network} {block tx : String} (hblock : normalizeHash network block = .ok block)
  (htx : normalizeHash network tx = .ok tx)
include hblock htx

theorem checkHashes_of (error : String) : checkHashes network block tx error = .ok () := by
  unfold checkHashes
  rw [hblock, htx]
  simp [ensure, ok_bind]

/-- Two hashes in their stored spelling make a transaction subject. -/
theorem checkTransaction_of : checkTransaction network s!"tx:{block}:{tx}" = .ok () := by
  have hid : s!"tx:{block}:{tx}" = "tx:" ++ (block ++ ":" ++ tx) := by
    apply String.toList_inj.mp
    simp [toString]
  have hparts : (stripPrefix "tx:" s!"tx:{block}:{tx}").bind (splitOnce ':') = some (block, tx) := by
    rw [hid, stripPrefix_append, Option.bind_some, splitOnce_append (normalizeHash_colon hblock)]
  unfold checkTransaction
  rw [hparts]
  exact checkHashes_of hblock htx _

theorem transactionSubject_of :
    Subject.new sha network .transaction s!"tx:{block}:{tx}" = .ok ⟨network, s!"tx:{block}:{tx}", .transaction⟩ := by
  show (checkTransaction network s!"tx:{block}:{tx}" >>= fun _ => Except.ok _) = _
  rw [checkTransaction_of hblock htx, ok_bind]

theorem transactionSubjectId_of : transactionSubjectId sha network block tx = .ok s!"tx:{block}:{tx}" := by
  show (Subject.new sha network .transaction s!"tx:{block}:{tx}" >>= fun _ => Except.ok _) = _
  rw [transactionSubject_of hblock htx, ok_bind]

end

/-- The transaction of a Bitcoin row, as a subject. -/
def Row.transaction (row : Row) : Subject := ⟨.bitcoin, s!"tx:{row.blockHash}:{row.txHash}", .transaction⟩

/-- What the legs of both directions have in common. -/
structure Observed (row : Row) : Prop where
  network : row.networkId = .bitcoin
  block : normalizeHash .bitcoin row.blockHash = .ok row.blockHash
  tx : normalizeHash .bitcoin row.txHash = .ok row.txHash
  positions : row.eventSubIndex = 0 ∧ row.traceAddress = [] ∧ row.tokenId = none
  confidence : (Value.number row.confidence).asF64 = some 1

section
variable {row : Row} {wallet : Subject}

theorem Observed.endpoint (h : Observed row) :
    Relationships.endpoint sha .bitcoin "transaction" row.transaction.subjectId none = .ok row.transaction := by
  show (Subject.new sha .bitcoin .transaction _ >>= _) = _
  rw [Row.transaction, transactionSubject_of h.block h.tx, ok_bind]
  rfl

theorem Observed.checkUtxo (h : Observed row) {source target : Subject} {direction outpoint : String}
    (hleg : leg row row.transaction.subjectId source target = .ok (direction, outpoint))
    (hid : row.relationshipId = legId row direction) (hevidence : outpoint ∈ row.evidenceRefs) :
    Relationships.checkUtxo sha row source target = .ok () := by
  unfold Relationships.checkUtxo
  rw [ensure_eq h.positions, ok_bind, ensure_eq h.confidence, ok_bind, transactionSubjectId_of h.block h.tx, ok_bind]
  rw [Row.transaction] at hleg
  rw [hleg, ok_bind]
  dsimp only
  rw [ensure_eq hid, ok_bind, ensure_eq hevidence]

/-- A spent output goes into the transaction. -/
theorem Observed.input (h : Observed row)
    (hfrom : Relationships.endpoint sha .bitcoin row.fromSubjectType row.fromSubjectId row.fromAddress = .ok wallet)
    (hwallet : wallet.subjectType = .address ∨ wallet.subjectType = .script)
    (hto : row.toSubjectType = "transaction" ∧ row.toSubjectId = row.transaction.subjectId ∧ row.toAddress = none)
    (htype : row.transferType = "utxo_input" ∧ row.attributionMethod = "observed_prevout") {previous : String}
    {vout : Nat} (hprevious : row.prevTxHash = some previous ∧ row.prevOutputIndex = some vout)
    (hindex : row.outputIndex = none) (hid : row.relationshipId = legId row "in")
    (hevidence : s!"outpoint:{previous}:{vout.repr}" ∈ row.evidenceRefs) :
    interpret sha row = .ok (wallet, row.transaction) := by
  have hleg : leg row row.transaction.subjectId wallet row.transaction =
      .ok ("in", s!"outpoint:{previous}:{vout.repr}") := by
    unfold leg
    rw [if_pos htype.1, ensure_eq ⟨hwallet, rfl, rfl⟩, ok_bind, ensure_eq hindex, ok_bind, ensure_eq htype.2, ok_bind,
      hprevious.1, context_some, ok_bind, hprevious.2, context_some, ok_bind]
    rfl
  unfold interpret
  rw [h.network, hfrom, ok_bind, hto.1, hto.2.1, hto.2.2, h.endpoint, ok_bind, checkEdge, if_pos h.network,
    h.checkUtxo hleg hid hevidence]
  rfl

/-- An output comes out of the transaction, at its own index. -/
theorem Observed.output (h : Observed row)
    (hto : Relationships.endpoint sha .bitcoin row.toSubjectType row.toSubjectId row.toAddress = .ok wallet)
    (hwallet : wallet.subjectType = .address ∨ wallet.subjectType = .script)
    (hfrom : row.fromSubjectType = "transaction" ∧ row.fromSubjectId = row.transaction.subjectId ∧
      row.fromAddress = none)
    (htype : row.transferType = "utxo_output" ∧ row.attributionMethod = "observed_output")
    (hprevious : row.prevTxHash = none ∧ row.prevOutputIndex = none) (hindex : row.outputIndex = some row.eventIndex)
    (hid : row.relationshipId = legId row "out")
    (hevidence : s!"outpoint:{row.txHash}:{row.eventIndex.repr}" ∈ row.evidenceRefs) :
    interpret sha row = .ok (row.transaction, wallet) := by
  have hleg : leg row row.transaction.subjectId row.transaction wallet =
      .ok ("out", s!"outpoint:{row.txHash}:{row.eventIndex.repr}") := by
    unfold leg
    rw [if_neg (by rw [htype.1]; decide), if_pos htype.1, ensure_eq ⟨rfl, rfl, hwallet⟩, ok_bind,
      ensure_eq hprevious.1, ok_bind, ensure_eq hprevious.2, ok_bind, hindex, context_some, ok_bind,
      ensure_eq ⟨rfl, htype.2⟩]
    rfl
  unfold interpret
  rw [h.network, hfrom.1, hfrom.2.1, hfrom.2.2, h.endpoint, ok_bind, hto, ok_bind, checkEdge, if_pos h.network,
    h.checkUtxo hleg hid hevidence]
  rfl

/-- The edge of an accepted row. -/
theorem fromValidated_of {ends : Subject × Subject} (h : interpret sha row = .ok ends) :
    Edge.fromValidated row = .ok ⟨ends.1, ends.2, row, h⟩ := by
  unfold Edge.fromValidated
  split
  · rename_i found hfound
    obtain rfl : found = ends := Except.ok.inj (hfound.symm.trans h)
    rfl
  · rename_i error herror
    cases herror.symm.trans h

end

theorem fromValidated_row {row : Row} {edge : Edge sha} (h : Edge.fromValidated row = .ok edge) :
    edge.row = row := by
  unfold Edge.fromValidated at h
  split at h
  · cases h; rfl
  · cases h

/-! ## The order of keys -/

theorem lt_of_append {a b c : String} (h : b < c) : a ++ b < a ++ c := by
  rw [String.lt_iff_toList_lt, String.toList_append, String.toList_append]
  exact List.append_left_lt (String.lt_iff_toList_lt.mp h)

section
variable {row row' : Row}

/-- The keys of one commit are in the order of the relationship ids. -/
theorem key_lt (hsame : row.networkId = row'.networkId ∧ row.blockHash = row'.blockHash ∧
    row.commitId = row'.commitId ∧ row.revision = row'.revision) (h : row.relationshipId < row'.relationshipId) :
    row.key < row'.key := by
  unfold Row.key
  rw [hsame.1, hsame.2.1, hsame.2.2.1, hsame.2.2.2]
  exact lt_of_append h

/-- The inputs of a transaction come before its outputs. -/
theorem legId_lt (hsame : row.blockHash = row'.blockHash ∧ row.txHash = row'.txHash) :
    legId row "in" < legId row' "out" := by
  unfold legId
  rw [hsame.1, hsame.2]
  simp only [String.append_assoc]
  iterate 4 apply lt_of_append
  rw [String.lt_iff_toList_lt]
  simp only [toString, String.toList_append]
  exact List.Lex.rel (show 'i' < 'o' by decide)

end

namespace Graph

/-- Every edge stands between nodes of the graph, and every node is of its network. -/
structure Closed (g : Graph sha) : Prop where
  nodes : Sorted Subject.subjectId g.nodes
  edges : Sorted Edge.key g.edges
  ends : ∀ e ∈ g.edges, (∃ n ∈ g.nodes, n.subjectId = e.row.fromSubjectId) ∧
    ∃ n ∈ g.nodes, n.subjectId = e.row.toSubjectId
  network : ∀ n ∈ g.nodes, n.networkId = g.networkId

variable {g g' other : Graph sha} {subject : Subject} {e : Edge sha} {maxNodes : Nat}

theorem closed_new (network : Network) : (new network : Graph sha).Closed where
  nodes := List.Pairwise.nil
  edges := List.Pairwise.nil
  ends := fun _ h => by cases h
  network := fun _ h => by cases h

/-- One more node of the network takes no end away from an edge. -/
theorem Closed.insertNode (h : g.Closed) (hnetwork : subject.networkId = g.networkId) :
    ({ g with nodes := insert Subject.subjectId subject g.nodes } : Graph sha).Closed where
  nodes := h.nodes.insert
  edges := h.edges
  ends := fun e he => ⟨h.nodes.key_mem_insert (h.ends e he).1, h.nodes.key_mem_insert (h.ends e he).2⟩
  network := fun n hn => by
    rcases mem_of_mem_insert hn with rfl | hn
    · exact hnetwork
    · exact h.network n hn

theorem Closed.insertEdge (h : g.Closed) (hfrom : ∃ n ∈ g.nodes, n.subjectId = e.row.fromSubjectId)
    (hto : ∃ n ∈ g.nodes, n.subjectId = e.row.toSubjectId) :
    ({ g with edges := insert Edge.key e g.edges } : Graph sha).Closed where
  nodes := h.nodes
  edges := h.edges.insert
  ends := fun d hd => by
    rcases mem_of_mem_insert hd with rfl | hd
    · exact ⟨hfrom, hto⟩
    · exact h.ends d hd
  network := h.network

theorem Closed.truncate (h : g.Closed) (truncated : Bool) :
    ({ g with truncated := truncated } : Graph sha).Closed :=
  ⟨h.nodes, h.edges, h.ends, h.network⟩

theorem node_ok (h : g.node subject = .ok g') :
    subject.networkId = g.networkId ∧ g' = { g with nodes := insert Subject.subjectId subject g.nodes } := by
  obtain ⟨_, hnetwork, h⟩ := bind_ok h
  cases h
  exact ⟨ensure_ok hnetwork, rfl⟩

/-- An edge comes with the subjects at its ends. -/
theorem edge_ok (h : g.edge e = .ok g') :
    e.fromSubject.networkId = g.networkId ∧ e.toSubject.networkId = g.networkId ∧ g' = g.withEdge e := by
  obtain ⟨first, hfirst, h⟩ := bind_ok h
  obtain ⟨second, hsecond, h⟩ := bind_ok h
  cases h
  obtain ⟨hfrom, rfl⟩ := node_ok hfirst
  obtain ⟨hto, rfl⟩ := node_ok hsecond
  exact ⟨hfrom, hto, rfl⟩

theorem node_of (h : subject.networkId = g.networkId) :
    g.node subject = .ok { g with nodes := insert Subject.subjectId subject g.nodes } := by
  unfold Graph.node
  rw [ensure_eq h, ok_bind]
  rfl

theorem edge_of (h : e.row.networkId = g.networkId) : g.edge e = .ok (g.withEdge e) := by
  have hfrom : e.fromSubject.networkId = g.networkId := e.ends.1.1.trans h
  have hto : e.toSubject.networkId = g.networkId := e.ends.2.1.trans h
  have hsecond := node_of (g := { g with nodes := insert Subject.subjectId e.fromSubject g.nodes }) hto
  unfold Graph.edge
  rw [node_of hfrom, ok_bind, hsecond, ok_bind]
  rfl

theorem Closed.edge (h : g.Closed) (hedge : g.edge e = .ok g') : g'.Closed := by
  obtain ⟨hfrom, hto, rfl⟩ := edge_ok hedge
  have hsource : ({ g with nodes := insert Subject.subjectId e.fromSubject g.nodes } : Graph sha).Closed :=
    h.insertNode hfrom
  have hends := hsource.insertNode hto
  refine hends.insertEdge ?_ ?_
  · exact hsource.nodes.key_mem_insert
      ⟨e.fromSubject, h.nodes.insert_iff.mpr (Or.inl rfl), e.ends.1.2⟩
  · exact ⟨e.toSubject, hsource.nodes.insert_iff.mpr (Or.inl rfl), e.ends.2.2⟩

/-- What some steps make of a graph, with the edges they were offered. -/
structure Adds (offered : List (Edge sha)) (g g' : Graph sha) : Prop where
  closed : g'.Closed
  networkId : g'.networkId = g.networkId
  nodes : ∀ n ∈ g.nodes, ∃ m ∈ g'.nodes, m.subjectId = n.subjectId
  edges : ∀ e ∈ g.edges, ∃ d ∈ g'.edges, d.key = e.key
  added : ∀ e ∈ g'.edges, e ∈ g.edges ∨ e ∈ offered

theorem Adds.refl (h : g.Closed) : Adds [] g g where
  closed := h
  networkId := rfl
  nodes := fun n hn => ⟨n, hn, rfl⟩
  edges := fun e he => ⟨e, he, rfl⟩
  added := fun _ he => Or.inl he

theorem Adds.trans {offered more : List (Edge sha)} {g'' : Graph sha} (h : Adds offered g g')
    (h' : Adds more g' g'') : Adds (offered ++ more) g g'' where
  closed := h'.closed
  networkId := h'.networkId.trans h.networkId
  nodes := fun n hn => by
    obtain ⟨m, hm, heq⟩ := h.nodes n hn
    obtain ⟨l, hl, heq'⟩ := h'.nodes m hm
    exact ⟨l, hl, heq'.trans heq⟩
  edges := fun e he => by
    obtain ⟨d, hd, heq⟩ := h.edges e he
    obtain ⟨c, hc, heq'⟩ := h'.edges d hd
    exact ⟨c, hc, heq'.trans heq⟩
  added := fun e he => by
    rcases h'.added e he with he | he
    · exact (h.added e he).imp_right fun he => List.mem_append.mpr (Or.inl he)
    · exact Or.inr (List.mem_append.mpr (Or.inr he))

theorem Adds.present {offered more : List (Edge sha)} {g'' : Graph sha} (h' : Adds more g' g'')
    (hoffered : ∀ e ∈ offered, ∃ d ∈ g'.edges, d.key = e.key) (hmore : ∀ e ∈ more, ∃ d ∈ g''.edges, d.key = e.key) :
    ∀ e ∈ offered ++ more, ∃ d ∈ g''.edges, d.key = e.key := by
  intro e he
  rcases List.mem_append.mp he with he | he
  · obtain ⟨d, hd, heq⟩ := hoffered e he
    obtain ⟨c, hc, heq'⟩ := h'.edges d hd
    exact ⟨c, hc, heq'.trans heq⟩
  · exact hmore e he

theorem node_adds (h : g.Closed) (hnode : g.node subject = .ok g') : Adds [] g g' := by
  obtain ⟨hnetwork, rfl⟩ := node_ok hnode
  exact {
    closed := h.insertNode hnetwork
    networkId := rfl
    nodes := fun n hn => h.nodes.key_mem_insert ⟨n, hn, rfl⟩
    edges := fun e he => ⟨e, he, rfl⟩
    added := fun _ he => Or.inl he }

theorem node_counts (h : g.Closed) (hnode : g.node subject = .ok g') :
    g'.nodes.length ≤ g.nodes.length + 1 ∧ g'.edges = g.edges := by
  obtain ⟨_, rfl⟩ := node_ok hnode
  have hlength := h.nodes.length_insert_le (a := subject) (Or.inl (Nat.lt_succ_self _))
  exact ⟨hlength.trans (max_le (Nat.le_refl _) (Nat.le_succ _)), rfl⟩

theorem edge_adds (h : g.Closed) (hedge : g.edge e = .ok g') : Adds [e] g g' := by
  have hclosed := h.edge hedge
  obtain ⟨hfrom, hto, rfl⟩ := edge_ok hedge
  exact {
    closed := hclosed
    networkId := rfl
    nodes := fun n hn => h.nodes.insert.key_mem_insert (h.nodes.key_mem_insert ⟨n, hn, rfl⟩)
    edges := fun d hd => h.edges.key_mem_insert ⟨d, hd, rfl⟩
    added := fun d hd => (mem_of_mem_insert hd).symm.imp_right fun heq => List.mem_singleton.mpr heq }

/-- A new edge is there, it counts as one at most, and nothing is left out. -/
theorem edge_counts (h : g.Closed) (hedge : g.edge e = .ok g') :
    e ∈ g'.edges ∧ g'.edges.length ≤ g.edges.length + 1 ∧ g'.truncated = g.truncated := by
  obtain ⟨_, _, rfl⟩ := edge_ok hedge
  refine ⟨h.edges.insert_iff.mpr (Or.inl rfl), ?_, rfl⟩
  have hlength := h.edges.length_insert_le (a := e) (Or.inl (Nat.lt_succ_self _))
  exact hlength.trans (max_le (Nat.le_refl _) (Nat.le_succ _))

/-- A merge keeps within its bounds, and leaves something out only if it says so. -/
structure Extends (maxNodes : Nat) (offered : List (Edge sha)) (g g' : Graph sha) : Prop
    extends Adds offered g g' where
  nodeBound : g'.nodes.length ≤ max maxNodes g.nodes.length
  edgeBound : g'.edges.length ≤ max 2000 g.edges.length
  whole : g'.truncated = false → g.truncated = false ∧ ∀ e ∈ offered, ∃ d ∈ g'.edges, d.key = e.key

theorem Extends.refl (h : g.Closed) : Extends maxNodes [] g g where
  toAdds := Adds.refl h
  nodeBound := le_max_right ..
  edgeBound := le_max_right ..
  whole := fun h => ⟨h, fun _ he => by cases he⟩

theorem Extends.trans {offered more : List (Edge sha)} {g'' : Graph sha} (h : Extends maxNodes offered g g')
    (h' : Extends maxNodes more g' g'') : Extends maxNodes (offered ++ more) g g'' where
  toAdds := h.toAdds.trans h'.toAdds
  nodeBound := by
    have := h.nodeBound
    have := h'.nodeBound
    omega
  edgeBound := by
    have := h.edgeBound
    have := h'.edgeBound
    omega
  whole := fun hwhole => by
    obtain ⟨hmiddle, hmore⟩ := h'.whole hwhole
    obtain ⟨hfirst, hoffered⟩ := h.whole hmiddle
    exact ⟨hfirst, h'.toAdds.present hoffered hmore⟩

theorem mergeNode_extends (h : g.Closed) (hnetwork : subject.networkId = g.networkId) :
    Extends maxNodes [] g (mergeNode maxNodes g subject) := by
  unfold mergeNode
  split
  · rename_i hroom
    exact {
      closed := h.insertNode hnetwork
      networkId := rfl
      nodes := fun n hn => h.nodes.key_mem_insert ⟨n, hn, rfl⟩
      edges := fun e he => ⟨e, he, rfl⟩
      added := fun _ he => Or.inl he
      nodeBound := h.nodes.length_insert_le hroom
      edgeBound := le_max_right ..
      whole := fun hwhole => ⟨hwhole, fun _ he => by cases he⟩ }
  · have hsame : Extends maxNodes [] g g := Extends.refl h
    exact { hsame with
      closed := h.truncate true
      whole := fun hwhole => by cases hwhole }

theorem mergeEdge_extends (h : g.Closed) : Extends maxNodes [e] g (mergeEdge g e) := by
  unfold mergeEdge
  split
  · rename_i hkept
    obtain ⟨hfrom, hto, hroom⟩ := hkept
    exact {
      closed := h.insertEdge (find_isSome.mp hfrom) (find_isSome.mp hto)
      networkId := rfl
      nodes := fun n hn => ⟨n, hn, rfl⟩
      edges := fun d hd => h.edges.key_mem_insert ⟨d, hd, rfl⟩
      added := fun d hd => (mem_of_mem_insert hd).symm.imp_right fun heq => List.mem_singleton.mpr heq
      nodeBound := le_max_right ..
      edgeBound := h.edges.length_insert_le (Or.inl hroom)
      whole := fun hwhole => ⟨hwhole, fun d hd => by
        obtain rfl := List.mem_singleton.mp hd
        exact ⟨d, h.edges.insert_iff.mpr (Or.inl rfl), rfl⟩⟩ }
  · exact {
      closed := h.truncate true
      networkId := rfl
      nodes := fun n hn => ⟨n, hn, rfl⟩
      edges := fun d hd => ⟨d, hd, rfl⟩
      added := fun _ hd => Or.inl hd
      nodeBound := le_max_right ..
      edgeBound := le_max_right ..
      whole := fun hwhole => by cases hwhole }

theorem mergeNodes_extends {subjects : List Subject} (h : g.Closed)
    (hnetwork : ∀ n ∈ subjects, n.networkId = g.networkId) :
    Extends maxNodes [] g (subjects.foldl (mergeNode maxNodes) g) := by
  induction subjects generalizing g with
  | nil => exact Extends.refl h
  | cons subject rest ih =>
    obtain ⟨hsubject, hrest⟩ := List.forall_mem_cons.mp hnetwork
    have hfirst : Extends maxNodes [] g (mergeNode maxNodes g subject) := mergeNode_extends h hsubject
    exact hfirst.trans (ih hfirst.closed fun n hn => (hrest n hn).trans hfirst.networkId.symm)

theorem mergeEdges_extends (edges : List (Edge sha)) (h : g.Closed) :
    Extends maxNodes edges g (edges.foldl mergeEdge g) := by
  induction edges generalizing g with
  | nil => exact Extends.refl h
  | cons edge rest ih =>
    have hfirst : Extends maxNodes [edge] g (mergeEdge g edge) := mergeEdge_extends h
    exact hfirst.trans (ih hfirst.closed)

/-- A merge keeps what was there, adds nothing but what it was offered, and
leaves something out only if it says so. -/
theorem merge_extends (h : g.Closed) (hother : other.Closed) (hmerge : g.merge other maxNodes = .ok g') :
    Extends maxNodes other.edges g g' ∧ (g'.truncated = false → other.truncated = false) := by
  obtain ⟨_, hnetwork, hmerge⟩ := bind_ok hmerge
  cases hmerge
  have hnetwork : g.networkId = other.networkId := ensure_ok hnetwork
  have hnodes : Extends maxNodes [] { g with truncated := g.truncated || other.truncated } _ :=
    mergeNodes_extends (h.truncate _) fun n hn => (hother.network n hn).trans hnetwork.symm
  have hall := hnodes.trans (mergeEdges_extends other.edges hnodes.closed)
  have hflag := fun hwhole => Bool.or_eq_false_iff.mp (hall.whole hwhole).1
  exact ⟨{ hall with whole := fun hwhole => ⟨(hflag hwhole).1, (hall.whole hwhole).2⟩ },
    fun hwhole => (hflag hwhole).2⟩

end Graph

end

end AmlReal.Warehouse.Relationships
