import Mathlib.Data.List.Sort
import AmlReal.Foundations.Checks
import AmlReal.Warehouse.Values

/-! # Finalized BSC blocks

`ingestion/model.rs`: what the node returns for a block and its receipts, and
its normal form. A 256-bit quantity is a natural number; the code's byte arrays
only matter for its bounds, which the parsers check. A map by hash is the list
of its entries. -/

namespace AmlReal.Bsc.Model
open AmlReal.Foundations.Checks AmlReal.Warehouse.Values

def BSC_NETWORK_ID : String := "eip155:56"

inductive DecodeError where
  | missingField (field : String)
  | invalidField (field reason : String)
  | evidenceMismatch (field : String)
  | receiptCountMismatch (transactions receipts : Nat)
  | duplicateReceipt
  | missingReceipt
  | unknownReceipt
  | nonContiguousLogIndex (expected actual : Nat)
  deriving DecidableEq, Repr

/-! ## The node's answers -/

structure RpcTransaction where
  hash : String
  blockHash : Option String
  blockNumber : Option String
  transactionIndex : Option String
  fromAddress : String
  toAddress : Option String
  nonce : String
  transactionType : Option String
  value : String
  input : String
  gas : String
  gasPrice : Option String

structure RpcBlock where
  number : Option String
  hash : Option String
  parentHash : String
  timestamp : String
  transactions : List RpcTransaction

structure RpcLog where
  address : String
  topics : List String
  data : String
  blockNumber : String
  blockHash : String
  transactionHash : String
  transactionIndex : String
  logIndex : String
  removed : Option Bool

structure RpcReceipt where
  transactionHash : String
  transactionIndex : String
  blockHash : String
  blockNumber : String
  fromAddress : String
  toAddress : Option String
  contractAddress : Option String
  status : Option String
  transactionType : Option String
  gasUsed : String
  effectiveGasPrice : Option String
  logs : List RpcLog

inductive RpcCallFrame where
  | mk (callType : String) (fromAddress toAddress value error revertReason : Option String)
    (calls : List RpcCallFrame)

namespace RpcCallFrame

def callType : RpcCallFrame → String | mk c _ _ _ _ _ _ => c
def fromAddress : RpcCallFrame → Option String | mk _ f _ _ _ _ _ => f
def toAddress : RpcCallFrame → Option String | mk _ _ t _ _ _ _ => t
def value : RpcCallFrame → Option String | mk _ _ _ v _ _ _ => v
def error : RpcCallFrame → Option String | mk _ _ _ _ e _ _ => e
def revertReason : RpcCallFrame → Option String | mk _ _ _ _ _ r _ => r
def calls : RpcCallFrame → List RpcCallFrame | mk _ _ _ _ _ _ cs => cs

end RpcCallFrame

structure RpcBlockTrace where
  txHash : String
  result : RpcCallFrame

/-! ## The normal form -/

structure CanonicalTransaction where
  hash : String
  transactionIndex : Nat
  fromAddress : String
  toAddress : String
  contractAddress : String
  nonce : Nat
  transactionType : Nat
  value : Nat
  inputSelector : String
  inputData : String
  status : Nat
  gasLimit : Nat
  gasUsed : Nat
  effectiveGasPrice : Nat
  feePaid : Nat
  deriving DecidableEq

structure CanonicalLog where
  eventId : String
  txHash : String
  transactionIndex : Nat
  logIndex : Nat
  contractAddress : String
  topic0 : String
  topics : List String
  data : String
  deriving DecidableEq

structure CanonicalBlock where
  number : Nat
  hash : String
  parentHash : String
  timestampUnixMs : Nat
  transactions : List CanonicalTransaction
  logs : List CanonicalLog
  deriving DecidableEq

/-! ## Quantities and hexadecimal text -/

def hexNibble (c : Char) : Option Nat :=
  if c.isDigit then some (c.toNat - '0'.toNat)
  else if 'a' ≤ c ∧ c ≤ 'f' then some (c.toNat - 'a'.toNat + 10)
  else if 'A' ≤ c ∧ c ≤ 'F' then some (c.toNat - 'A'.toNat + 10)
  else none

def quantityHex (field value : String) : Except DecodeError (List Char) := do
  let hex ← context (stripPrefix "0x" value) (.invalidField field "quantity is not 0x-prefixed")
  ensure (hex.toList ≠ [] ∧ ¬ (1 < hex.toList.length ∧ hex.toList.head? = some '0'))
    (.invalidField field "quantity is empty or has leading zeroes")
  pure hex.toList

/-- `EvmU256::parse` -/
def parseU256 (field value : String) : Except DecodeError Nat := do
  let hex ← quantityHex field value
  ensure (hex.length ≤ 64) (.invalidField field "quantity exceeds 256 bits")
  context (hex.foldlM (fun n c => (hexNibble c).map fun d => 16 * n + d) 0)
    (.invalidField field "quantity contains non-hex characters")

def parseU64 (field value : String) : Except DecodeError Nat := do
  let n ← parseU256 field value
  ensure (n < 2 ^ 64) (.invalidField field "quantity exceeds UInt64")
  pure n

def parseU32 (field value : String) : Except DecodeError Nat := do
  let n ← parseU64 field value
  ensure (n < 2 ^ 32) (.invalidField field "quantity exceeds UInt32")
  pure n

def parseU8 (field value : String) : Except DecodeError Nat := do
  let n ← parseU64 field value
  ensure (n < 2 ^ 8) (.invalidField field "quantity exceeds UInt8")
  pure n

def normalizeFixedHex (field value : String) (bytes : Nat) : Except DecodeError String := do
  ensure (value.toList.length = 2 + bytes * 2 ∧ "0x".toList.isPrefixOf value.toList ∧
      (value.toList.drop 2).all fun c => (hexNibble c).isSome)
    (.invalidField field "hex value has an invalid length or character")
  pure (toAsciiLowercase value)

def normalizeHash (field value : String) : Except DecodeError String :=
  normalizeFixedHex field value 32

def normalizeAddress (field value : String) : Except DecodeError String :=
  normalizeFixedHex field value 20

def normalizeOptionalAddress (field : String) : Option String → Except DecodeError String
  | none => .ok ""
  | some value => normalizeAddress field value

def normalizeData (field value : String) : Except DecodeError String := do
  let hex ← context (stripPrefix "0x" value) (.invalidField field "byte data is not 0x-prefixed")
  ensure (hex.toList.length % 2 = 0 ∧ hex.toList.all fun c => (hexNibble c).isSome)
    (.invalidField field "byte data has odd length or non-hex characters")
  pure (toAsciiLowercase value)

/-! ## Blocks -/

/-- The block every part of the evidence has to refer to. -/
structure BlockReference where
  number : Nat
  hash : String

def validateBlockReference (b : BlockReference) (index : Nat) (tx : RpcTransaction)
    (receipt : RpcReceipt) : Except DecodeError Unit := do
  let blockHash ← context tx.blockHash (.missingField "transaction.blockHash")
  let txBlockHash ← normalizeHash "transaction.blockHash" blockHash
  let blockNumber ← context tx.blockNumber (.missingField "transaction.blockNumber")
  let txBlockNumber ← parseU64 "transaction.blockNumber" blockNumber
  let transactionIndex ← context tx.transactionIndex (.missingField "transaction.transactionIndex")
  let txIndex ← parseU32 "transaction.transactionIndex" transactionIndex
  let receiptBlockHash ← normalizeHash "receipt.blockHash" receipt.blockHash
  let receiptBlockNumber ← parseU64 "receipt.blockNumber" receipt.blockNumber
  let receiptIndex ← parseU32 "receipt.transactionIndex" receipt.transactionIndex
  ensure (txBlockHash = b.hash ∧ receiptBlockHash = b.hash ∧ txBlockNumber = b.number ∧
      receiptBlockNumber = b.number ∧ txIndex = index ∧ receiptIndex = index)
    (.evidenceMismatch "block/transaction reference")

def normalizeLog (b : BlockReference) (txHash : String) (transactionIndex : Nat) (log : RpcLog) :
    Except DecodeError CanonicalLog := do
  ensure (log.removed.getD false = false)
    (.invalidField "log.removed" "finalized receipt contains a removed log")
  let blockNumber ← parseU64 "log.blockNumber" log.blockNumber
  ensure (blockNumber = b.number) (.evidenceMismatch "log block/transaction reference")
  let blockHash ← normalizeHash "log.blockHash" log.blockHash
  ensure (blockHash = b.hash) (.evidenceMismatch "log block/transaction reference")
  let transactionHash ← normalizeHash "log.transactionHash" log.transactionHash
  ensure (transactionHash = txHash) (.evidenceMismatch "log block/transaction reference")
  let index ← parseU32 "log.transactionIndex" log.transactionIndex
  ensure (index = transactionIndex) (.evidenceMismatch "log block/transaction reference")
  let logIndex ← parseU32 "log.logIndex" log.logIndex
  let topics ← log.topics.mapM (normalizeHash "log.topic")
  let contractAddress ← normalizeAddress "log.address" log.address
  let data ← normalizeData "log.data" log.data
  pure ⟨s!"{BSC_NETWORK_ID}:{txHash}:{logIndex}", txHash, transactionIndex, logIndex,
    contractAddress, topics.head?.getD "", topics, data⟩

/-- `receipts_by_hash` -/
def receiptsByHash (receipts : List RpcReceipt) : Except DecodeError (List (String × RpcReceipt)) :=
  receipts.foldlM (fun map receipt => do
    let txHash ← normalizeHash "receipt.transactionHash" receipt.transactionHash
    ensure (map.lookup txHash).isNone .duplicateReceipt
    pure ((txHash, receipt) :: map)) []

/-- The variables of the loop over the transactions. -/
structure Normalizing where
  receipts : List (String × RpcReceipt)
  transactions : List CanonicalTransaction
  logs : List CanonicalLog

/-- `receipt.type` agrees where the node reports one. -/
def checkReceiptType (receipt : RpcReceipt) (transactionType : Nat) : Except DecodeError Unit :=
  match receipt.transactionType with
  | none => .ok ()
  | some text => do
    let receiptType ← parseU8 "receipt.type" text
    ensure (receiptType = transactionType) (.evidenceMismatch "receipt.type")

/-- The first four bytes of the call data. -/
def inputSelector (inputData : String) : String :=
  if 10 ≤ inputData.toList.length then String.ofList (inputData.toList.take 10) else ""

def normalizeTransaction (b : BlockReference) (s : Normalizing) (tx : RpcTransaction × Nat) :
    Except DecodeError Normalizing := do
  ensure (tx.2 < 2 ^ 32) (.invalidField "block.transactions" "transaction count exceeds UInt32")
  let txHash ← normalizeHash "transaction.hash" tx.1.hash
  let receipt ← context (s.receipts.lookup txHash) .missingReceipt
  validateBlockReference b tx.2 tx.1 receipt
  let fromAddress ← normalizeAddress "transaction.from" tx.1.fromAddress
  let receiptFrom ← normalizeAddress "receipt.from" receipt.fromAddress
  ensure (fromAddress = receiptFrom) (.evidenceMismatch "receipt.from")
  let toAddress ← normalizeOptionalAddress "transaction.to" tx.1.toAddress
  let receiptTo ← normalizeOptionalAddress "receipt.to" receipt.toAddress
  ensure (toAddress = receiptTo) (.evidenceMismatch "receipt.to")
  let contractAddress ← normalizeOptionalAddress "receipt.contractAddress" receipt.contractAddress
  ensure (toAddress = "" ∨ contractAddress = "") (.evidenceMismatch "receipt.contractAddress")
  let transactionType ← parseU8 "transaction.type" (tx.1.transactionType.getD "0x0")
  checkReceiptType receipt transactionType
  let statusText ← context receipt.status (.missingField "receipt.status")
  let status ← parseU8 "receipt.status" statusText
  ensure (status ≤ 1) (.invalidField "receipt.status" "status must be zero or one")
  let gasLimit ← parseU64 "transaction.gas" tx.1.gas
  let gasUsed ← parseU64 "receipt.gasUsed" receipt.gasUsed
  ensure (gasUsed ≤ gasLimit) (.evidenceMismatch "receipt.gasUsed")
  let priceText ← context (receipt.effectiveGasPrice.or tx.1.gasPrice)
    (.missingField "receipt.effectiveGasPrice")
  let effectiveGasPrice ← parseU256 "receipt.effectiveGasPrice" priceText
  ensure (effectiveGasPrice * gasUsed < 2 ^ 256) (.invalidField "fee_paid" "gas fee exceeds UInt256")
  let inputData ← normalizeData "transaction.input" tx.1.input
  let logs ← receipt.logs.mapM (normalizeLog b txHash tx.2)
  let nonce ← parseU64 "transaction.nonce" tx.1.nonce
  let value ← parseU256 "transaction.value" tx.1.value
  pure ⟨s.receipts.filter fun r => r.1 ≠ txHash,
    s.transactions ++ [⟨txHash, tx.2, fromAddress, toAddress, contractAddress, nonce,
      transactionType, value, inputSelector inputData, inputData, status, gasLimit, gasUsed,
      effectiveGasPrice, effectiveGasPrice * gasUsed⟩],
    s.logs ++ logs⟩

/-- The logs are numbered from zero without a gap. -/
def checkLogIndex (log : CanonicalLog × Nat) : Except DecodeError Unit := do
  ensure (log.2 < 2 ^ 32) (.invalidField "receipt.logs" "log count exceeds UInt32")
  ensure (log.1.logIndex = log.2) (.nonContiguousLogIndex log.2 log.1.logIndex)

def sortLogs (logs : List CanonicalLog) : List CanonicalLog :=
  logs.insertionSort fun a b => a.logIndex ≤ b.logIndex

def normalizeBlock (block : RpcBlock) (receipts : List RpcReceipt) :
    Except DecodeError CanonicalBlock := do
  let numberText ← context block.number (.missingField "block.number")
  let number ← parseU64 "block.number" numberText
  let hashText ← context block.hash (.missingField "block.hash")
  let hash ← normalizeHash "block.hash" hashText
  let parentHash ← normalizeHash "block.parentHash" block.parentHash
  let timestamp ← parseU64 "block.timestamp" block.timestamp
  ensure (timestamp * 1000 < 2 ^ 64)
    (.invalidField "block.timestamp" "millisecond timestamp overflows UInt64")
  let byHash ← receiptsByHash receipts
  ensure (byHash.length = block.transactions.length)
    (.receiptCountMismatch block.transactions.length byHash.length)
  let final ← block.transactions.zipIdx.foldlM (normalizeTransaction ⟨number, hash⟩) ⟨byHash, [], []⟩
  ensure (final.receipts = []) .unknownReceipt
  (sortLogs final.logs).zipIdx.forM checkLogIndex
  pure ⟨number, hash, parentHash, timestamp * 1000, final.transactions, sortLogs final.logs⟩

/-! ## What a normalized block satisfies -/

/-- Free of the separator of composite identities. -/
def PlainText (s : String) : Prop := '|' ∉ s.toList

instance (s : String) : Decidable (PlainText s) := inferInstanceAs (Decidable (¬ _))

theorem plain_append {a b : String} (ha : PlainText a) (hb : PlainText b) : PlainText (a ++ b) := by
  unfold PlainText
  rw [String.toList_append, List.mem_append]
  exact not_or.mpr ⟨ha, hb⟩

theorem plain_of_digits {cs : List Char} (h : ∀ c ∈ cs, c.isDigit = true) :
    PlainText (String.ofList cs) := by
  unfold PlainText
  rw [String.toList_ofList]
  exact fun hbar => absurd (h _ hbar) (by decide)

theorem plain_repr (n : Nat) : PlainText n.repr := by
  unfold PlainText
  rw [Nat.toList_repr]
  exact fun hbar => absurd (Nat.isDigit_of_mem_toDigits (by omega) (by omega) hbar) (by decide)

theorem toLower_ne_bar {c : Char} (h : c ≠ '|') : c.toLower ≠ '|' := by
  intro he
  unfold Char.toLower at he
  split at he
  · rename_i hupper
    have hle : c.val.toNat ≤ 'Z'.val.toNat := UInt32.le_iff_toNat_le.mp hupper.2
    have hval := congrArg (fun x : Char => x.val.toNat) he
    simp at hval hle
    omega
  · exact h he

theorem plain_toAsciiLowercase {s : String} (h : PlainText s) : PlainText (toAsciiLowercase s) := by
  unfold PlainText toAsciiLowercase
  rw [String.toList_ofList, List.mem_map]
  rintro ⟨c, hc, he⟩
  exact toLower_ne_bar (fun hbar => h (hbar ▸ hc)) he

theorem normalizeFixedHex_plain {field value normal : String} {bytes : Nat}
    (h : normalizeFixedHex field value bytes = .ok normal) : PlainText normal := by
  obtain ⟨_, hchecks, h⟩ := bind_ok h
  obtain ⟨_, hzero, hhex⟩ := ensure_ok hchecks
  obtain rfl := Except.ok.inj h
  refine plain_toAsciiLowercase fun hbar => ?_
  rw [← List.take_append_drop 2 value.toList, List.mem_append] at hbar
  rcases hbar with hbar | hbar
  · have htake : value.toList.take 2 = ['0', 'x'] :=
      (List.prefix_iff_eq_take.mp (List.isPrefixOf_iff_prefix.mp hzero)).symm
    rw [htake] at hbar
    simp at hbar
  · exact absurd (List.all_eq_true.mp hhex _ hbar) (by decide)

theorem normalizeOptionalAddress_plain {field normal : String} {value : Option String}
    (h : normalizeOptionalAddress field value = .ok normal) : PlainText normal := by
  cases value with
  | none => obtain rfl := Except.ok.inj h; decide
  | some value => exact normalizeFixedHex_plain h

/-- The texts of a transaction that enter an identity. -/
structure PlainTransaction (tx : CanonicalTransaction) : Prop where
  hash : PlainText tx.hash
  fromAddress : PlainText tx.fromAddress
  toAddress : PlainText tx.toAddress
  contractAddress : PlainText tx.contractAddress

theorem normalizeTransaction_ok {b : BlockReference} {s s' : Normalizing} {tx : RpcTransaction × Nat}
    (h : normalizeTransaction b s tx = .ok s') :
    ∃ row, s'.transactions = s.transactions ++ [row] ∧ row.transactionIndex = tx.2 ∧
      PlainTransaction row := by
  obtain ⟨_, _, h⟩ := bind_ok h
  obtain ⟨txHash, htx, h⟩ := bind_ok h
  obtain ⟨receipt, _, h⟩ := bind_ok h
  obtain ⟨_, _, h⟩ := bind_ok h
  obtain ⟨fromAddress, hfrom, h⟩ := bind_ok h
  obtain ⟨_, _, h⟩ := bind_ok h
  obtain ⟨_, _, h⟩ := bind_ok h
  obtain ⟨toAddress, hto, h⟩ := bind_ok h
  obtain ⟨_, _, h⟩ := bind_ok h
  obtain ⟨_, _, h⟩ := bind_ok h
  obtain ⟨contractAddress, hcontract, h⟩ := bind_ok h
  obtain ⟨_, _, h⟩ := bind_ok h
  obtain ⟨_, _, h⟩ := bind_ok h
  obtain ⟨_, _, h⟩ := bind_ok h
  obtain ⟨_, _, h⟩ := bind_ok h
  obtain ⟨_, _, h⟩ := bind_ok h
  obtain ⟨_, _, h⟩ := bind_ok h
  obtain ⟨_, _, h⟩ := bind_ok h
  obtain ⟨_, _, h⟩ := bind_ok h
  obtain ⟨_, _, h⟩ := bind_ok h
  obtain ⟨_, _, h⟩ := bind_ok h
  obtain ⟨_, _, h⟩ := bind_ok h
  obtain ⟨_, _, h⟩ := bind_ok h
  obtain ⟨_, _, h⟩ := bind_ok h
  obtain ⟨_, _, h⟩ := bind_ok h
  obtain ⟨_, _, h⟩ := bind_ok h
  obtain ⟨_, _, h⟩ := bind_ok h
  obtain rfl := Except.ok.inj h
  exact ⟨_, rfl, rfl, normalizeFixedHex_plain htx, normalizeFixedHex_plain hfrom,
    normalizeOptionalAddress_plain hto, normalizeOptionalAddress_plain hcontract⟩

theorem normalizeTransactions_ok {b : BlockReference} {txs : List RpcTransaction} {k : Nat}
    {s s' : Normalizing} (h : (txs.zipIdx k).foldlM (normalizeTransaction b) s = .ok s') :
    ∃ rows, s'.transactions = s.transactions ++ rows ∧
      rows.map CanonicalTransaction.transactionIndex = List.range' k txs.length ∧
      ∀ tx ∈ rows, PlainTransaction tx := by
  induction txs generalizing k s with
  | nil => cases h; exact ⟨[], by simp, rfl, by simp⟩
  | cons tx rest ih =>
    rw [List.zipIdx_cons, List.foldlM_cons] at h
    obtain ⟨mid, hone, hrest⟩ := bind_ok h
    obtain ⟨row, hmid, hindex, hplain⟩ := normalizeTransaction_ok hone
    obtain ⟨rows, hrows, hindexes, hplains⟩ := ih hrest
    refine ⟨row :: rows, by rw [hrows, hmid]; simp, ?_, ?_⟩
    · rw [List.map_cons, hindex, hindexes, List.length_cons, List.range'_succ]
    · exact List.forall_mem_cons.mpr ⟨hplain, hplains⟩

/-- Transactions and logs are numbered by their positions. -/
structure Normalized (b : CanonicalBlock) : Prop where
  transactions : b.transactions.map CanonicalTransaction.transactionIndex =
    List.range b.transactions.length
  logs : b.logs.map CanonicalLog.logIndex = List.range b.logs.length
  plain : ∀ tx ∈ b.transactions, PlainTransaction tx

theorem checkLogIndexes_ok {logs : List CanonicalLog} (h : logs.zipIdx.forM checkLogIndex = .ok ()) :
    logs.map CanonicalLog.logIndex = List.range logs.length := by
  have heach : ∀ p ∈ logs.zipIdx, p.1.logIndex = p.2 := by
    intro p hp
    obtain ⟨_, _, hindex⟩ := bind_ok (forM_ok h p hp)
    exact ensure_ok hindex
  calc logs.map CanonicalLog.logIndex
      = logs.zipIdx.map fun p => p.1.logIndex := by
        show _ = logs.zipIdx.map (CanonicalLog.logIndex ∘ Prod.fst)
        rw [← List.map_map, List.zipIdx_map_fst]
    _ = logs.zipIdx.map Prod.snd := List.map_congr_left heach
    _ = List.range logs.length := by rw [List.zipIdx_map_snd, List.range_eq_range']

theorem normalizeBlock_ok {rpc : RpcBlock} {receipts : List RpcReceipt} {block : CanonicalBlock}
    (h : normalizeBlock rpc receipts = .ok block) : Normalized block := by
  obtain ⟨_, _, h⟩ := bind_ok h
  obtain ⟨_, _, h⟩ := bind_ok h
  obtain ⟨_, _, h⟩ := bind_ok h
  obtain ⟨_, _, h⟩ := bind_ok h
  obtain ⟨_, _, h⟩ := bind_ok h
  obtain ⟨_, _, h⟩ := bind_ok h
  obtain ⟨_, _, h⟩ := bind_ok h
  obtain ⟨byHash, _, h⟩ := bind_ok h
  obtain ⟨_, _, h⟩ := bind_ok h
  obtain ⟨final, hfinal, h⟩ := bind_ok h
  obtain ⟨_, _, h⟩ := bind_ok h
  obtain ⟨_, hlogs, h⟩ := bind_ok h
  obtain rfl := Except.ok.inj h
  obtain ⟨rows, hrows, hindexes, hplain⟩ := normalizeTransactions_ok hfinal
  rw [List.nil_append] at hrows
  subst hrows
  have hlength : final.transactions.length = rpc.transactions.length := by
    simpa using congrArg List.length hindexes
  refine ⟨?_, checkLogIndexes_ok hlogs, hplain⟩
  show final.transactions.map _ = _
  rw [hindexes, ← hlength, List.range_eq_range']

end AmlReal.Bsc.Model
