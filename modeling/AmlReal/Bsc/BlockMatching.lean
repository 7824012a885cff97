import Mathlib.Data.List.Perm.Lattice
import AmlReal.Foundations.EntryList
import AmlReal.Bsc.Model

/-! # Transactions and receipts of a normalized block

The receipts arrive in any order. A block is accepted only when they match its
transactions one to one, and then only the receipts count, not their order. -/

namespace AmlReal.Bsc.BlockMatching
open AmlReal.Foundations AmlReal.Foundations.Checks AmlReal.Warehouse.Values AmlReal.Bsc.Model
open AmlReal.Foundations.EntryList

/-! ## One transaction -/

/-- What the checks of one transaction and its receipt establish. -/
structure Accepted (b : BlockReference) (tx : RpcTransaction × Nat) (receipt : RpcReceipt)
    (row : CanonicalTransaction) (logs : List CanonicalLog) : Prop where
  counted : tx.2 < 2 ^ 32
  hash : normalizeHash "transaction.hash" tx.1.hash = .ok row.hash
  reference : validateBlockReference b tx.2 tx.1 receipt = .ok ()
  index : row.transactionIndex = tx.2
  fromAddress : normalizeAddress "transaction.from" tx.1.fromAddress = .ok row.fromAddress
  receiptFrom : normalizeAddress "receipt.from" receipt.fromAddress = .ok row.fromAddress
  toAddress : normalizeOptionalAddress "transaction.to" tx.1.toAddress = .ok row.toAddress
  receiptTo : normalizeOptionalAddress "receipt.to" receipt.toAddress = .ok row.toAddress
  contract : normalizeOptionalAddress "receipt.contractAddress" receipt.contractAddress =
    .ok row.contractAddress
  destination : row.toAddress = "" ∨ row.contractAddress = ""
  transactionType : parseU8 "transaction.type" (tx.1.transactionType.getD "0x0") =
    .ok row.transactionType
  receiptType : checkReceiptType receipt row.transactionType = .ok ()
  status : ∃ text, receipt.status = some text ∧ parseU8 "receipt.status" text = .ok row.status
  statusBound : row.status ≤ 1
  gasLimit : parseU64 "transaction.gas" tx.1.gas = .ok row.gasLimit
  gasUsed : parseU64 "receipt.gasUsed" receipt.gasUsed = .ok row.gasUsed
  gas : row.gasUsed ≤ row.gasLimit
  price : ∃ text, receipt.effectiveGasPrice.or tx.1.gasPrice = some text ∧
    parseU256 "receipt.effectiveGasPrice" text = .ok row.effectiveGasPrice
  feeBound : row.effectiveGasPrice * row.gasUsed < 2 ^ 256
  fee : row.feePaid = row.effectiveGasPrice * row.gasUsed
  input : normalizeData "transaction.input" tx.1.input = .ok row.inputData
  selector : row.inputSelector = inputSelector row.inputData
  logs : receipt.logs.mapM (normalizeLog b row.hash tx.2) = .ok logs
  nonce : parseU64 "transaction.nonce" tx.1.nonce = .ok row.nonce
  value : parseU256 "transaction.value" tx.1.value = .ok row.value

theorem normalizeTransaction_accepted {b : BlockReference} {s s' : Normalizing}
    {tx : RpcTransaction × Nat} :
    normalizeTransaction b s tx = .ok s' ↔ ∃ receipt row logs,
      s.receipts.lookup row.hash = some receipt ∧ Accepted b tx receipt row logs ∧
      s' = ⟨remove s.receipts row.hash, s.transactions ++ [row], s.logs ++ logs⟩ := by
  constructor
  · intro h
    obtain ⟨_, hcounted, h⟩ := bind_ok h
    obtain ⟨txHash, hhash, h⟩ := bind_ok h
    obtain ⟨receipt, hreceipt, h⟩ := bind_ok h
    obtain ⟨_, href, h⟩ := bind_ok h
    obtain ⟨fromAddress, hfrom, h⟩ := bind_ok h
    obtain ⟨receiptFrom, hrfrom, h⟩ := bind_ok h
    obtain ⟨_, hsender, h⟩ := bind_ok h
    obtain ⟨toAddress, hto, h⟩ := bind_ok h
    obtain ⟨receiptTo, hrto, h⟩ := bind_ok h
    obtain ⟨_, hrecipient, h⟩ := bind_ok h
    obtain ⟨contractAddress, hcontract, h⟩ := bind_ok h
    obtain ⟨_, hdest, h⟩ := bind_ok h
    obtain ⟨transactionType, htype, h⟩ := bind_ok h
    obtain ⟨_, hrtype, h⟩ := bind_ok h
    obtain ⟨statusText, hstext, h⟩ := bind_ok h
    obtain ⟨status, hstatus, h⟩ := bind_ok h
    obtain ⟨_, hsbound, h⟩ := bind_ok h
    obtain ⟨gasLimit, hlimit, h⟩ := bind_ok h
    obtain ⟨gasUsed, hused, h⟩ := bind_ok h
    obtain ⟨_, hgas, h⟩ := bind_ok h
    obtain ⟨priceText, hptext, h⟩ := bind_ok h
    obtain ⟨price, hprice, h⟩ := bind_ok h
    obtain ⟨_, hfee, h⟩ := bind_ok h
    obtain ⟨inputData, hinput, h⟩ := bind_ok h
    obtain ⟨logs, hlogs, h⟩ := bind_ok h
    obtain ⟨nonce, hnonce, h⟩ := bind_ok h
    obtain ⟨value, hvalue, h⟩ := bind_ok h
    obtain rfl := Except.ok.inj h
    refine ⟨receipt, ⟨txHash, tx.2, fromAddress, toAddress, contractAddress, nonce, transactionType,
      value, inputSelector inputData, inputData, status, gasLimit, gasUsed, price,
      price * gasUsed⟩, logs, context_ok hreceipt, ?_, rfl⟩
    rw [← ensure_ok hsender] at hrfrom
    rw [← ensure_ok hrecipient] at hrto
    exact ⟨ensure_ok hcounted, hhash, href, rfl, hfrom, hrfrom, hto, hrto, hcontract, ensure_ok hdest,
      htype, hrtype, ⟨_, context_ok hstext, hstatus⟩, ensure_ok hsbound, hlimit, hused,
      ensure_ok hgas, ⟨_, context_ok hptext, hprice⟩, ensure_ok hfee, rfl, hinput, rfl, hlogs,
      hnonce, hvalue⟩
  · rintro ⟨receipt, row, logs, hreceipt, ha, rfl⟩
    obtain ⟨statusText, hstext, hstatus⟩ := ha.status
    obtain ⟨priceText, hptext, hprice⟩ := ha.price
    unfold normalizeTransaction
    rw [ensure_eq ha.counted, ok_bind, ha.hash, ok_bind, hreceipt, context_some, ok_bind,
      ha.reference, ok_bind, ha.fromAddress, ok_bind, ha.receiptFrom, ok_bind, ensure_eq rfl,
      ok_bind, ha.toAddress, ok_bind, ha.receiptTo, ok_bind, ensure_eq rfl, ok_bind, ha.contract,
      ok_bind, ensure_eq ha.destination, ok_bind, ha.transactionType, ok_bind, ha.receiptType,
      ok_bind, hstext, context_some, ok_bind, hstatus, ok_bind, ensure_eq ha.statusBound, ok_bind,
      ha.gasLimit, ok_bind, ha.gasUsed, ok_bind, ensure_eq ha.gas, ok_bind, hptext, context_some,
      ok_bind, hprice, ok_bind, ensure_eq ha.feeBound, ok_bind, ha.input, ok_bind, ha.logs, ok_bind,
      ha.nonce, ok_bind, ha.value, ok_bind]
    rw [← ha.index, ← ha.selector, ← ha.fee]
    rfl

/-- A transaction with the receipt that was found for it and what came of the two. -/
structure Entry where
  rpc : RpcTransaction
  receipt : RpcReceipt
  row : CanonicalTransaction
  logs : List CanonicalLog

namespace Entry

def Holds (b : BlockReference) (e : Entry) : Prop :=
  Accepted b (e.rpc, e.row.transactionIndex) e.receipt e.row e.logs

def keyed (e : Entry) : String × RpcReceipt := (e.row.hash, e.receipt)

end Entry

/-! ## All transactions -/

/-- The loop pairs each transaction with one receipt and takes that out of the map. -/
theorem normalizeTransactions_entries {b : BlockReference} {txs : List RpcTransaction} {k : Nat}
    {s s' : Normalizing} (hkeyed : Keyed s.receipts)
    (h : (txs.zipIdx k).foldlM (normalizeTransaction b) s = .ok s') :
    ∃ entries : List Entry, entries.map Entry.rpc = txs ∧ (∀ e ∈ entries, e.Holds b) ∧
      s'.transactions = s.transactions ++ entries.map Entry.row ∧
      s'.logs = s.logs ++ entries.flatMap Entry.logs ∧
      s.receipts.Perm (entries.map Entry.keyed ++ s'.receipts) := by
  induction txs generalizing k s with
  | nil => cases h; exact ⟨[], rfl, by simp, by simp, by simp, by simp⟩
  | cons tx rest ih =>
    rw [List.zipIdx_cons, List.foldlM_cons] at h
    obtain ⟨mid, hone, hrest⟩ := bind_ok h
    obtain ⟨receipt, row, logs, hreceipt, ha, rfl⟩ := normalizeTransaction_accepted.mp hone
    obtain ⟨entries, htxs, hall, hrows, hlogs, hperm⟩ := ih (hkeyed.remove row.hash) hrest
    have hfirst : (Entry.mk tx receipt row logs).Holds b := by
      show Accepted b (tx, row.transactionIndex) receipt row logs
      rw [ha.index]; exact ha
    refine ⟨⟨tx, receipt, row, logs⟩ :: entries, by simp [htxs],
      List.forall_mem_cons.mpr ⟨hfirst, hall⟩, by simp [hrows], by simp [hlogs], ?_⟩
    exact (perm_remove hkeyed hreceipt).trans (hperm.cons _)

/-- Only the entries of the map count. -/
theorem normalizeTransactions_perm {b : BlockReference} {txs : List (RpcTransaction × Nat)}
    {s s' : Normalizing} {receipts : List (String × RpcReceipt)} (hkeyed : Keyed s.receipts)
    (hp : s.receipts.Perm receipts) (h : txs.foldlM (normalizeTransaction b) s = .ok s') :
    ∃ left, txs.foldlM (normalizeTransaction b) ⟨receipts, s.transactions, s.logs⟩ =
      .ok ⟨left, s'.transactions, s'.logs⟩ ∧ s'.receipts.Perm left := by
  induction txs generalizing s receipts with
  | nil => cases h; exact ⟨receipts, rfl, hp⟩
  | cons tx txs ih =>
    rw [List.foldlM_cons] at h
    obtain ⟨mid, hone, hrest⟩ := bind_ok h
    obtain ⟨receipt, row, logs, hreceipt, ha, rfl⟩ := normalizeTransaction_accepted.mp hone
    rw [hkeyed.lookup_perm hp] at hreceipt
    have hone' : normalizeTransaction b ⟨receipts, s.transactions, s.logs⟩ tx =
        .ok ⟨remove receipts row.hash, s.transactions ++ [row], s.logs ++ logs⟩ :=
      normalizeTransaction_accepted.mpr ⟨receipt, row, logs, hreceipt, ha, rfl⟩
    rw [List.foldlM_cons, hone', ok_bind]
    exact ih (hkeyed.remove row.hash) (hp.filter _) hrest

theorem receiptsByHash_eq (receipts : List RpcReceipt) : receiptsByHash receipts =
    receipts.foldlM (insertNew (fun r => normalizeHash "receipt.transactionHash" r.transactionHash)
      .duplicateReceipt) [] := rfl

/-! ## The block -/

/-- The log refers to the block and to the transaction. -/
structure LogOf (b : BlockReference) (tx : CanonicalTransaction) (log : RpcLog) : Prop where
  blockNumber : parseU64 "log.blockNumber" log.blockNumber = .ok b.number
  blockHash : normalizeHash "log.blockHash" log.blockHash = .ok b.hash
  transactionHash : normalizeHash "log.transactionHash" log.transactionHash = .ok tx.hash
  transactionIndex : parseU32 "log.transactionIndex" log.transactionIndex = .ok tx.transactionIndex

/-- The receipt and its logs refer to the block and to the transaction. -/
structure ReceiptOf (b : BlockReference) (tx : CanonicalTransaction) (receipt : RpcReceipt) :
    Prop where
  transactionHash : normalizeHash "receipt.transactionHash" receipt.transactionHash = .ok tx.hash
  blockNumber : parseU64 "receipt.blockNumber" receipt.blockNumber = .ok b.number
  blockHash : normalizeHash "receipt.blockHash" receipt.blockHash = .ok b.hash
  transactionIndex : parseU32 "receipt.transactionIndex" receipt.transactionIndex =
    .ok tx.transactionIndex
  logs : ∀ log ∈ receipt.logs, LogOf b tx log

theorem normalizeLog_refers {b : BlockReference} {tx : CanonicalTransaction} {log : RpcLog}
    {row : CanonicalLog} (h : normalizeLog b tx.hash tx.transactionIndex log = .ok row) :
    LogOf b tx log ∧ row.txHash = tx.hash ∧ row.transactionIndex = tx.transactionIndex := by
  obtain ⟨_, _, h⟩ := bind_ok h
  obtain ⟨blockNumber, hnumber, h⟩ := bind_ok h
  obtain ⟨_, hnumbers, h⟩ := bind_ok h
  obtain ⟨blockHash, hblock, h⟩ := bind_ok h
  obtain ⟨_, hblocks, h⟩ := bind_ok h
  obtain ⟨txHash, htx, h⟩ := bind_ok h
  obtain ⟨_, htxs, h⟩ := bind_ok h
  obtain ⟨index, hindex, h⟩ := bind_ok h
  obtain ⟨_, hindexes, h⟩ := bind_ok h
  obtain ⟨_, _, h⟩ := bind_ok h
  obtain ⟨_, _, h⟩ := bind_ok h
  obtain ⟨_, _, h⟩ := bind_ok h
  obtain ⟨_, _, h⟩ := bind_ok h
  obtain rfl := Except.ok.inj h
  exact ⟨⟨ensure_ok hnumbers ▸ hnumber, ensure_ok hblocks ▸ hblock, ensure_ok htxs ▸ htx,
    ensure_ok hindexes ▸ hindex⟩, rfl, rfl⟩

theorem validateBlockReference_ok {b : BlockReference} {index : Nat} {tx : RpcTransaction}
    {receipt : RpcReceipt} {u : Unit} (h : validateBlockReference b index tx receipt = .ok u) :
    parseU64 "receipt.blockNumber" receipt.blockNumber = .ok b.number ∧
      normalizeHash "receipt.blockHash" receipt.blockHash = .ok b.hash ∧
      parseU32 "receipt.transactionIndex" receipt.transactionIndex = .ok index := by
  obtain ⟨_, _, h⟩ := bind_ok h
  obtain ⟨_, _, h⟩ := bind_ok h
  obtain ⟨_, _, h⟩ := bind_ok h
  obtain ⟨_, _, h⟩ := bind_ok h
  obtain ⟨_, _, h⟩ := bind_ok h
  obtain ⟨_, _, h⟩ := bind_ok h
  obtain ⟨blockHash, hhash, h⟩ := bind_ok h
  obtain ⟨blockNumber, hnumber, h⟩ := bind_ok h
  obtain ⟨receiptIndex, hindex, h⟩ := bind_ok h
  obtain ⟨_, hhashes, _, hnumbers, _, hindexes⟩ := ensure_ok h
  exact ⟨hnumbers ▸ hnumber, hhashes ▸ hhash, hindexes ▸ hindex⟩

/-- How a transaction of the block is backed by its receipt. -/
structure Backed (b : BlockReference) (e : Entry) : Prop where
  hash : normalizeHash "transaction.hash" e.rpc.hash = .ok e.row.hash
  receipt : ReceiptOf b e.row e.receipt
  logs : e.receipt.logs.mapM (normalizeLog b e.row.hash e.row.transactionIndex) = .ok e.logs
  refers : ∀ log ∈ e.logs, log.txHash = e.row.hash ∧ log.transactionIndex = e.row.transactionIndex
  destination : e.row.toAddress = "" ∨ e.row.contractAddress = ""
  gas : e.row.gasUsed ≤ e.row.gasLimit

theorem Entry.Holds.backed {b : BlockReference} {e : Entry} (h : e.Holds b)
    (hash : normalizeHash "receipt.transactionHash" e.receipt.transactionHash = .ok e.row.hash) :
    Backed b e := by
  obtain ⟨hnumber, hblock, hindex⟩ := validateBlockReference_ok h.reference
  refine ⟨h.hash, ⟨hash, hnumber, hblock, hindex, fun log hlog => ?_⟩, h.logs, fun log hlog => ?_,
    h.destination, h.gas⟩
  · obtain ⟨row, hrow⟩ := ok_of_mapM h.logs log hlog
    exact (normalizeLog_refers hrow).1
  · obtain ⟨rpc, _, hrow⟩ := mem_of_mapM h.logs log hlog
    exact (normalizeLog_refers hrow).2

/-- The receipts and the transactions of a block in one-to-one correspondence. -/
structure Matched (rpc : RpcBlock) (receipts : List RpcReceipt) (block : CanonicalBlock)
    (entries : List Entry) : Prop where
  transactions : entries.map Entry.rpc = rpc.transactions
  receipts : (entries.map Entry.receipt).Perm receipts
  rows : entries.map Entry.row = block.transactions
  hashes : (block.transactions.map CanonicalTransaction.hash).Nodup
  logs : block.logs.Perm (entries.flatMap Entry.logs)
  backed : ∀ e ∈ entries, Backed ⟨block.number, block.hash⟩ e

theorem normalizeBlock_matched {rpc : RpcBlock} {receipts : List RpcReceipt} {block : CanonicalBlock}
    (h : normalizeBlock rpc receipts = .ok block) : ∃ entries, Matched rpc receipts block entries ∧
      ∀ e ∈ entries, e.Holds ⟨block.number, block.hash⟩ := by
  obtain ⟨_, _, h⟩ := bind_ok h
  obtain ⟨number, _, h⟩ := bind_ok h
  obtain ⟨_, _, h⟩ := bind_ok h
  obtain ⟨hash, _, h⟩ := bind_ok h
  obtain ⟨_, _, h⟩ := bind_ok h
  obtain ⟨_, _, h⟩ := bind_ok h
  obtain ⟨_, _, h⟩ := bind_ok h
  obtain ⟨byHash, hreceipts, h⟩ := bind_ok h
  obtain ⟨_, _, h⟩ := bind_ok h
  obtain ⟨final, hfinal, h⟩ := bind_ok h
  obtain ⟨_, hempty, h⟩ := bind_ok h
  obtain ⟨_, _, h⟩ := bind_ok h
  obtain rfl := Except.ok.inj h
  rw [receiptsByHash_eq, insertAll_ok Keyed.nil] at hreceipts
  obtain ⟨added, rfl, hvalues, hkeys, hkeyed⟩ := hreceipts
  rw [List.append_nil] at hkeyed hfinal
  obtain ⟨entries, htxs, hall, hrows, hlogs, hperm⟩ := normalizeTransactions_entries hkeyed hfinal
  rw [ensure_ok hempty, List.append_nil] at hperm
  have hkey : ∀ e ∈ entries, normalizeHash "receipt.transactionHash" e.receipt.transactionHash =
      .ok e.row.hash := fun e he =>
    hkeys e.keyed (hperm.mem_iff.mpr (List.mem_map_of_mem he))
  refine ⟨entries, ⟨htxs, ?_, by rw [hrows]; rfl, ?_, ?_,
    fun e he => (hall e he).backed (hkey e he)⟩, hall⟩
  · have hsnd := (hperm.map Prod.snd).symm
    rw [hvalues, List.map_map] at hsnd
    exact hsnd.trans receipts.reverse_perm
  · have hfst := (hkeyed.perm hperm)
    show (final.transactions.map CanonicalTransaction.hash).Nodup
    rw [hrows, List.nil_append, List.map_map]
    unfold Keyed at hfst
    rwa [List.map_map] at hfst
  · rw [List.nil_append] at hlogs
    exact hlogs ▸ List.perm_insertionSort _ final.logs

/-- The node may answer with the receipts in any order. -/
theorem normalizeBlock_perm {rpc : RpcBlock} {receipts other : List RpcReceipt}
    {block : CanonicalBlock} (hp : receipts.Perm other) (h : normalizeBlock rpc receipts = .ok block) :
    normalizeBlock rpc other = .ok block := by
  obtain ⟨numberText, hnumberText, h⟩ := bind_ok h
  obtain ⟨number, hnumber, h⟩ := bind_ok h
  obtain ⟨hashText, hhashText, h⟩ := bind_ok h
  obtain ⟨hash, hhash, h⟩ := bind_ok h
  obtain ⟨parent, hparent, h⟩ := bind_ok h
  obtain ⟨timestamp, htimestamp, h⟩ := bind_ok h
  obtain ⟨_, hms, h⟩ := bind_ok h
  obtain ⟨byHash, hreceipts, h⟩ := bind_ok h
  obtain ⟨_, hcount, h⟩ := bind_ok h
  obtain ⟨final, hfinal, h⟩ := bind_ok h
  obtain ⟨_, hempty, h⟩ := bind_ok h
  obtain ⟨_, hlogs, h⟩ := bind_ok h
  have hkeyed : Keyed byHash := ((insertAll_ok Keyed.nil).mp hreceipts).choose_spec.2.2.2
  obtain ⟨byHash', hreceipts', hmaps⟩ := insertAll_perm hp hreceipts
  obtain ⟨left, hfinal', hleft⟩ := normalizeTransactions_perm hkeyed hmaps hfinal
  rw [ensure_ok hempty] at hleft
  unfold normalizeBlock
  rw [hnumberText, ok_bind, hnumber, ok_bind, hhashText, ok_bind, hhash, ok_bind, hparent, ok_bind,
    htimestamp, ok_bind, hms, ok_bind, receiptsByHash_eq, hreceipts', ok_bind,
    ensure_eq (hmaps.length_eq ▸ ensure_ok hcount), ok_bind, hfinal', ok_bind,
    ensure_eq hleft.symm.eq_nil, ok_bind, hlogs, ok_bind]
  exact h

/-- A block is normalized only when its receipts match its transactions one to one. Whether that
succeeds, and with which block, does not depend on their order. -/
theorem receipts_matched (rpc : RpcBlock) (receipts : List RpcReceipt) :
    (∀ block, normalizeBlock rpc receipts = .ok block →
      Normalized block ∧ ∃ entries, Matched rpc receipts block entries) ∧
    ∀ other, receipts.Perm other →
      (normalizeBlock rpc other).toOption = (normalizeBlock rpc receipts).toOption := by
  refine ⟨fun block h => ?_, fun other hp => ?_⟩
  · obtain ⟨entries, hmatched, _⟩ := normalizeBlock_matched h
    exact ⟨normalizeBlock_ok h, entries, hmatched⟩
  · cases h : normalizeBlock rpc receipts with
    | ok block => rw [normalizeBlock_perm hp h]
    | error e =>
      cases h' : normalizeBlock rpc other with
      | ok block => rw [normalizeBlock_perm hp.symm h'] at h; cases h
      | error e' => rfl

namespace Sample

def hash (c : Char) : String := String.ofList ('0' :: 'x' :: List.replicate 64 c)
def address (c : Char) : String := String.ofList ('0' :: 'x' :: List.replicate 40 c)

def transaction (c : Char) (index : String) : RpcTransaction :=
  ⟨hash c, some (hash 'b'), some "0x10", some index, address '1', some (address '2'), "0x0", none,
    "0x5", "0x", "0x5208", some "0x3"⟩

def log (c : Char) (index logIndex : String) : RpcLog :=
  ⟨address '3', [hash '4'], "0x", "0x10", hash 'b', hash c, index, logIndex, none⟩

def receipt (c : Char) (index logIndex : String) : RpcReceipt :=
  ⟨hash c, index, hash 'b', "0x10", address '1', some (address '2'), none, some "0x1", none,
    "0x5208", none, [log c index logIndex]⟩

def block : RpcBlock :=
  ⟨some "0x10", some (hash 'b'), hash 'a', "0x65", [transaction 'c' "0x0", transaction 'd' "0x1"]⟩

/-- The second receipt comes first and spells its hash in upper case. -/
def receipts : List RpcReceipt := [receipt 'D' "0x1" "0x1", receipt 'c' "0x0" "0x0"]

theorem accepted : (normalizeBlock block receipts).toOption.isSome := by decide +kernel

end Sample

theorem sample_receipts_matched :
    (∃ result entries, Matched Sample.block Sample.receipts result entries) ∧
      (normalizeBlock Sample.block Sample.receipts.reverse).toOption =
        (normalizeBlock Sample.block Sample.receipts).toOption := by
  obtain ⟨hmatched, horder⟩ := receipts_matched Sample.block Sample.receipts
  exact ⟨⟨_, (hmatched _ (ok_get Sample.accepted)).2⟩,
    horder _ Sample.receipts.reverse_perm.symm⟩

end AmlReal.Bsc.BlockMatching
