import Mathlib.Data.Option.Basic
import Mathlib.Logic.Equiv.Basic
import AmlReal.Ethereum.TransferIds

/-! # The relationships of a block

`extract_block` as a whole: its relationships are the transfers of the block,
one row for each, under distinct ids; any order of the same receipts and traces
gives the same rows; and the events of a transaction are decoded from its own. -/

namespace AmlReal.Ethereum.BlockTransfers
open AmlReal.Foundations AmlReal.Foundations.Checks AmlReal.Foundations.EntryList
open AmlReal.Ethereum.Movements AmlReal.Ethereum.Semantic AmlReal.Ethereum.AbiLogs
open AmlReal.Ethereum.StandardLogs
open AmlReal.Ethereum.ExtractedTransfers (networkFromStr_chars)
open AmlReal.Ethereum.BlockExtraction AmlReal.Ethereum.BlockSources AmlReal.Ethereum.TransferIds

/-! ## The loop over the transactions -/

/-- A transaction with its receipt and what the extraction found in them. -/
structure Part where
  tx : Transaction
  receipt : TransactionReceipt
  transfers : Transfers

def Part.keyed (p : Part) : B256 × TransactionReceipt := (p.tx.txHash, p.receipt)

section
variable {d : Digests} {config : AppConfig} {c : BlockContext} {registry : SemanticDecoderRegistry}
  {traceOf : B256 → Option TransactionTrace}

/-- What the semantic decoder makes of the part. -/
def Part.events (d : Digests) (config : AppConfig) (c : BlockContext)
    (registry : SemanticDecoderRegistry) (p : Part) : List SemanticAmlEventRow :=
  (decodeTransaction d registry (semanticTransaction config c p.tx p.receipt p.transfers)).events

/-- The transfers are those of the transaction. -/
def Part.Extracted (c : BlockContext) (traceOf : B256 → Option TransactionTrace) (p : Part) : Prop :=
  extractTransfers c (inputOf p.tx p.receipt) (traceOf p.tx.txHash) = .ok p.transfers

theorem extractTransaction_ok {acc acc' : Extraction} {tx : Transaction}
    (h : extractTransaction d config c registry traceOf acc tx = .ok acc') :
    ∃ p : Part, p.tx = tx ∧ get acc.receiptsByHash tx.txHash = some p.receipt ∧
      p.Extracted c traceOf ∧ acc' = acc.add d config c registry tx p.receipt
        (tx.transactionIndex.getD 0) p.transfers := by
  unfold extractTransaction at h
  obtain ⟨receipt, hreceipt, h⟩ := bind_ok h
  obtain ⟨_, _, h⟩ := bind_ok h
  obtain ⟨transactionIndex, hindex, h⟩ := bind_ok h
  obtain ⟨transfers, htransfers, h⟩ := bind_ok h
  obtain rfl := Except.ok.inj h
  rw [(toU32_ok hindex).1] at htransfers ⊢
  exact ⟨⟨tx, receipt, transfers⟩, rfl, context_ok hreceipt, htransfers, rfl⟩

/-- Every transaction takes its receipt out of the map. -/
theorem extractTransactions_ok {txs : List Transaction} {acc final : Extraction}
    (hkeyed : Keyed acc.receiptsByHash)
    (h : txs.foldlM (extractTransaction d config c registry traceOf) acc = .ok final) :
    ∃ parts : List Part, parts.map Part.tx = txs ∧ (∀ p ∈ parts, p.Extracted c traceOf) ∧
      acc.receiptsByHash.Perm (parts.map Part.keyed ++ final.receiptsByHash) ∧
      final.relationships = acc.relationships ++ parts.flatMap (fun p => p.transfers.relationships) ∧
      final.semanticEvents = acc.semanticEvents ++ parts.flatMap (Part.events d config c registry) := by
  induction txs generalizing acc with
  | nil =>
    obtain rfl := Except.ok.inj h
    exact ⟨[], rfl, by simp, List.Perm.refl _, by simp, by simp⟩
  | cons tx rest ih =>
    rw [List.foldlM_cons] at h
    obtain ⟨mid, hone, hrest⟩ := bind_ok h
    obtain ⟨p, rfl, hreceipt, hextracted, rfl⟩ := extractTransaction_ok hone
    obtain ⟨parts, rfl, hparts, hperm, hrelationships, hevents⟩ := ih (hkeyed.remove p.tx.txHash) hrest
    refine ⟨p :: parts, rfl, List.forall_mem_cons.mpr ⟨hextracted, hparts⟩, ?_, ?_, ?_⟩
    · exact (perm_remove hkeyed hreceipt).trans (hperm.cons _)
    · rw [hrelationships, List.flatMap_cons, ← List.append_assoc]
      rfl
    · rw [hevents, List.flatMap_cons, ← List.append_assoc]
      rfl

/-! ## Any order of the receipts -/

theorem extractTransactions_perm {txs : List Transaction} {acc final : Extraction}
    {map : List (B256 × TransactionReceipt)} (hkeyed : Keyed acc.receiptsByHash)
    (hp : acc.receiptsByHash.Perm map)
    (h : txs.foldlM (extractTransaction d config c registry traceOf) acc = .ok final) :
    ∃ rest, txs.foldlM (extractTransaction d config c registry traceOf)
        { acc with receiptsByHash := map } = .ok { final with receiptsByHash := rest } ∧
      final.receiptsByHash.Perm rest := by
  induction txs generalizing acc map with
  | nil =>
    obtain rfl := Except.ok.inj h
    exact ⟨map, rfl, hp⟩
  | cons tx txs ih =>
    rw [List.foldlM_cons] at h
    obtain ⟨mid, hone, hrest⟩ := bind_ok h
    unfold extractTransaction at hone
    obtain ⟨receipt, hreceipt, hone⟩ := bind_ok hone
    obtain ⟨_, hvalid, hone⟩ := bind_ok hone
    obtain ⟨transactionIndex, hindex, hone⟩ := bind_ok hone
    obtain ⟨transfers, htransfers, hone⟩ := bind_ok hone
    obtain rfl := Except.ok.inj hone
    have hfound : get map tx.txHash = get acc.receiptsByHash tx.txHash :=
      (hkeyed.lookup_perm hp tx.txHash).symm
    have hone' : extractTransaction d config c registry traceOf { acc with receiptsByHash := map } tx =
        .ok { acc.add d config c registry tx receipt transactionIndex transfers with
          receiptsByHash := remove map tx.txHash } := by
      unfold extractTransaction
      rw [hfound, hreceipt, ok_bind, hvalid, ok_bind, hindex, ok_bind, htransfers]
      rfl
    rw [List.foldlM_cons, hone', ok_bind]
    exact ih (hkeyed.remove tx.txHash) (hp.filter _) hrest

theorem receiptsByHash_ok {block : Block} {txs : List Transaction}
    {receipts : List TransactionReceipt} {map : List (B256 × TransactionReceipt)}
    (h : receiptsByHash block txs receipts = .ok map) :
    map = receipts.map (fun r => (r.transactionHash, r)) ∧ Keyed map := by
  unfold receiptsByHash at h
  obtain ⟨_, _, h⟩ := bind_ok h
  obtain ⟨_, hlength, h⟩ := bind_ok h
  obtain rfl := Except.ok.inj h
  obtain ⟨heq, hkeyed⟩ := collect_of_length (ensure_ok hlength)
  exact ⟨heq, heq ▸ hkeyed⟩

theorem receiptsByHash_perm {block : Block} {txs : List Transaction}
    {receipts receipts' : List TransactionReceipt} (hp : receipts.Perm receipts')
    {map : List (B256 × TransactionReceipt)} (h : receiptsByHash block txs receipts = .ok map) :
    ∃ map', receiptsByHash block txs receipts' = .ok map' ∧ map.Perm map' := by
  unfold receiptsByHash at h
  obtain ⟨_, hcount, h⟩ := bind_ok h
  obtain ⟨_, hlength, h⟩ := bind_ok h
  obtain rfl := Except.ok.inj h
  obtain ⟨hlength', hmaps, _⟩ := collect_perm hp (ensure_ok hlength)
  refine ⟨_, ?_, hmaps⟩
  unfold receiptsByHash
  dsimp only
  rw [ensure_eq (hp.length_eq ▸ ensure_ok hcount), ok_bind, ensure_eq hlength']
  rfl

theorem tracesByHash_ok {block : Block} {txs : List Transaction}
    {traces : Option (List TransactionTrace)} {map : List (B256 × TransactionTrace)}
    (h : tracesByHash block txs traces = .ok map) :
    map = (traces.getD []).map (fun t => (t.txHash, t)) ∧ Keyed map := by
  cases traces with
  | none =>
    obtain rfl := Except.ok.inj h
    exact ⟨rfl, Keyed.nil⟩
  | some traces =>
    unfold tracesByHash at h
    obtain ⟨_, hlength, h⟩ := bind_ok h
    obtain ⟨_, _, h⟩ := bind_ok h
    obtain rfl := Except.ok.inj h
    obtain ⟨heq, hkeyed⟩ := collect_of_length (ensure_ok hlength)
    exact ⟨heq, heq ▸ hkeyed⟩

theorem tracesByHash_perm {block : Block} {txs : List Transaction}
    {traces traces' : Option (List TransactionTrace)} (hp : Option.Rel List.Perm traces traces')
    {map : List (B256 × TransactionTrace)} (h : tracesByHash block txs traces = .ok map) :
    ∃ map', tracesByHash block txs traces' = .ok map' ∧ get map = get map' := by
  cases hp with
  | none => exact ⟨map, h, rfl⟩
  | some hp =>
    unfold tracesByHash at h
    obtain ⟨_, hlength, h⟩ := bind_ok h
    obtain ⟨_, hcount, h⟩ := bind_ok h
    obtain rfl := Except.ok.inj h
    obtain ⟨hlength', hmaps, hkeyed⟩ := collect_perm hp (ensure_ok hlength)
    refine ⟨_, ?_, funext fun hash => hkeyed.lookup_perm hmaps hash⟩
    unfold tracesByHash
    dsimp only
    rw [ensure_eq hlength', ok_bind, ensure_eq (hp.length_eq ▸ ensure_ok hcount)]
    rfl

end

section
variable {d : Digests} {config : AppConfig} {block : Block} {receipts : List TransactionReceipt}
  {traces : Option (List TransactionTrace)} {registry : SemanticDecoderRegistry} {indexedAt : Nat}
  {ev : ExtractedBlock}

theorem extractBlock_perm {receipts' : List TransactionReceipt}
    {traces' : Option (List TransactionTrace)} (hreceipts : receipts.Perm receipts')
    (htraces : Option.Rel List.Perm traces traces')
    (h : extractBlock d config block receipts traces registry indexedAt = .ok ev) :
    extractBlock d config block receipts' traces' registry indexedAt = .ok ev := by
  unfold extractBlock at h
  obtain ⟨network, hnetwork, h⟩ := bind_ok h
  obtain ⟨_, htimestamp, h⟩ := bind_ok h
  obtain ⟨txs, htxs, h⟩ := bind_ok h
  obtain ⟨map, hmap, h⟩ := bind_ok h
  obtain ⟨traceMap, htraceMap, h⟩ := bind_ok h
  obtain ⟨final, hfinal, h⟩ := bind_ok h
  obtain ⟨_, hempty, h⟩ := bind_ok h
  obtain ⟨map', hmap', hmaps⟩ := receiptsByHash_perm hreceipts hmap
  obtain ⟨traceMap', htraceMap', hget⟩ := tracesByHash_perm htraces htraceMap
  have hkeyed : Keyed (Extraction.start map).receiptsByHash := (receiptsByHash_ok hmap).2
  obtain ⟨rest, hfinal', hrest⟩ := extractTransactions_perm hkeyed hmaps hfinal
  rw [List.isEmpty_iff.mp (ensure_ok hempty)] at hrest
  have hpresent : traces.isSome = traces'.isSome := by cases htraces <;> rfl
  unfold extractBlock
  rw [hnetwork, ok_bind, htimestamp, ok_bind, htxs, ok_bind, hmap', ok_bind, htraceMap', ok_bind,
    ← hget]
  show (txs.foldlM _ { Extraction.start map with receiptsByHash := map' } >>= fun _ => _) = _
  rw [hfinal', ok_bind, ensure_eq (List.isEmpty_iff.mpr hrest.symm.eq_nil), ok_bind, ← hpresent]
  exact h

/-! ## What a successful extraction says -/

/-- The parts of the block, as an extraction that succeeded leaves them. -/
structure Extracted (d : Digests) (config : AppConfig) (block : Block)
    (receipts : List TransactionReceipt) (traces : Option (List TransactionTrace))
    (registry : SemanticDecoderRegistry) (ev : ExtractedBlock) (c : BlockContext)
    (parts : List Part) : Prop where
  network : networkFromStr config.ethNetworkId = some c.network
  context : c = blockContext d c.network block
  transactions : block.transactions = some (parts.map Part.tx)
  receipts : (receipts.map fun r => (r.transactionHash, r)).Perm (parts.map Part.keyed)
  keyed : Keyed (parts.map Part.keyed)
  traced : ∃ traceOf : B256 → Option TransactionTrace,
    (∀ hash t, traceOf hash = some t ↔ t ∈ traces.getD [] ∧ t.txHash = hash) ∧
      ∀ p ∈ parts, p.Extracted c traceOf
  relationships : ev.relationships = parts.flatMap (fun p => p.transfers.relationships) ++
    (block.withdrawals.getD []).map (withdrawalRow c)
  events : ev.semanticEvents = parts.flatMap (Part.events d config c registry)

theorem withdrawalRelationship_ok {c : BlockContext} {withdrawal : Withdrawal}
    {r : AddressRelationshipRow} (h : withdrawalRelationship c withdrawal = .ok r) :
    r = withdrawalRow c withdrawal := by
  unfold withdrawalRelationship at h
  obtain ⟨_, _, h⟩ := bind_ok h
  obtain ⟨_, _, h⟩ := bind_ok h
  exact (Except.ok.inj h).symm

theorem extractBlock_ok (h : extractBlock d config block receipts traces registry indexedAt = .ok ev) :
    ∃ c parts, Extracted d config block receipts traces registry ev c parts := by
  unfold extractBlock at h
  obtain ⟨network, hnetwork, h⟩ := bind_ok h
  obtain ⟨_, _, h⟩ := bind_ok h
  obtain ⟨txs, htxs, h⟩ := bind_ok h
  obtain ⟨map, hmap, h⟩ := bind_ok h
  obtain ⟨traceMap, htraceMap, h⟩ := bind_ok h
  obtain ⟨final, hfinal, h⟩ := bind_ok h
  obtain ⟨_, hempty, h⟩ := bind_ok h
  obtain ⟨withdrawals, hwithdrawals, h⟩ := bind_ok h
  obtain ⟨_, _, h⟩ := bind_ok h
  obtain rfl := Except.ok.inj h
  obtain ⟨hentries, hkeyed⟩ := receiptsByHash_ok hmap
  obtain ⟨htraceEntries, htraceKeyed⟩ := tracesByHash_ok htraceMap
  have hstart : Keyed (Extraction.start map).receiptsByHash := hkeyed
  obtain ⟨parts, rfl, hparts, hperm, hrelationships, hevents⟩ :=
    extractTransactions_ok hstart hfinal
  rw [List.isEmpty_iff.mp (ensure_ok hempty), List.append_nil] at hperm
  refine ⟨blockContext d network block, parts, context_ok hnetwork, rfl, context_ok htxs,
    hentries ▸ hperm, hkeyed.perm hperm, ⟨get traceMap, ?_, hparts⟩, ?_, hevents⟩
  · intro hash t
    rw [show get traceMap hash = traceMap.lookup hash from rfl, htraceKeyed.lookup_eq_some,
      htraceEntries, List.mem_map]
    constructor
    · rintro ⟨t', ht', he⟩
      obtain ⟨rfl, rfl⟩ := Prod.mk.inj he
      exact ⟨ht', rfl⟩
    · rintro ⟨ht, rfl⟩
      exact ⟨t, ht, rfl⟩
  · show final.relationships ++ withdrawals = _
    rw [hrelationships, mapM_eq_map (fun _ _ hw => withdrawalRelationship_ok hw) hwithdrawals]
    rfl

variable {c : BlockContext} {parts : List Part}

theorem Extracted.receipt (h : Extracted d config block receipts traces registry ev c parts)
    {p : Part} (hp : p ∈ parts) : p.receipt ∈ receipts ∧ p.receipt.transactionHash = p.tx.txHash := by
  obtain ⟨receipt, hreceipt, he⟩ := List.mem_map.mp (h.receipts.mem_iff.mpr (List.mem_map_of_mem hp))
  obtain ⟨hhash, rfl⟩ := Prod.mk.inj he
  exact ⟨hreceipt, hhash⟩

/-- A transaction of the block and a receipt of its hash are those of one part. -/
theorem Extracted.part (h : Extracted d config block receipts traces registry ev c parts)
    {tx : Transaction} (htx : tx ∈ block.transactions.getD []) {receipt : TransactionReceipt}
    (hreceipt : receipt ∈ receipts) (hhash : receipt.transactionHash = tx.txHash) :
    ∃ transfers, (⟨tx, receipt, transfers⟩ : Part) ∈ parts := by
  rw [h.transactions] at htx
  obtain ⟨⟨_, found, transfers⟩, hp, rfl⟩ := List.mem_map.mp htx
  have hentry := h.receipts.mem_iff.mp (List.mem_map_of_mem hreceipt)
  rw [hhash] at hentry
  have heq : receipt = found := h.keyed.unique hentry (List.mem_map_of_mem (f := Part.keyed) hp)
  exact ⟨transfers, heq ▸ hp⟩

theorem Extracted.tx_of_hash (h : Extracted d config block receipts traces registry ev c parts)
    {tx tx' : Transaction} (htx : tx ∈ block.transactions.getD [])
    (htx' : tx' ∈ block.transactions.getD []) (he : tx.txHash = tx'.txHash) : tx = tx' := by
  rw [h.transactions] at htx htx'
  obtain ⟨p, hp, rfl⟩ := List.mem_map.mp htx
  obtain ⟨p', hp', rfl⟩ := List.mem_map.mp htx'
  have hhashes : (parts.map fun p => p.tx.txHash).Nodup := by
    have hkeyed := h.keyed
    rwa [Keyed, List.map_map] at hkeyed
  rw [List.inj_on_of_nodup_map hhashes hp hp' he]

theorem mem_relationships_iff (htopics : Distinct (transferTopics d))
    (h : Extracted d config block receipts traces registry ev c parts) {r : AddressRelationshipRow} :
    r ∈ ev.relationships ↔ ∃ source, Yields c block receipts traces source r := by
  have htopics : Distinct c.topics := by
    rw [h.context]
    exact htopics
  obtain ⟨traceOf, htraceOf, hextracted⟩ := h.traced
  rw [h.relationships, List.mem_append, List.mem_flatMap, List.mem_map]
  constructor
  · rintro (⟨p, hp, hr⟩ | ⟨withdrawal, hwithdrawal, rfl⟩)
    · obtain ⟨hreceipt, hhash⟩ := h.receipt hp
      have htx : p.tx ∈ block.transactions.getD [] := by
        rw [h.transactions]
        exact List.mem_map_of_mem hp
      rcases (mem_relationships htopics (hextracted p hp)).mp hr with
        hnative | ⟨position, movement, htoken⟩ | ⟨path, hstatus, t, ht, hframe⟩
      · exact ⟨.transaction p.tx, htx, p.receipt, hreceipt, hhash, hnative⟩
      · exact ⟨.movement p.tx position movement, htx, p.receipt, hreceipt, hhash, htoken⟩
      · obtain ⟨hmem, htrace⟩ := (htraceOf p.tx.txHash t).mp ht
        exact ⟨.frame p.tx path, htx, p.receipt, hreceipt, hhash, t, hmem, htrace, hstatus, t, rfl,
          hframe⟩
    · exact ⟨.withdrawal withdrawal, hwithdrawal, rfl⟩
  · rintro ⟨source, hyields⟩
    cases source with
    | transaction tx =>
      obtain ⟨htx, receipt, hreceipt, hhash, hnative⟩ := hyields
      obtain ⟨transfers, hp⟩ := h.part htx hreceipt hhash
      exact Or.inl ⟨_, hp, (mem_relationships htopics (hextracted _ hp)).mpr (Or.inl hnative)⟩
    | movement tx position movement =>
      obtain ⟨htx, receipt, hreceipt, hhash, htoken⟩ := hyields
      obtain ⟨transfers, hp⟩ := h.part htx hreceipt hhash
      exact Or.inl ⟨_, hp, (mem_relationships htopics (hextracted _ hp)).mpr
        (Or.inr (Or.inl ⟨position, movement, htoken⟩))⟩
    | frame tx path =>
      obtain ⟨htx, receipt, hreceipt, hhash, trace, htrace, htraceHash, hstatus, t, ht, hframe⟩ :=
        hyields
      obtain ⟨transfers, hp⟩ := h.part htx hreceipt hhash
      obtain rfl := Option.some.inj ht
      exact Or.inl ⟨_, hp, (mem_relationships htopics (hextracted _ hp)).mpr (Or.inr (Or.inr
        ⟨path, hstatus, trace, (htraceOf _ _).mpr ⟨htrace, htraceHash⟩, hframe⟩))⟩
    | withdrawal withdrawal => exact Or.inr ⟨withdrawal, hyields.1, hyields.2.symm⟩

theorem yields_identified (h : Extracted d config block receipts traces registry ev c parts)
    {source : Source} {r : AddressRelationshipRow}
    (hyields : Yields c block receipts traces source r) : Identified c r := by
  have hnetwork := networkFromStr_chars h.network
  cases source with
  | transaction tx =>
    obtain ⟨_, _, _, _, hnative⟩ := hyields
    exact identified_native hnetwork hnative
  | movement tx position movement =>
    obtain ⟨_, _, _, _, htoken⟩ := hyields
    exact identified_token hnetwork htoken
  | frame tx path =>
    obtain ⟨_, _, _, _, _, _, _, _, _, _, _, _, hframe⟩ := hyields
    exact identified_frame hnetwork hframe
  | withdrawal withdrawal =>
    obtain ⟨_, rfl⟩ := hyields
    exact identified_withdrawal hnetwork withdrawal

/-! ## Distinct ids -/

/-- The logs of every receipt have indices of their own. -/
def LogsDistinct (receipts : List TransactionReceipt) : Prop :=
  ∀ receipt ∈ receipts, (receipt.logs.zipIdx.map logIndexAt).Nodup

/-- No two withdrawals of the block have one index and one address. -/
def WithdrawalsDistinct (block : Block) : Prop :=
  ((block.withdrawals.getD []).map fun w => (w.index, w.address)).Nodup

theorem relationships_apart (h : Extracted d config block receipts traces registry ev c parts)
    (hlogs : LogsDistinct receipts) (hwithdrawals : WithdrawalsDistinct block) :
    ev.relationships.Pairwise Apart := by
  obtain ⟨traceOf, _, hextracted⟩ := h.traced
  rw [h.relationships]
  refine List.pairwise_append.mpr ⟨List.pairwise_flatMap.mpr ⟨fun p hp => ?_, ?_⟩, ?_, ?_⟩
  · exact transfers_apart (hextracted p hp) (hlogs p.receipt (h.receipt hp).1)
  · have hhashes : parts.Pairwise fun p q => p.tx.txHash ≠ q.tx.txHash := by
      have hkeyed := h.keyed
      rw [Keyed, List.map_map] at hkeyed
      exact List.pairwise_map.mp hkeyed
    refine hhashes.imp_of_mem fun hp hq hne a ha b hb hsite => hne (hashText_injective ?_)
    have hown : a.txHash = _ := transfers_own (hextracted _ hp) a ha
    have hother : b.txHash = _ := transfers_own (hextracted _ hq) b hb
    exact (hown.symm.trans (congrArg Site.txHash hsite)).trans hother
  · refine List.pairwise_map.mpr ((List.pairwise_map.mp hwithdrawals).imp fun hne hsite => hne ?_)
    exact Prod.ext (congrArg Site.eventIndex hsite)
      (addressText_injective (congrArg Site.toAddress hsite))
  · intro a ha b hb hsite
    obtain ⟨p, hp, ha⟩ := List.mem_flatMap.mp ha
    obtain ⟨withdrawal, _, rfl⟩ := List.mem_map.mp hb
    have hown : a.txHash = _ := transfers_own (hextracted p hp) a ha
    exact hashText_ne_empty p.tx.txHash (hown.symm.trans (congrArg Site.txHash hsite))

theorem ids_nodup (hsha : Function.Injective d.stableHash) (htopics : Distinct (transferTopics d))
    (h : Extracted d config block receipts traces registry ev c parts)
    (hlogs : LogsDistinct receipts) (hwithdrawals : WithdrawalsDistinct block) :
    (ev.relationships.map AddressRelationshipRow.relationshipId).Nodup := by
  have hsha : Function.Injective c.sha256 := by
    rw [h.context]
    exact hsha
  refine List.pairwise_map.mpr ((relationships_apart h hlogs hwithdrawals).imp_of_mem
    fun ha hb hapart hid => hapart ?_)
  obtain ⟨_, ha⟩ := (mem_relationships_iff htopics h).mp ha
  obtain ⟨_, hb⟩ := (mem_relationships_iff htopics h).mp hb
  exact site_of_id hsha (yields_identified h ha) (yields_identified h hb) hid

/-! ## One row for each source -/

theorem reaches_unique {calls : List CallFrame} {path : List Nat} {frame frame' : CallFrame}
    (h : Reaches calls path frame) (h' : Reaches calls path frame') : frame = frame' := by
  induction h with
  | here hcall hlive =>
    cases h' with
    | here hcall' _ => exact Option.some.inj (hcall.symm.trans hcall')
    | child _ _ hinner => cases hinner
  | child hcall hlive hinner ih =>
    cases h' with
    | here _ _ => cases hinner
    | child hcall' _ hinner' =>
      obtain rfl := Option.some.inj (hcall.symm.trans hcall')
      exact ih hinner'

theorem Extracted.receipt_unique (h : Extracted d config block receipts traces registry ev c parts)
    {tx : Transaction} (htx : tx ∈ block.transactions.getD []) {receipt receipt' : TransactionReceipt}
    (hreceipt : receipt ∈ receipts) (hhash : receipt.transactionHash = tx.txHash)
    (hreceipt' : receipt' ∈ receipts) (hhash' : receipt'.transactionHash = tx.txHash) :
    receipt = receipt' := by
  obtain ⟨_, hp⟩ := h.part htx hreceipt hhash
  obtain ⟨_, hp'⟩ := h.part htx hreceipt' hhash'
  exact h.keyed.unique (k := tx.txHash) (List.mem_map_of_mem (f := Part.keyed) hp)
    (List.mem_map_of_mem (f := Part.keyed) hp')

theorem Extracted.trace_unique (h : Extracted d config block receipts traces registry ev c parts)
    {t t' : TransactionTrace} (ht : t ∈ traces.getD []) (ht' : t' ∈ traces.getD [])
    (he : t.txHash = t'.txHash) : t = t' := by
  obtain ⟨traceOf, htraceOf, _⟩ := h.traced
  exact Option.some.inj (((htraceOf _ t).mpr ⟨ht, he⟩).symm.trans ((htraceOf _ t').mpr ⟨ht', rfl⟩))

/-- A source has one row. -/
theorem yields_functional (h : Extracted d config block receipts traces registry ev c parts)
    {source : Source} {r r' : AddressRelationshipRow}
    (hr : Yields c block receipts traces source r) (hr' : Yields c block receipts traces source r') :
    r = r' := by
  cases source with
  | transaction tx =>
    obtain ⟨htx, receipt, hreceipt, hhash, _, _, toAddress, hto, rfl⟩ := hr
    obtain ⟨_, receipt', hreceipt', hhash', _, _, toAddress', hto', rfl⟩ := hr'
    obtain rfl := h.receipt_unique htx hreceipt hhash hreceipt' hhash'
    rw [Option.some.inj (hto.symm.trans hto')]
  | movement tx position movement =>
    obtain ⟨htx, receipt, hreceipt, hhash, log, hlog, _, _, _, rfl⟩ := hr
    obtain ⟨_, receipt', hreceipt', hhash', log', hlog', _, _, _, rfl⟩ := hr'
    obtain rfl := h.receipt_unique htx hreceipt hhash hreceipt' hhash'
    rw [Option.some.inj (hlog.symm.trans hlog')]
  | frame tx path =>
    obtain ⟨htx, receipt, hreceipt, hhash, _, ht, htHash, _, t, he, frame, hreaches, hframe⟩ := hr
    obtain ⟨_, receipt', hreceipt', hhash', _, ht', htHash', _, t', he', frame', hreaches', hframe'⟩ :=
      hr'
    obtain rfl := Option.some.inj he
    obtain rfl := Option.some.inj he'
    obtain rfl := h.receipt_unique htx hreceipt hhash hreceipt' hhash'
    obtain rfl := h.trace_unique ht ht' (htHash.trans htHash'.symm)
    obtain rfl := reaches_unique hreaches hreaches'
    obtain ⟨typ, fromAddress, toAddress, value, error, revertReason, calls⟩ := frame
    obtain ⟨_, receiver, amount, hreceiver, hamount, _, _, rfl⟩ := hframe
    obtain ⟨_, receiver', amount', hreceiver', hamount', _, _, rfl⟩ := hframe'
    rw [Option.some.inj (hreceiver.symm.trans hreceiver'),
      Option.some.inj (hamount.symm.trans hamount')]
  | withdrawal withdrawal => exact hr.2.trans hr'.2.symm

/-- What the type of a row says about its source. -/
def typeOf : Source → String
  | .transaction _ => "native_external"
  | .movement _ _ m => movementKind m.standard m.fromAddress m.toAddress
  | .frame _ _ => "native_internal"
  | .withdrawal _ => "validator_withdrawal"

theorem yields_type {source : Source} {r : AddressRelationshipRow}
    (hr : Yields c block receipts traces source r) : r.transferType = typeOf source := by
  cases source with
  | transaction tx =>
    obtain ⟨_, _, _, _, hnative⟩ := hr
    exact (native_site hnative).2
  | movement tx position movement =>
    obtain ⟨_, _, _, _, _, _, _, _, _, rfl⟩ := hr
    rfl
  | frame tx path =>
    obtain ⟨_, _, _, _, _, _, _, _, _, _, _, _, hframe⟩ := hr
    exact (frame_site hframe).2.2
  | withdrawal withdrawal =>
    obtain ⟨_, rfl⟩ := hr
    rfl

/-- The transaction a row that is not a withdrawal belongs to. -/
theorem yields_transaction {source : Source} {r : AddressRelationshipRow}
    (hr : Yields c block receipts traces source r) :
    match source with
    | .transaction tx | .movement tx _ _ | .frame tx _ =>
      tx ∈ block.transactions.getD [] ∧ r.txHash = hashText tx.txHash
    | .withdrawal _ => True := by
  cases source with
  | transaction tx =>
    obtain ⟨htx, _, _, _, hnative⟩ := hr
    exact ⟨htx, (native_site hnative).1⟩
  | movement tx position movement =>
    obtain ⟨htx, _, _, _, _, _, _, _, _, rfl⟩ := hr
    exact ⟨htx, rfl⟩
  | frame tx path =>
    obtain ⟨htx, _, _, _, _, _, _, _, _, _, _, _, hframe⟩ := hr
    exact ⟨htx, (frame_site hframe).1⟩
  | withdrawal withdrawal => trivial

/-- Rows of one site come from one source. -/
theorem source_of_site (htopics : Distinct (transferTopics d))
    (h : Extracted d config block receipts traces registry ev c parts)
    (hlogs : LogsDistinct receipts) (hwithdrawals : WithdrawalsDistinct block)
    {source source' : Source} {r r' : AddressRelationshipRow}
    (hr : Yields c block receipts traces source r) (hr' : Yields c block receipts traces source' r')
    (hsite : siteOf r = siteOf r') : source = source' := by
  have htopics : Distinct c.topics := by
    rw [h.context]
    exact htopics
  have htype : typeOf source = typeOf source' := by
    rw [← yields_type hr, ← yields_type hr']
    exact congrArg Site.transferType hsite
  have hhash : r.txHash = r'.txHash := congrArg Site.txHash hsite
  have hof := yields_transaction hr
  have hof' := yields_transaction hr'
  have hkind := fun m : TokenMovement => movementKind_ne m.standard m.fromAddress m.toAddress
  cases source with
  | transaction tx =>
    cases source' with
    | transaction tx' =>
      rw [hof.2, hof'.2] at hhash
      rw [h.tx_of_hash hof.1 hof'.1 (hashText_injective hhash)]
    | movement tx' position' movement' => exact absurd htype.symm (hkind movement').1
    | frame tx' path' => exact absurd htype (by simp [typeOf])
    | withdrawal withdrawal' => exact absurd htype (by simp [typeOf])
  | movement tx position movement =>
    cases source' with
    | transaction tx' => exact absurd htype (hkind movement).1
    | movement tx' position' movement' =>
      rw [hof.2, hof'.2] at hhash
      obtain rfl := h.tx_of_hash hof.1 hof'.1 (hashText_injective hhash)
      obtain ⟨htx, receipt, hreceipt, hhash, log, hlog, hstandard, _, hindex, rfl⟩ := hr
      obtain ⟨_, receipt', hreceipt', hhash', log', hlog', hstandard', _, hindex', rfl⟩ := hr'
      obtain rfl := h.receipt_unique htx hreceipt hhash hreceipt' hhash'
      have hlog : receipt.logs[position]? = some log := hlog
      have hlog' : receipt.logs[position']? = some log' := hlog'
      have hitem : (log, position) = (log', position') :=
        List.inj_on_of_nodup_map (hlogs receipt hreceipt) (List.mem_zipIdx_iff_getElem?.mpr hlog)
          (List.mem_zipIdx_iff_getElem?.mpr hlog') (congrArg Site.eventIndex hsite)
      obtain ⟨rfl, rfl⟩ := Prod.mk.inj hitem
      have hmovements : ((tokenMovements c.topics log).map TokenMovement.eventSubIndex).Nodup :=
        List.pairwise_map.mpr (tokenMovements_apart c.topics log)
      rw [List.inj_on_of_nodup_map hmovements ((mem_tokenMovements htopics).mpr ⟨hstandard, hindex⟩)
        ((mem_tokenMovements htopics).mpr ⟨hstandard', hindex'⟩) (congrArg Site.eventSubIndex hsite)]
    | frame tx' path' => exact absurd htype (hkind movement).2.1
    | withdrawal withdrawal' => exact absurd htype (hkind movement).2.2
  | frame tx path =>
    cases source' with
    | transaction tx' => exact absurd htype (by simp [typeOf])
    | movement tx' position' movement' => exact absurd htype.symm (hkind movement').2.1
    | frame tx' path' =>
      rw [hof.2, hof'.2] at hhash
      rw [h.tx_of_hash hof.1 hof'.1 (hashText_injective hhash)]
      obtain ⟨_, _, _, _, _, _, _, _, _, _, _, _, hframe⟩ := hr
      obtain ⟨_, _, _, _, _, _, _, _, _, _, _, _, hframe'⟩ := hr'
      rw [← (frame_site hframe).2.1, ← (frame_site hframe').2.1]
      exact congrArg (fun site => Source.frame tx' site.traceAddress) hsite
    | withdrawal withdrawal' => exact absurd htype (by simp [typeOf])
  | withdrawal withdrawal =>
    cases source' with
    | transaction tx' => exact absurd htype (by simp [typeOf])
    | movement tx' position' movement' => exact absurd htype.symm (hkind movement').2.2
    | frame tx' path' => exact absurd htype (by simp [typeOf])
    | withdrawal withdrawal' =>
      obtain ⟨hmem, rfl⟩ := hr
      obtain ⟨hmem', rfl⟩ := hr'
      rw [List.inj_on_of_nodup_map hwithdrawals hmem hmem' (Prod.ext
        (congrArg Site.eventIndex hsite) (addressText_injective (congrArg Site.toAddress hsite)))]

/-! ## Events of their own transaction -/

/-- The movement is that of the row. -/
structure Observes (m : ObservedMovement) (r : AddressRelationshipRow) : Prop where
  logIndex : r.eventIndex = m.logIndex
  fromAddress : r.fromAddress = addressText m.fromAddress
  toAddress : r.toAddress = addressText m.toAddress
  assetId : r.assetId = m.assetId
  amount : r.amount = m.amount.toNat

/-- The event is of the transaction, and all that it was decoded from is the
transaction, its receipt and the relationships of the transaction. -/
def OwnEvent (d : Digests) (config : AppConfig) (c : BlockContext)
    (registry : SemanticDecoderRegistry) (receipts : List TransactionReceipt)
    (relationships : List AddressRelationshipRow) (tx : Transaction) (e : SemanticAmlEventRow) : Prop :=
  let own := relationships.filter fun r => r.txHash = hashText tx.txHash
  e.txHash = hashText tx.txHash ∧
    ∃ receipt ∈ receipts, receipt.transactionHash = tx.txHash ∧
      ∃ movements, (∀ m ∈ movements, ∃ r ∈ own, Observes m r) ∧
        e ∈ (decodeTransaction d registry (semanticTransaction config c tx receipt
          ⟨movements, own⟩)).events

theorem decodeLog_txHash {t : SemanticTransaction} {item : Log × Nat} {e : SemanticAmlEventRow}
    (h : decodeLog d registry t item = some e) : e.txHash = hashText t.txHash := by
  unfold decodeLog at h
  split at h
  · cases h
  · rename_i topic0 _
    rcases Option.or_eq_some_iff.mp h with hregistered | ⟨_, htopic⟩
    · unfold decodeRegistered at hregistered
      split at hregistered
      · cases hregistered
      · rcases Option.or_eq_some_iff.mp hregistered with hbridge | ⟨_, hmixer⟩
        · split at hbridge
          · unfold decodeOpBridge at hbridge
            simp only [Option.bind_eq_bind, Option.bind_eq_some_iff] at hbridge
            obtain ⟨_, _, _, _, _, _, hbridge⟩ := hbridge
            split at hbridge
            · cases hbridge
            · obtain rfl := Option.some.inj hbridge
              rfl
          · cases hbridge
        · split at hmixer
          · unfold decodeTornadoMixer at hmixer
            simp only [Option.bind_eq_bind, Option.bind_eq_some_iff] at hmixer
            obtain ⟨_, _, _, _, hmixer⟩ := hmixer
            obtain rfl := Option.some.inj hmixer
            rfl
          · cases hmixer
    · unfold decodeTopic at htopic
      split at htopic
      · obtain rfl := Option.some.inj htopic
        rfl
      · obtain ⟨_, _, rfl⟩ := Option.map_eq_some_iff.mp htopic
        rfl

/-- One part has all rows of its transaction. -/
theorem flatMap_of_key {α β κ : Type} {key : α → κ} {xs : List α} (hkeys : (xs.map key).Nodup)
    {f : α → List β} {x : α} (hx : x ∈ xs) (hf : ∀ y ∈ xs, key y ≠ key x → f y = []) :
    xs.flatMap f = f x := by
  induction xs with
  | nil => cases hx
  | cons y rest ih =>
    obtain ⟨hfresh, hrest⟩ := List.nodup_cons.mp hkeys
    rw [List.flatMap_cons]
    rcases List.mem_cons.mp hx with rfl | hx
    · have hnil : rest.flatMap f = [] := by
        refine List.flatMap_eq_nil_iff.mpr fun z hz => hf z (List.mem_cons_of_mem _ hz) fun he => ?_
        exact hfresh (he ▸ List.mem_map_of_mem hz)
      rw [hnil, List.append_nil]
    · have hne : key y ≠ key x := fun he => hfresh (he ▸ List.mem_map_of_mem hx)
      rw [hf y List.mem_cons_self hne, List.nil_append]
      exact ih hrest hx fun z hz => hf z (List.mem_cons_of_mem _ hz)

theorem Extracted.own (h : Extracted d config block receipts traces registry ev c parts) {p : Part}
    (hp : p ∈ parts) :
    ev.relationships.filter (fun r => r.txHash = hashText p.tx.txHash) = p.transfers.relationships := by
  obtain ⟨traceOf, _, hextracted⟩ := h.traced
  have hkeyed : (parts.map fun q => q.tx.txHash).Nodup := by
    have hkeyed := h.keyed
    rwa [Keyed, List.map_map] at hkeyed
  have hwithdrawals : ((block.withdrawals.getD []).map (withdrawalRow c)).filter
      (fun r => r.txHash = hashText p.tx.txHash) = [] := by
    refine List.filter_eq_nil_iff.mpr fun r hr => ?_
    obtain ⟨withdrawal, _, rfl⟩ := List.mem_map.mp hr
    intro he
    exact hashText_ne_empty p.tx.txHash (of_decide_eq_true he).symm
  rw [h.relationships, List.filter_append, hwithdrawals, List.append_nil, List.filter_flatMap,
    flatMap_of_key hkeyed hp]
  · exact List.filter_eq_self.mpr fun r hr =>
      decide_eq_true (transfers_own (hextracted p hp) r hr)
  · intro q hq hne
    refine List.filter_eq_nil_iff.mpr fun r hr he => hne (hashText_injective ?_)
    have hown : r.txHash = _ := transfers_own (hextracted q hq) r hr
    exact hown.symm.trans (of_decide_eq_true he)

theorem mem_tokenObservations {tx : TransactionInput} {m : ObservedMovement}
    (h : m ∈ tokenObservations c tx) : ∃ r ∈ tokenRows c tx, Observes m r := by
  obtain ⟨item, hitem, h⟩ := List.mem_flatMap.mp h
  obtain ⟨movement, hmovement, rfl⟩ := List.mem_map.mp h
  exact ⟨_, List.mem_flatMap.mpr ⟨item, hitem, List.mem_map_of_mem hmovement⟩, rfl, rfl, rfl, rfl, rfl⟩

theorem event_own (h : Extracted d config block receipts traces registry ev c parts)
    {e : SemanticAmlEventRow} (he : e ∈ ev.semanticEvents) :
    ∃ tx ∈ block.transactions.getD [],
      OwnEvent d config c registry receipts ev.relationships tx e := by
  obtain ⟨traceOf, _, hextracted⟩ := h.traced
  rw [h.events] at he
  obtain ⟨p, hp, he⟩ := List.mem_flatMap.mp he
  obtain ⟨hreceipt, hhash⟩ := h.receipt hp
  obtain ⟨internal, _, hrows, hmovements⟩ := extractTransfers_ok (hextracted p hp)
  have htx : p.tx ∈ block.transactions.getD [] := by
    rw [h.transactions]
    exact List.mem_map_of_mem hp
  refine ⟨p.tx, htx, ?_, p.receipt, hreceipt, hhash, p.transfers.movements, ?_, ?_⟩
  · unfold Part.events decodeTransaction at he
    obtain ⟨item, _, hitem⟩ := List.mem_filterMap.mp he
    rw [decodeLog_txHash hitem]
    rfl
  · intro m hm
    rw [hmovements] at hm
    obtain ⟨r, hr, hobserves⟩ := mem_tokenObservations hm
    refine ⟨r, ?_, hobserves⟩
    rw [h.own hp, hrows]
    exact List.mem_append_left _ (List.mem_append_right _ hr)
  · rw [h.own hp]
    exact he

end

/-- The relationships of a block are one row for each of its transfers, under an
id of its own; the order of the receipts and of the traces does not enter; and
an event is decoded from the relationships of its own transaction. -/
theorem extract_block_transfers {d : Digests} (hsha : Function.Injective d.stableHash)
    (htopics : Distinct (transferTopics d)) {config : AppConfig} {block : Block}
    {receipts : List TransactionReceipt} {traces : Option (List TransactionTrace)}
    {registry : SemanticDecoderRegistry} {indexedAt : Nat} {ev : ExtractedBlock}
    (h : extractBlock d config block receipts traces registry indexedAt = .ok ev)
    (hlogs : LogsDistinct receipts) (hwithdrawals : WithdrawalsDistinct block) :
    ∃ c, networkFromStr config.ethNetworkId = some c.network ∧ c = blockContext d c.network block ∧
      (∀ r, r ∈ ev.relationships ↔ ∃ source, Yields c block receipts traces source r) ∧
      (ev.relationships.map AddressRelationshipRow.relationshipId).Nodup ∧
      (∀ source r r', Yields c block receipts traces source r →
        Yields c block receipts traces source r' → r = r') ∧
      (∀ source source' r r', Yields c block receipts traces source r →
        Yields c block receipts traces source' r' → r.relationshipId = r'.relationshipId →
        source = source') ∧
      (∀ receipts' traces', receipts.Perm receipts' → Option.Rel List.Perm traces traces' →
        extractBlock d config block receipts' traces' registry indexedAt = .ok ev) ∧
      ∀ e ∈ ev.semanticEvents, ∃ tx ∈ block.transactions.getD [],
        OwnEvent d config c registry receipts ev.relationships tx e := by
  obtain ⟨c, parts, hextracted⟩ := extractBlock_ok h
  have hsha' : Function.Injective c.sha256 := by
    rw [hextracted.context]
    exact hsha
  refine ⟨c, hextracted.network, hextracted.context, fun r => mem_relationships_iff htopics hextracted,
    ids_nodup hsha htopics hextracted hlogs hwithdrawals,
    fun source r r' hr hr' => yields_functional hextracted hr hr', ?_,
    fun receipts' traces' hreceipts htraces => extractBlock_perm hreceipts htraces h,
    fun e he => event_own hextracted he⟩
  intro source source' r r' hr hr' hid
  exact source_of_site htopics hextracted hlogs hwithdrawals hr hr'
    (site_of_id hsha' (yields_identified hextracted hr) (yields_identified hextracted hr') hid)

/-! ## A block with one transfer of each source -/

/-- A digest recorded for each of the texts, and a marked text for any other. -/
def recordedHash : List (String × String) → String → String
  | [], text => "#" ++ text
  | entry :: rest, text => Equiv.swap ("#" ++ entry.1) entry.2 (recordedHash rest text)

theorem recordedHash_injective (table : List (String × String)) :
    Function.Injective (recordedHash table) := by
  induction table with
  | nil => exact marked_injective
  | cons entry rest ih => exact (Equiv.swap ("#" ++ entry.1) entry.2).injective.comp ih

theorem recordedHash_ne {table : List (String × String)} (h : ∀ entry ∈ table, entry.2 ≠ "")
    (text : String) : recordedHash table text ≠ "" := by
  induction table with
  | nil => exact marked_ne text
  | cons entry rest ih =>
    obtain ⟨hentry, hrest⟩ := List.forall_mem_cons.mp h
    rw [recordedHash, Equiv.swap_apply_def]
    split_ifs
    · exact hentry
    · exact marked_ne entry.1
    · exact ih hrest

/-- Keccak-256 on the transfer events and the event signatures. -/
def sampleKeccak (text : String) : B256 :=
  if text = "Transfer(address,address,uint256)" then
    0xddf252ad1be2c89b69c2b068fc378daa952ba7f163c4a11628f55a4df523b3ef
  else if text = "TransferSingle(address,address,address,uint256,uint256)" then
    0xc3d58168c5ae7397731d063d5bbf3d657854427343f4c083240f7aacaa2d0f62
  else if text = "TransferBatch(address,address,address,uint256[],uint256[])" then
    0x4a39dc06d4c0dbc64b70af90fd698a233a518aa5d07e595d983b8c0526c8f7fb
  else publishedKeccak text

theorem sampleKeccak_text : ∀ e ∈ eventSignatures, sampleKeccak e.text = publishedDigest e := by
  decide +kernel

/-- SHA-256 on the texts of the ids of the block. -/
def sampleHashes : List (String × String) := [
  ("eip155:1|100|0x00000000000000000000000000000000000000000000000000000000000000f1|0|0|0||eip155:1:0x000000000000000000000000000000000000000a|eip155:1:0x000000000000000000000000000000000000000b|eip155:1/native:eth||native_external",
    "6e289100768cebfae754462353b70674ef453724fa2863ab44cface7576b1107"),
  ("eip155:1|100|0x00000000000000000000000000000000000000000000000000000000000000f1|0|0|0||eip155:1:0x000000000000000000000000000000000000000a|eip155:1:0x000000000000000000000000000000000000000b|eip155:1/erc20:0x000000000000000000000000000000000000000d||erc20",
    "fc74370d5c90584e93547aee4d3f5addd7b59f6151e1d08464f4939f43f11221"),
  ("eip155:1|100|0x00000000000000000000000000000000000000000000000000000000000000f1|0|0|0|0|eip155:1:0x000000000000000000000000000000000000000b|eip155:1:0x000000000000000000000000000000000000000c|eip155:1/native:eth||native_internal",
    "39e5bb1d953b7e0b60c18a318daa6b79aa4d78f7a76fd04e7d44de24ebfca37b"),
  ("eip155:1|100|system|4294967295|7|0||eip155:1:0x0000000000000000000000000000000000000000|eip155:1:0x000000000000000000000000000000000000000c|eip155:1/native:eth||validator_withdrawal",
    "75dcc50064f60bb0174f9b0c64f969f48510d2e24fb7f9dca6dfac33dcdd7c89"),
  ("eip155:1|0x00000000000000000000000000000000000000000000000000000000000000f1|0",
    "d419fe3336824603042a18c795c07a9d908f1cdd7a6551f018fca3bd197e360e")]

def sampleDigests : Digests where
  keccak256 := sampleKeccak
  stableHash := recordedHash sampleHashes
  nonempty := recordedHash_ne (by decide +kernel)
  distinct e f h := by
    have he := mem_eventSignatures e
    have hf := mem_eventSignatures f
    rw [sampleKeccak_text e he, sampleKeccak_text f hf] at h
    exact publishedDigest_inj e he f hf h

theorem sample_distinct : Distinct (transferTopics sampleDigests) :=
  ⟨by decide +kernel, by decide +kernel, by decide +kernel⟩

def sampleConfig : AppConfig := ⟨"eip155:1", "node"⟩

def sampleTransaction : Transaction where
  txHash := 0xf1
  transactionIndex := some 0
  sender := 0x0a
  toAddress := some 0x0b
  nonce := 3
  transactionType := some 2
  value := 42
  input := []
  gasLimit := 90000
  maxFeePerGas := 30
  maxPriorityFeePerGas := some 1

def sampleReceipt (logs : List Log) : TransactionReceipt where
  transactionHash := 0xf1
  blockNumber := some 100
  blockHash := some 0xb1
  transactionIndex := some 0
  status := true
  contractAddress := none
  gasUsed := 60000
  effectiveGasPrice := 20
  blobGasUsed := none
  blobGasPrice := none
  logs := logs

def sampleBlock (withdrawals : List Withdrawal) : Block where
  number := 100
  hash := 0xb1
  parentHash := 0xb0
  timestamp := 1717281407
  transactions := some [sampleTransaction]
  withdrawals := some withdrawals

def sampleLog : Log where
  address := 0x0d
  topics := [(transferTopics sampleDigests).ERC_TRANSFER_EVENT, addressWord 0x0a, addressWord 0x0b]
  data := abiWords [10]
  logIndex := some 0
  removed := false

/-- The call passes part of the value on. -/
def sampleTrace : TransactionTrace :=
  ⟨0xf1, 0, [.mk "CALL" 0x0b (some 0x0c) (some 5) none none []]⟩

def sampleWithdrawal : Withdrawal := ⟨7, 0x0c, 5⟩

def sampleExtraction : Except String ExtractedBlock :=
  extractBlock sampleDigests sampleConfig (sampleBlock [sampleWithdrawal]) [sampleReceipt [sampleLog]]
    (some [sampleTrace]) ⟨[]⟩ 0

theorem sample_extracted : sampleExtraction.toOption.isSome := by decide +kernel

theorem sample_block_transfers : ∃ ev c, sampleExtraction = .ok ev ∧
    ev.relationships.map AddressRelationshipRow.relationshipId =
      (sampleHashes.take 4).map Prod.snd ∧
    ∀ r, r ∈ ev.relationships ↔ ∃ source, Yields c (sampleBlock [sampleWithdrawal])
      [sampleReceipt [sampleLog]] (some [sampleTrace]) source r := by
  have hrun : sampleExtraction = .ok (sampleExtraction.toOption.get sample_extracted) :=
    ok_get sample_extracted
  obtain ⟨c, _, _, hrows, _⟩ := extract_block_transfers (recordedHash_injective sampleHashes)
    sample_distinct hrun (by unfold LogsDistinct; decide +kernel)
    (by unfold WithdrawalsDistinct; decide +kernel)
  exact ⟨_, c, hrun, by decide +kernel, hrows⟩

/-! ## A shared id and a movement without a row -/

theorem yields_index {c : BlockContext} {block : Block} {receipts : List TransactionReceipt}
    {traces : Option (List TransactionTrace)} {source : Source} {r : AddressRelationshipRow}
    (hr : Yields c block receipts traces source r) : r.eventSubIndex < 2 ^ 32 := by
  cases source with
  | transaction tx =>
    obtain ⟨_, _, _, _, _, _, _, _, rfl⟩ := hr
    exact Nat.two_pow_pos 32
  | movement tx position movement =>
    obtain ⟨_, _, _, _, _, _, _, _, hindex, rfl⟩ := hr
    exact hindex
  | frame tx path =>
    obtain ⟨_, _, _, _, _, _, _, _, _, _, ⟨typ, _, _, _, _, _, _⟩, _, hframe⟩ := hr
    obtain ⟨_, _, _, _, _, _, _, rfl⟩ := hframe
    exact Nat.two_pow_pos 32
  | withdrawal withdrawal =>
    obtain ⟨_, rfl⟩ := hr
    exact Nat.two_pow_pos 32

/-- A batch of as many transfers of one unit. -/
def unitBatch (n : Nat) : Log where
  address := 0x0d
  topics := [(transferTopics sampleDigests).ERC1155_TRANSFER_BATCH_EVENT, 0, addressWord 0x0a,
    addressWord 0x0b]
  data := abiWords [64, 64] ++
    (wordBytes (BitVec.ofNat 256 n) ++ (abiWords (List.replicate n 1) ++ []))
  logIndex := some 0
  removed := false

def unitMovement (i : Nat) : TokenMovement := ⟨0x0d, 0x0a, 0x0b, 1, some 1, .erc1155, i⟩

theorem unitBatch_standard {n i : Nat} (hn : n < 2 ^ 64) (hi : i < n) :
    StandardMovement (transferTopics sampleDigests) (unitBatch n) (unitMovement i) := by
  have harray : ArrayAt (unitBatch n).data 64 (List.replicate n 1) := by
    refine ⟨rfl, by rwa [List.length_replicate], abiWords [64, 64], [], rfl, ?_⟩
    rw [List.length_replicate]
    rfl
  have hone : (List.replicate n (1 : U256))[i]? = some 1 := by
    rw [List.getElem?_replicate, if_pos hi]
  exact .batch rfl ⟨⟨64, 64, _, by omega, by omega, rfl, harray, harray⟩, rfl⟩ hone hone

theorem batch_extracted (log : Log) (hindex : log.logIndex = some 0) (hremoved : log.removed = false) :
    ∃ ev, extractBlock sampleDigests sampleConfig (sampleBlock []) [sampleReceipt [log]] none ⟨[]⟩ 0 =
      .ok ev := by
  have hnetwork : networkFromStr sampleConfig.ethNetworkId = some "eip155:1" := by decide +kernel
  obtain ⟨address, topics, data, logIndex, removed⟩ := log
  obtain rfl : logIndex = some 0 := hindex
  obtain rfl : removed = false := hremoved
  have htxs : (sampleBlock []).transactions = some [sampleTransaction] := rfl
  have hreceipts : receiptsByHash (sampleBlock []) [sampleTransaction]
      [sampleReceipt [⟨address, topics, data, some 0, false⟩]] =
        .ok [(0xf1, sampleReceipt [⟨address, topics, data, some 0, false⟩])] := rfl
  have htraces : tracesByHash (sampleBlock []) [sampleTransaction] none = .ok [] := rfl
  have hone : ∃ acc, extractTransaction sampleDigests sampleConfig
      (blockContext sampleDigests "eip155:1" (sampleBlock [])) ⟨[]⟩ (get [])
      (Extraction.start [(0xf1, sampleReceipt [⟨address, topics, data, some 0, false⟩])])
      sampleTransaction = .ok acc ∧ acc.receiptsByHash = [] := ⟨_, rfl, rfl⟩
  obtain ⟨acc, hacc, hempty⟩ := hone
  unfold extractBlock
  rw [hnetwork, context_some, ok_bind, ensure_eq (by decide), ok_bind, htxs, context_some, ok_bind,
    hreceipts, ok_bind, htraces, ok_bind]
  dsimp only
  rw [List.foldlM_cons, hacc, ok_bind, List.foldlM_nil]
  show ∃ ev, (ensure (acc.receiptsByHash.isEmpty = true) _ >>= fun _ => _) = Except.ok ev
  rw [hempty]
  exact ⟨_, rfl⟩

theorem repeated_extracted : (extractBlock sampleDigests sampleConfig
    (sampleBlock [sampleWithdrawal, sampleWithdrawal]) [sampleReceipt []] none ⟨[]⟩
    0).toOption.isSome := by decide +kernel

/-- Two withdrawals of one index and address get one id, and a movement behind
the first 2 ^ 32 of a batch no row. -/
theorem id_shared_and_movement_lost :
    (∃ ev, extractBlock sampleDigests sampleConfig (sampleBlock [sampleWithdrawal, sampleWithdrawal])
        [sampleReceipt []] none ⟨[]⟩ 0 = .ok ev ∧
      ¬ (ev.relationships.map AddressRelationshipRow.relationshipId).Nodup) ∧
    ∃ log movement ev, StandardMovement (transferTopics sampleDigests) log movement ∧
      movement.amount ≠ 0 ∧ LogsDistinct [sampleReceipt [log]] ∧
      extractBlock sampleDigests sampleConfig (sampleBlock []) [sampleReceipt [log]] none ⟨[]⟩ 0 =
        .ok ev ∧
      ∀ r ∈ ev.relationships, r.eventSubIndex ≠ movement.eventSubIndex := by
  constructor
  · exact ⟨_, ok_get repeated_extracted, by decide +kernel⟩
  · obtain ⟨ev, hrun⟩ := batch_extracted (unitBatch (2 ^ 32 + 1)) rfl rfl
    refine ⟨unitBatch (2 ^ 32 + 1), unitMovement (2 ^ 32), ev,
      unitBatch_standard (by omega) (by omega), by decide, ?_, hrun, ?_⟩
    · intro receipt hreceipt
      rw [List.mem_singleton.mp hreceipt]
      exact List.nodup_singleton _
    · intro r hr
      obtain ⟨c, parts, hextracted⟩ := extractBlock_ok hrun
      obtain ⟨_, hyields⟩ := (mem_relationships_iff sample_distinct hextracted).mp hr
      exact Nat.ne_of_lt (yields_index hyields)

end AmlReal.Ethereum.BlockTransfers
