import Mathlib.Logic.Equiv.Basic
import AmlReal.Bsc.TransferIdentity

/-! # The evidence of a block

`extract_block_evidence` as a whole: its relationships are the edges of the
block's transfers, one for each, under distinct ids, and any order of the same
traces gives the same evidence. -/

namespace AmlReal.Bsc.BlockEvidence
open AmlReal.Foundations AmlReal.Foundations.Checks AmlReal.Foundations.EntryList
open AmlReal.Warehouse.Values AmlReal.Bsc.Model AmlReal.Bsc.Transfers
open AmlReal.Bsc.TransferEdges AmlReal.Bsc.TransferIdentity

section
variable {sha256 : String → String}

/-! ## Traces of the transactions -/

/-- What the trace of a transaction adds. -/
def traceEdges (sha256 : String → String) (byHash : List (String × RpcBlockTrace))
    (tx : CanonicalTransaction) : List CanonicalRelationship :=
  ((byHash.lookup tx.hash).bind fun trace => (appendTrace sha256 tx trace).toOption).getD []

/-- The trace of the transaction is there and passes its checks. -/
def Traced (sha256 : String → String) (byHash : List (String × RpcBlockTrace))
    (tx : CanonicalTransaction) : Prop :=
  ∃ trace edges, (tx.hash, trace) ∈ byHash ∧ appendTrace sha256 tx trace = .ok edges

theorem traceEdges_eq {byHash : List (String × RpcBlockTrace)} (hkeyed : Keyed byHash)
    {tx : CanonicalTransaction} {trace : RpcBlockTrace} {edges : List CanonicalRelationship}
    (hmem : (tx.hash, trace) ∈ byHash) (h : appendTrace sha256 tx trace = .ok edges) :
    traceEdges sha256 byHash tx = edges := by
  unfold traceEdges
  rw [hkeyed.lookup_eq_some.mpr hmem, Option.bind_some, h]; rfl

theorem appendTransactionTraces_ok {byHash : List (String × RpcBlockTrace)} (hkeyed : Keyed byHash)
    {txs : List CanonicalTransaction}
    {s final : List (String × RpcBlockTrace) × List CanonicalRelationship} (hs : s.1 ⊆ byHash)
    (h : txs.foldlM (appendTransactionTrace sha256) s = .ok final) :
    final.2 = s.2 ++ txs.flatMap (traceEdges sha256 byHash) ∧
      ∀ tx ∈ txs, Traced sha256 byHash tx := by
  induction txs generalizing s with
  | nil => cases h; simp
  | cons tx rest ih =>
    rw [List.foldlM_cons] at h
    obtain ⟨mid, hone, hrest⟩ := bind_ok h
    obtain ⟨trace, htrace, hone⟩ := bind_ok hone
    obtain ⟨edges, hedges, hone⟩ := bind_ok hone
    obtain rfl := Except.ok.inj hone
    have hmem := hs (mem_of_lookup (context_ok htrace))
    obtain ⟨hfinal, htraced⟩ := ih (fun e he => hs (List.mem_of_mem_filter he)) hrest
    refine ⟨?_, List.forall_mem_cons.mpr ⟨⟨trace, edges, hmem, hedges⟩, htraced⟩⟩
    rw [hfinal, List.flatMap_cons, traceEdges_eq hkeyed hmem hedges, List.append_assoc]

theorem appendTrace_ok {tx : CanonicalTransaction} {trace : RpcBlockTrace}
    {edges : List CanonicalRelationship} (h : appendTrace sha256 tx trace = .ok edges) :
    (tx.status = 1 → frameReverted trace.result = false ∧
      appendCallFrames sha256 tx trace.result.calls 0 [] = .ok edges) ∧
    (tx.status ≠ 1 → edges = []) := by
  obtain ⟨_, _, h⟩ := bind_ok h
  obtain ⟨_, _, h⟩ := bind_ok h
  obtain ⟨_, _, h⟩ := bind_ok h
  by_cases hstatus : tx.status = 1
  · rw [if_pos hstatus] at h
    obtain ⟨_, hlive, h⟩ := bind_ok h
    exact ⟨fun _ => ⟨ensure_ok hlive, h⟩, fun hne => absurd hstatus hne⟩
  · rw [if_neg hstatus] at h
    exact ⟨fun he => absurd he hstatus, fun _ => (Except.ok.inj h).symm⟩

theorem traceEdges_apart {byHash : List (String × RpcBlockTrace)} (hkeyed : Keyed byHash)
    {tx : CanonicalTransaction} (htraced : Traced sha256 byHash tx) :
    (traceEdges sha256 byHash tx).Pairwise fun a b => a.traceAddress ≠ b.traceAddress := by
  obtain ⟨trace, edges, hmem, happend⟩ := htraced
  rw [traceEdges_eq hkeyed hmem happend]
  obtain ⟨hsuccess, hfailed⟩ := appendTrace_ok happend
  by_cases hstatus : tx.status = 1
  · exact appendCallFrames_apart _ 0 [] edges (hsuccess hstatus).2
  · rw [hfailed hstatus]; exact List.Pairwise.nil

theorem mem_traceEdges {block : CanonicalBlock} {traces : List RpcBlockTrace}
    {byHash : List (String × RpcBlockTrace)} (htraces : tracesByHash traces = .ok byHash)
    {tx : CanonicalTransaction} (htx : tx ∈ block.transactions)
    (htraced : Traced sha256 byHash tx) {r : CanonicalRelationship} :
    r ∈ traceEdges sha256 byHash tx ↔ ∃ path, Yields sha256 block traces (.internal tx path) r := by
  obtain ⟨hkeyed, hentries⟩ := tracesByHash_ok htraces
  obtain ⟨trace, edges, hmem, happend⟩ := htraced
  rw [traceEdges_eq hkeyed hmem happend]
  obtain ⟨hsuccess, hfailed⟩ := appendTrace_ok happend
  constructor
  · intro hr
    by_cases hstatus : tx.status = 1
    · obtain ⟨hlive, hframes⟩ := hsuccess hstatus
      obtain ⟨path, hne, frame, hreaches, hedge⟩ := (appendRoot_ok hlive hframes r).mp hr
      obtain ⟨htrace, hhash⟩ := (hentries _ _).mp hmem
      exact ⟨path, htx, hstatus, hne, trace, htrace, hhash, frame, hreaches, hedge⟩
    · rw [hfailed hstatus] at hr; cases hr
  · rintro ⟨path, _, hstatus, hne, trace', htrace', hhash', frame, hreaches, hedge⟩
    obtain rfl := hkeyed.unique hmem ((hentries _ _).mpr ⟨htrace', hhash'⟩)
    obtain ⟨hlive, hframes⟩ := hsuccess hstatus
    exact (appendRoot_ok hlive hframes r).mpr ⟨path, hne, frame, hreaches, hedge⟩

/-! ## What a successful extraction says -/

/-- The block and its traces as an extraction that succeeded leaves them. -/
structure Extracted (sha256 : String → String) (block : CanonicalBlock)
    (traces : List RpcBlockTrace) (byHash : List (String × RpcBlockTrace))
    (ev : ExtractedBlockEvidence) : Prop where
  normalized : Normalized block
  traces : tracesByHash traces = .ok byHash
  traced : ∀ tx ∈ block.transactions, Traced sha256 byHash tx
  logged : ∀ log ∈ block.logs, checkLog block log = .ok ()
  silent : ∀ tx ∈ block.transactions,
    tx.status = 1 ∨ ∀ log ∈ block.logs, log.transactionIndex ≠ tx.transactionIndex
  edges : ev.relationships.Perm (block.transactions.flatMap (nativeEdges sha256) ++
    block.logs.flatMap (logEdges sha256) ++ block.transactions.flatMap (traceEdges sha256 byHash))

theorem extractBlockEvidence_ok {rpc : RpcBlock} {receipts : List RpcReceipt}
    {block : CanonicalBlock} (hblock : normalizeBlock rpc receipts = .ok block)
    {traces : List RpcBlockTrace} {ev : ExtractedBlockEvidence}
    (h : extractBlockEvidence sha256 block (some traces) = .ok ev) :
    ∃ byHash, Extracted sha256 block traces byHash ev := by
  obtain ⟨natives, hnatives, h⟩ := bind_ok h
  obtain ⟨⟨tokens, discoveries⟩, htokens, h⟩ := bind_ok h
  obtain ⟨internals, hinternals, h⟩ := bind_ok h
  obtain rfl := Except.ok.inj h
  obtain ⟨_, _, hinternals⟩ := bind_ok hinternals
  obtain ⟨byHash, htraces, hinternals⟩ := bind_ok hinternals
  obtain ⟨final, hfinal, hinternals⟩ := bind_ok hinternals
  obtain ⟨_, _, hinternals⟩ := bind_ok hinternals
  obtain rfl := Except.ok.inj hinternals
  obtain ⟨hkeyed, _⟩ := tracesByHash_ok htraces
  obtain ⟨hedges, htraced⟩ := appendTransactionTraces_ok hkeyed (List.Subset.refl _) hfinal
  refine ⟨byHash, normalizeBlock_ok hblock, htraces, htraced, fun log hlog => ?_,
    fun tx htx => ?_, ?_⟩
  · obtain ⟨_, _, hlog⟩ := ok_of_foldlM htokens log hlog
    obtain ⟨_, hcheck, _⟩ := bind_ok hlog
    exact hcheck
  · obtain ⟨edges, htx⟩ := ok_of_mapM hnatives tx htx
    exact (appendTransaction_ok htx).2
  · refine (List.perm_insertionSort _ _).trans ?_
    have hnative : natives = block.transactions.map (nativeEdges sha256) :=
      mapM_eq_map (fun _ _ htx => (appendTransaction_ok htx).1) hnatives
    have htoken : tokens = block.logs.flatMap (logEdges sha256) := by
      simpa using foldl_edges (f := appendLog sha256 block) (fun _ _ _ => appendLog_ok) htokens
    rw [hedges, hnative, htoken, List.nil_append, ← List.flatMap_def]

variable {block : CanonicalBlock} {traces : List RpcBlockTrace}
  {byHash : List (String × RpcBlockTrace)} {ev : ExtractedBlockEvidence}

theorem mem_relationships (h : Extracted sha256 block traces byHash ev) {r : CanonicalRelationship} :
    r ∈ ev.relationships ↔ ∃ source, Yields sha256 block traces source r := by
  rw [h.edges.mem_iff, List.mem_append, List.mem_append, List.mem_flatMap, List.mem_flatMap,
    List.mem_flatMap]
  constructor
  · rintro ((⟨tx, htx, hr⟩ | ⟨log, hlog, hr⟩) | ⟨tx, htx, hr⟩)
    · exact ⟨.native tx, htx, mem_nativeEdges.mp hr⟩
    · obtain ⟨movement, hmovement, hr⟩ := List.mem_flatMap.mp hr
      exact ⟨.token log movement, hlog, mem_movementsOf.mp hmovement, mem_movementEdges.mp hr⟩
    · obtain ⟨path, hyields⟩ := (mem_traceEdges h.traces htx (h.traced tx htx)).mp hr
      exact ⟨.internal tx path, hyields⟩
  · rintro ⟨source, hyields⟩
    cases source with
    | native tx => exact Or.inl (Or.inl ⟨tx, hyields.1, mem_nativeEdges.mpr hyields.2⟩)
    | token log movement =>
      obtain ⟨hlog, hmovement, hedge⟩ := hyields
      exact Or.inl (Or.inr ⟨log, hlog, List.mem_flatMap.mpr
        ⟨movement, mem_movementsOf.mpr hmovement, mem_movementEdges.mpr hedge⟩⟩)
    | internal tx path =>
      exact Or.inr ⟨tx, hyields.1,
        (mem_traceEdges h.traces hyields.1 (h.traced tx hyields.1)).mpr ⟨path, hyields⟩⟩

/-! ## One source for each id -/

theorem tx_of_index (h : Normalized block) {a b : CanonicalTransaction}
    (ha : a ∈ block.transactions) (hb : b ∈ block.transactions)
    (he : a.transactionIndex = b.transactionIndex) : a = b :=
  List.inj_on_of_nodup_map (h.transactions ▸ List.nodup_range) ha hb he

theorem log_of_index (h : Normalized block) {a b : CanonicalLog} (ha : a ∈ block.logs)
    (hb : b ∈ block.logs) (he : a.logIndex = b.logIndex) : a = b :=
  List.inj_on_of_nodup_map (h.logs ▸ List.nodup_range) ha hb he

theorem movement_of_index {log : CanonicalLog} {a b : TokenMovement} (ha : a ∈ movementsOf log)
    (hb : b ∈ movementsOf log) (he : a.eventSubIndex = b.eventSubIndex) : a = b :=
  List.inj_on_of_nodup_map (List.pairwise_map.mpr (movements_apart log)) ha hb he

/-- The transaction a log names. -/
theorem log_transaction (h : Extracted sha256 block traces byHash ev) {log : CanonicalLog}
    (hlog : log ∈ block.logs) : ∃ tx ∈ block.transactions, tx.status = 1 ∧ log.txHash = tx.hash ∧
      log.transactionIndex = tx.transactionIndex := by
  obtain ⟨tx, htx, hcheck⟩ := bind_ok (h.logged log hlog)
  have htx := context_ok htx
  have hmem : tx ∈ block.transactions := List.mem_of_getElem? htx
  have hindex : tx.transactionIndex = log.transactionIndex := by
    have hat := congrArg (fun l => l[log.transactionIndex]?) h.normalized.transactions
    have hlt : log.transactionIndex < block.transactions.length := (List.getElem?_eq_some_iff.mp htx).1
    simpa [List.getElem?_map, htx, List.getElem?_range hlt] using hat
  refine ⟨tx, hmem, ?_, (ensure_ok hcheck).symm, hindex.symm⟩
  rcases h.silent tx hmem with hstatus | hsilent
  · exact hstatus
  · exact absurd hindex.symm (hsilent log hlog)

theorem yields_identified (h : Extracted sha256 block traces byHash ev) {source : Source}
    {r : CanonicalRelationship} (hyields : Yields sha256 block traces source r) :
    Identified sha256 r := by
  cases source with
  | native tx =>
    obtain ⟨htx, _, _, _, rfl⟩ := hyields
    exact nativeTransfer_identified (h.normalized.plain tx htx)
  | token log movement =>
    obtain ⟨hlog, ⟨movements, hdecode, hmovement⟩, _, _, assetId, hasset, rfl⟩ := hyields
    obtain ⟨tx, htx, _, hhash, _⟩ := log_transaction h hlog
    exact tokenTransfer_identified (hhash ▸ (h.normalized.plain tx htx).hash)
      (decodeTokenLog_plain hdecode movement hmovement) (tokenAsset_plain hasset)
  | internal tx path =>
    obtain ⟨htx, _, _, _, _, _, _, _, hedge⟩ := hyields
    exact frameEdge_identified (h.normalized.plain tx htx) hedge

theorem frameEdge_site {tx : CanonicalTransaction} {frame : RpcCallFrame} {address : List Nat}
    {r : CanonicalRelationship} (h : FrameEdge sha256 tx frame address r) :
    r.txHash = tx.hash ∧ r.transactionIndex = tx.transactionIndex ∧ r.traceAddress = address ∧
      r.transferType = "internal" := by
  obtain ⟨_, _, _, _, _, _, _, _, _, _, _, _, _, _, _, rfl⟩ := h
  exact ⟨rfl, rfl, rfl, rfl⟩

theorem asStr_ne (standard : TokenStandard) :
    standard.asStr ≠ "native" ∧ standard.asStr ≠ "internal" := by
  cases standard <;> decide

/-- Relationships of one site come from one source. -/
theorem source_of_site (h : Normalized block) {source source' : Source}
    {r r' : CanonicalRelationship} (hr : Yields sha256 block traces source r)
    (hr' : Yields sha256 block traces source' r') (hsite : siteOf r = siteOf r') :
    source = source' := by
  simp only [siteOf, Site.mk.injEq] at hsite
  obtain ⟨htx, hevent, hsub, htrace, htype⟩ := hsite
  cases source with
  | native tx =>
    obtain ⟨hmem, _, _, _, rfl⟩ := hr
    cases source' with
    | native tx' =>
      obtain ⟨hmem', _, _, _, rfl⟩ := hr'
      rw [tx_of_index h hmem hmem' htx]
    | token log movement =>
      obtain ⟨_, _, _, _, _, _, rfl⟩ := hr'
      exact absurd htype.symm (asStr_ne movement.standard).1
    | internal tx' path =>
      obtain ⟨_, _, _, _, _, _, _, _, hedge⟩ := hr'
      rw [(frameEdge_site hedge).2.2.2] at htype
      exact absurd htype (by show "native" ≠ "internal"; decide)
  | token log movement =>
    obtain ⟨hlog, hmovement, _, _, _, _, rfl⟩ := hr
    cases source' with
    | native tx' =>
      obtain ⟨_, _, _, _, rfl⟩ := hr'
      exact absurd htype (asStr_ne movement.standard).1
    | token log' movement' =>
      obtain ⟨hlog', hmovement', _, _, _, _, rfl⟩ := hr'
      obtain rfl := log_of_index h hlog hlog' hevent
      rw [movement_of_index (mem_movementsOf.mpr hmovement) (mem_movementsOf.mpr hmovement') hsub]
    | internal tx' path =>
      obtain ⟨_, _, _, _, _, _, _, _, hedge⟩ := hr'
      rw [(frameEdge_site hedge).2.2.2] at htype
      exact absurd htype (asStr_ne movement.standard).2
  | internal tx path =>
    obtain ⟨hmem, _, _, _, _, _, _, _, hedge⟩ := hr
    obtain ⟨_, hindex, haddress, hinternal⟩ := frameEdge_site hedge
    rw [hinternal] at htype
    cases source' with
    | native tx' =>
      obtain ⟨_, _, _, _, rfl⟩ := hr'
      exact absurd htype (by show "internal" ≠ "native"; decide)
    | token log' movement' =>
      obtain ⟨_, _, _, _, _, _, rfl⟩ := hr'
      exact absurd htype.symm (asStr_ne movement'.standard).2
    | internal tx' path' =>
      obtain ⟨hmem', _, _, _, _, _, _, _, hedge'⟩ := hr'
      obtain ⟨_, hindex', haddress', _⟩ := frameEdge_site hedge'
      obtain rfl := tx_of_index h hmem hmem' (by rw [← hindex, ← hindex', htx])
      rw [← haddress, ← haddress', htrace]

/-! ## Distinct ids -/

/-- The relationships differ in their sites. -/
def Apart (a b : CanonicalRelationship) : Prop := siteOf a ≠ siteOf b

theorem pairwise_of_length_le_one {α : Type} {R : α → α → Prop} {xs : List α}
    (h : xs.length ≤ 1) : xs.Pairwise R := by
  match xs, h with
  | [], _ => exact List.Pairwise.nil
  | [_], _ => exact List.pairwise_singleton _ _

theorem nativeEdges_apart (h : Normalized block) :
    (block.transactions.flatMap (nativeEdges sha256)).Pairwise Apart := by
  refine List.pairwise_flatMap.mpr ⟨fun tx _ => pairwise_of_length_le_one ?_, ?_⟩
  · unfold nativeEdges; split <;> simp
  · have hindexes : block.transactions.Pairwise fun a b => a.transactionIndex ≠ b.transactionIndex :=
      List.pairwise_map.mp (h.transactions ▸ List.nodup_range)
    refine hindexes.imp fun hne a ha b hb hsite => hne ?_
    obtain ⟨_, _, _, rfl⟩ := mem_nativeEdges.mp ha
    obtain ⟨_, _, _, rfl⟩ := mem_nativeEdges.mp hb
    exact congrArg Site.transactionIndex hsite

theorem logEdges_event {log : CanonicalLog} {r : CanonicalRelationship}
    (h : r ∈ logEdges sha256 log) : r.eventIndex = log.logIndex ∧ r.transferType ≠ "native" ∧
      r.transferType ≠ "internal" := by
  obtain ⟨movement, _, hr⟩ := List.mem_flatMap.mp h
  obtain ⟨_, _, _, _, rfl⟩ := mem_movementEdges.mp hr
  exact ⟨rfl, asStr_ne movement.standard⟩

theorem logEdges_apart (log : CanonicalLog) : (logEdges sha256 log).Pairwise Apart := by
  refine List.pairwise_flatMap.mpr ⟨fun movement _ => pairwise_of_length_le_one ?_, ?_⟩
  · unfold movementEdges
    split
    · simp
    · split <;> simp
  · refine (movements_apart log).imp fun hne a ha b hb hsite => hne ?_
    obtain ⟨_, _, _, _, rfl⟩ := mem_movementEdges.mp ha
    obtain ⟨_, _, _, _, rfl⟩ := mem_movementEdges.mp hb
    exact congrArg Site.eventSubIndex hsite

theorem tokenEdges_apart (h : Normalized block) :
    (block.logs.flatMap (logEdges sha256)).Pairwise Apart := by
  refine List.pairwise_flatMap.mpr ⟨fun log _ => logEdges_apart log, ?_⟩
  have hindexes : block.logs.Pairwise fun a b => a.logIndex ≠ b.logIndex :=
    List.pairwise_map.mp (h.logs ▸ List.nodup_range)
  refine hindexes.imp fun hne a ha b hb hsite => hne ?_
  rw [← (logEdges_event ha).1, ← (logEdges_event hb).1]
  exact congrArg Site.eventIndex hsite

theorem traceEdges_site (h : Extracted sha256 block traces byHash ev) {tx : CanonicalTransaction}
    (htx : tx ∈ block.transactions) {r : CanonicalRelationship}
    (hr : r ∈ traceEdges sha256 byHash tx) :
    r.transactionIndex = tx.transactionIndex ∧ r.transferType = "internal" := by
  obtain ⟨path, _, _, _, _, _, _, _, _, hedge⟩ :=
    (mem_traceEdges h.traces htx (h.traced tx htx)).mp hr
  obtain ⟨_, hindex, _, htype⟩ := frameEdge_site hedge
  exact ⟨hindex, htype⟩

theorem internalEdges_apart (h : Extracted sha256 block traces byHash ev) :
    (block.transactions.flatMap (traceEdges sha256 byHash)).Pairwise Apart := by
  refine List.pairwise_flatMap.mpr ⟨fun tx htx => ?_, ?_⟩
  · exact (traceEdges_apart (tracesByHash_ok h.traces).1 (h.traced tx htx)).imp
      fun hne hsite => hne (congrArg Site.traceAddress hsite)
  · have hindexes : block.transactions.Pairwise fun a b => a.transactionIndex ≠ b.transactionIndex :=
      List.pairwise_map.mp (h.normalized.transactions ▸ List.nodup_range)
    refine hindexes.imp_of_mem fun ha hb hne a hra b hrb hsite => hne ?_
    rw [← (traceEdges_site h ha hra).1, ← (traceEdges_site h hb hrb).1]
    exact congrArg Site.transactionIndex hsite

theorem relationships_apart (h : Extracted sha256 block traces byHash ev) :
    ev.relationships.Pairwise Apart := by
  have hsymm : ∀ a b : CanonicalRelationship, Apart a b → Apart b a := fun _ _ hne he => hne he.symm
  refine (h.edges.pairwise_iff (hsymm _ _)).mpr ?_
  refine List.pairwise_append.mpr ⟨List.pairwise_append.mpr
    ⟨nativeEdges_apart h.normalized, tokenEdges_apart h.normalized, ?_⟩, internalEdges_apart h, ?_⟩
  · intro a ha b hb hsite
    obtain ⟨tx, _, ha⟩ := List.mem_flatMap.mp ha
    obtain ⟨log, _, hb⟩ := List.mem_flatMap.mp hb
    obtain ⟨_, _, _, rfl⟩ := mem_nativeEdges.mp ha
    exact (logEdges_event hb).2.1 (congrArg Site.transferType hsite).symm
  · intro a ha b hb hsite
    obtain ⟨tx, htx, hb⟩ := List.mem_flatMap.mp hb
    have htype : a.transferType = "internal" :=
      (congrArg Site.transferType hsite).trans (traceEdges_site h htx hb).2
    rcases List.mem_append.mp ha with ha | ha
    · obtain ⟨_, _, ha⟩ := List.mem_flatMap.mp ha
      obtain ⟨_, _, _, rfl⟩ := mem_nativeEdges.mp ha
      exact absurd htype (by show "native" ≠ "internal"; decide)
    · obtain ⟨log, _, ha⟩ := List.mem_flatMap.mp ha
      exact (logEdges_event ha).2.2 htype

theorem ids_nodup (hsha : Function.Injective sha256)
    (h : Extracted sha256 block traces byHash ev) :
    (ev.relationships.map CanonicalRelationship.relationshipId).Nodup := by
  refine List.pairwise_map.mpr ((relationships_apart h).imp_of_mem fun ha hb hapart hid => hapart ?_)
  obtain ⟨_, ha⟩ := (mem_relationships h).mp ha
  obtain ⟨_, hb⟩ := (mem_relationships h).mp hb
  exact site_of_id hsha (yields_identified h ha) (yields_identified h hb) hid

/-- Every relationship names a transaction of the block that succeeded. -/
theorem yields_succeeded (h : Extracted sha256 block traces byHash ev) {source : Source}
    {r : CanonicalRelationship} (hr : Yields sha256 block traces source r) :
    ∃ tx ∈ block.transactions, tx.status = 1 ∧ r.txHash = tx.hash ∧
      r.transactionIndex = tx.transactionIndex := by
  cases source with
  | native tx =>
    obtain ⟨htx, hstatus, _, _, rfl⟩ := hr
    exact ⟨tx, htx, hstatus, rfl, rfl⟩
  | token log movement =>
    obtain ⟨hlog, _, _, _, _, _, rfl⟩ := hr
    exact log_transaction h hlog
  | internal tx path =>
    obtain ⟨htx, hstatus, _, _, _, _, _, _, hedge⟩ := hr
    obtain ⟨hhash, hindex, _, _⟩ := frameEdge_site hedge
    exact ⟨tx, htx, hstatus, hhash, hindex⟩

/-! ## The order of the traces -/

theorem insertTrace_perm {map map' result : List (String × RpcBlockTrace)} (hp : map.Perm map')
    {trace : RpcBlockTrace} (h : insertTrace map trace = .ok result) :
    ∃ result', insertTrace map' trace = .ok result' ∧ result.Perm result' := by
  obtain ⟨hash, hhash, hnone, rfl⟩ := insertTrace_ok.mp h
  exact ⟨(hash, trace) :: map', insertTrace_ok.mpr ⟨hash, hhash, (lookup_isNone_perm hp hash).mp hnone,
    rfl⟩, hp.cons _⟩

/-- The same traces go into maps with the same entries. -/
theorem insertTraces_same {traces : List RpcBlockTrace}
    {map map' result : List (String × RpcBlockTrace)} (hp : map.Perm map')
    (h : traces.foldlM insertTrace map = .ok result) :
    ∃ result', traces.foldlM insertTrace map' = .ok result' ∧ result.Perm result' := by
  induction traces generalizing map map' with
  | nil => cases h; exact ⟨map', rfl, hp⟩
  | cons trace rest ih =>
    rw [List.foldlM_cons] at h
    obtain ⟨mid, hone, hrest⟩ := bind_ok h
    obtain ⟨mid', hone', hmid⟩ := insertTrace_perm hp hone
    rw [List.foldlM_cons, hone']
    exact ih hmid hrest

theorem insertTraces_perm {traces traces' : List RpcBlockTrace} (htraces : traces.Perm traces')
    {map map' result : List (String × RpcBlockTrace)} (hp : map.Perm map')
    (h : traces.foldlM insertTrace map = .ok result) :
    ∃ result', traces'.foldlM insertTrace map' = .ok result' ∧ result.Perm result' := by
  induction htraces generalizing map map' result with
  | nil => cases h; exact ⟨map', rfl, hp⟩
  | cons trace _ ih =>
    rw [List.foldlM_cons] at h
    obtain ⟨mid, hone, hrest⟩ := bind_ok h
    obtain ⟨mid', hone', hmid⟩ := insertTrace_perm hp hone
    rw [List.foldlM_cons, hone']
    exact ih hmid hrest
  | swap first second rest =>
    -- two inserts under different hashes commute up to the order of the entries
    rw [List.foldlM_cons] at h
    obtain ⟨mid, hone, h⟩ := bind_ok h
    rw [List.foldlM_cons] at h
    obtain ⟨both, htwo, hrest⟩ := bind_ok h
    obtain ⟨key, hkey, hnone, rfl⟩ := insertTrace_ok.mp hone
    obtain ⟨key', hkey', hnone', rfl⟩ := insertTrace_ok.mp htwo
    have hne : key' ≠ key := by
      rintro rfl
      exact lookup_isNone.mp hnone' _ List.mem_cons_self
    have hfirst : insertTrace map' first = .ok ((key', first) :: map') := by
      refine insertTrace_ok.mpr ⟨key', hkey', lookup_isNone.mpr fun v hv => ?_, rfl⟩
      exact lookup_isNone.mp hnone' v (List.mem_cons_of_mem _ (hp.mem_iff.mpr hv))
    have hsecond : insertTrace ((key', first) :: map') second =
        .ok ((key, second) :: (key', first) :: map') := by
      refine insertTrace_ok.mpr ⟨key, hkey, lookup_isNone.mpr fun v hv => ?_, rfl⟩
      rcases List.mem_cons.mp hv with he | hv
      · exact hne (congrArg Prod.fst he).symm
      · exact lookup_isNone.mp hnone v (hp.mem_iff.mpr hv)
    have hswap : ((key', first) :: (key, second) :: map).Perm ((key, second) :: (key', first) :: map') :=
      (List.Perm.swap _ _ _).trans ((hp.cons _).cons _)
    rw [List.foldlM_cons, hfirst, ok_bind, List.foldlM_cons, hsecond, ok_bind]
    exact insertTraces_same hswap hrest
  | trans _ _ ih ih' =>
    obtain ⟨mid, hmid, hpm⟩ := ih hp h
    obtain ⟨result', hresult, hpr⟩ := ih' (List.Perm.refl _) hmid
    exact ⟨result', hresult, hpm.trans hpr⟩

theorem appendTransactionTraces_perm {txs : List CanonicalTransaction}
    {map map' : List (String × RpcBlockTrace)} {edges : List CanonicalRelationship}
    {final : List (String × RpcBlockTrace) × List CanonicalRelationship} (hkeyed : Keyed map)
    (hp : map.Perm map')
    (h : txs.foldlM (appendTransactionTrace sha256) (map, edges) = .ok final) :
    ∃ rest, txs.foldlM (appendTransactionTrace sha256) (map', edges) = .ok (rest, final.2) ∧
      final.1.Perm rest := by
  induction txs generalizing map map' edges with
  | nil => cases h; exact ⟨map', rfl, hp⟩
  | cons tx txs ih =>
    rw [List.foldlM_cons] at h
    obtain ⟨mid, hone, hrest⟩ := bind_ok h
    obtain ⟨trace, htrace, hone⟩ := bind_ok hone
    obtain ⟨found, hfound, hone⟩ := bind_ok hone
    obtain rfl := Except.ok.inj hone
    rw [hkeyed.lookup_perm hp] at htrace
    have hone' : appendTransactionTrace sha256 (map', edges) tx =
        .ok (remove map' tx.hash, edges ++ found) := by
      show (context _ _ >>= fun _ => _) = _
      rw [htrace, ok_bind, hfound, ok_bind]; rfl
    rw [List.foldlM_cons, hone', ok_bind]
    exact ih (hkeyed.remove tx.hash) (hp.filter _) hrest

theorem appendInternalTransfers_perm {traces traces' : List RpcBlockTrace}
    (hp : traces.Perm traces') {edges : List CanonicalRelationship}
    (h : appendInternalTransfers sha256 block traces = .ok edges) :
    appendInternalTransfers sha256 block traces' = .ok edges := by
  obtain ⟨_, hlength, h⟩ := bind_ok h
  obtain ⟨byHash, htraces, h⟩ := bind_ok h
  obtain ⟨final, hfinal, h⟩ := bind_ok h
  obtain ⟨_, hempty, h⟩ := bind_ok h
  obtain rfl := Except.ok.inj h
  obtain ⟨byHash', htraces', hmaps⟩ := insertTraces_perm hp (List.Perm.refl _) htraces
  obtain ⟨rest, hfinal', hrest⟩ :=
    appendTransactionTraces_perm (tracesByHash_ok htraces).1 hmaps hfinal
  rw [ensure_ok hempty] at hrest
  show (ensure _ _ >>= fun _ => tracesByHash traces' >>= fun _ => _) = _
  rw [ensure_eq (hp.length_eq ▸ ensure_ok hlength), ok_bind,
    show tracesByHash traces' = .ok byHash' from htraces', ok_bind, hfinal', ok_bind,
    ensure_eq hrest.symm.eq_nil]
  rfl

theorem extractBlockEvidence_perm {traces traces' : List RpcBlockTrace} (hp : traces.Perm traces')
    (h : extractBlockEvidence sha256 block (some traces) = .ok ev) :
    extractBlockEvidence sha256 block (some traces') = .ok ev := by
  obtain ⟨natives, hnatives, h⟩ := bind_ok h
  obtain ⟨⟨tokens, discoveries⟩, htokens, h⟩ := bind_ok h
  obtain ⟨internals, hinternals, h⟩ := bind_ok h
  have hinternals' : appendTraces sha256 block (some traces') = .ok internals :=
    appendInternalTransfers_perm hp hinternals
  unfold extractBlockEvidence
  rw [hnatives, ok_bind, htokens, ok_bind]
  show (appendTraces sha256 block (some traces') >>= fun _ => _) = _
  rw [hinternals', ok_bind]
  exact h

end

/-- The relationships of a block are the edges of its transfers, each under an
id of its own; all name successful transactions; and the order in which the
node returns the traces does not enter. -/
theorem extract_block_evidence {sha256 : String → String} (hsha : Function.Injective sha256)
    {rpc : RpcBlock} {receipts : List RpcReceipt} {block : CanonicalBlock}
    (hblock : normalizeBlock rpc receipts = .ok block) {traces : List RpcBlockTrace}
    {ev : ExtractedBlockEvidence}
    (h : extractBlockEvidence sha256 block (some traces) = .ok ev) :
    (∀ r, r ∈ ev.relationships ↔ ∃ source, Yields sha256 block traces source r) ∧
    (ev.relationships.map CanonicalRelationship.relationshipId).Nodup ∧
    (∀ source source' r r', Yields sha256 block traces source r →
      Yields sha256 block traces source' r' → r.relationshipId = r'.relationshipId →
      source = source' ∧ r = r') ∧
    (∀ r ∈ ev.relationships, ∃ tx ∈ block.transactions, tx.status = 1 ∧ r.txHash = tx.hash ∧
      r.transactionIndex = tx.transactionIndex) ∧
    (∀ traces', traces.Perm traces' →
      extractBlockEvidence sha256 block (some traces') = .ok ev) := by
  obtain ⟨byHash, hextracted⟩ := extractBlockEvidence_ok hblock h
  have hids := ids_nodup hsha hextracted
  refine ⟨fun r => mem_relationships hextracted, hids, fun source source' r r' hr hr' hid => ?_,
    fun r hr => ?_, fun traces' hp => extractBlockEvidence_perm hp h⟩
  · have hsite := site_of_id hsha (yields_identified hextracted hr)
      (yields_identified hextracted hr') hid
    exact ⟨source_of_site hextracted.normalized hr hr' hsite,
      List.inj_on_of_nodup_map hids ((mem_relationships hextracted).mpr ⟨_, hr⟩)
        ((mem_relationships hextracted).mpr ⟨_, hr'⟩) hid⟩
  · obtain ⟨source, hsource⟩ := (mem_relationships hextracted).mp hr
    exact yields_succeeded hextracted hsource

/-! ## A block with a call -/

def sampleHash (digit : Char) : String := "0x" ++ String.ofList (List.replicate 64 digit)
def sampleAddress (digit : Char) : String := "0x" ++ String.ofList (List.replicate 40 digit)

def sampleBlock : RpcBlock where
  number := some "0x64"
  hash := some (sampleHash '1')
  parentHash := sampleHash '0'
  timestamp := "0x6553f100"
  transactions := [⟨sampleHash '2', some (sampleHash '1'), some "0x64", some "0x0",
    sampleAddress 'a', some (sampleAddress 'b'), "0x1", some "0x2", "0x2a", "0x", "0x5208",
    some "0x1"⟩]

def sampleReceipt : RpcReceipt :=
  ⟨sampleHash '2', "0x0", sampleHash '1', "0x64", sampleAddress 'a', some (sampleAddress 'b'), none,
    some "0x1", none, "0x5208", none, []⟩

/-- The call passes part of the value on. -/
def sampleTrace : RpcBlockTrace :=
  ⟨sampleHash '2', .mk "CALL" (some (sampleAddress 'a')) (some (sampleAddress 'b')) (some "0x2a") none
    none [.mk "CALL" (some (sampleAddress 'b')) (some (sampleAddress 'c')) (some "0x5") none none []]⟩

/-- SHA-256 on the texts of the two ids of the block. -/
def sampleSha256 : String → String :=
  Equiv.swap
      "eip155:56|0x2222222222222222222222222222222222222222222222222222222222222222|0|0|0||0xaaaaaaaaaaaaaaaaaaaaaaaaaaaaaaaaaaaaaaaa|0xbbbbbbbbbbbbbbbbbbbbbbbbbbbbbbbbbbbbbbbb|eip155:56/native:bnb||native"
      "f93e78db1907215f0fe15ef82340e6d57b5cc665139e558004bcbe764d3b76d5" ∘
    Equiv.swap
      "eip155:56|0x2222222222222222222222222222222222222222222222222222222222222222|0|0|0|0|0xbbbbbbbbbbbbbbbbbbbbbbbbbbbbbbbbbbbbbbbb|0xcccccccccccccccccccccccccccccccccccccccc|eip155:56/native:bnb||internal"
      "5dfb7ede829abb68ec5669d62ae20884d151ad6fe329838e42f1fc0bd9e34ab3"

theorem sampleSha256_injective : Function.Injective sampleSha256 :=
  (Equiv.swap _ _).injective.comp (Equiv.swap _ _).injective

theorem sample_normalized : (normalizeBlock sampleBlock [sampleReceipt]).toOption.isSome := by
  decide +kernel

def sampleCanonical : CanonicalBlock :=
  (normalizeBlock sampleBlock [sampleReceipt]).toOption.get sample_normalized

theorem sample_extracted :
    (extractBlockEvidence sampleSha256 sampleCanonical (some [sampleTrace])).toOption.isSome := by
  decide +kernel

theorem sample_edges : ∃ ev,
    extractBlockEvidence sampleSha256 sampleCanonical (some [sampleTrace]) = .ok ev ∧
    ev.relationships.map CanonicalRelationship.relationshipId =
      ["f93e78db1907215f0fe15ef82340e6d57b5cc665139e558004bcbe764d3b76d5",
        "5dfb7ede829abb68ec5669d62ae20884d151ad6fe329838e42f1fc0bd9e34ab3"] ∧
    ∀ r, r ∈ ev.relationships ↔
      ∃ source, Yields sampleSha256 sampleCanonical [sampleTrace] source r :=
  ⟨_, ok_get sample_extracted, by decide +kernel,
    (extract_block_evidence sampleSha256_injective (ok_get sample_normalized)
      (ok_get sample_extracted)).1⟩

end AmlReal.Bsc.BlockEvidence
