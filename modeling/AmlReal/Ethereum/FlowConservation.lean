import AmlReal.Foundations.Json
import AmlReal.Foundations.JoinedText
import AmlReal.Ethereum.MixerEvents
import AmlReal.Ethereum.SemanticFlows

/-! # Conservation of flows

What the events of a contract attribute to it is what the transaction moved,
once for every log that reads the flow. So the flows are conserved just when no
flow is read twice and no swap reads the flow of an NFT. -/

namespace AmlReal.Ethereum.FlowConservation
open AmlReal.Foundations AmlReal.Foundations.Checks AmlReal.Foundations.EntryList
open AmlReal.Foundations.FixedWidth AmlReal.Foundations.JoinedText AmlReal.Foundations.Totals
open AmlReal.Ethereum.Movements AmlReal.Ethereum.Semantic AmlReal.Ethereum.AbiLogs
open AmlReal.Ethereum.ExtractedTransfers AmlReal.Ethereum.SemanticFlows
open AmlReal.Ethereum.MixerEvents (addressText_inj)

/-! ## What the first topic decides -/

section
variable {d : Digests} {registry : SemanticDecoderRegistry} {t : SemanticTransaction}

theorem logKind_signature {log : Log} {e : EventSignature}
    (h : log.topic0 = some (d.signature e)) : logKind d log = some (kindOf e) := by
  unfold logKind
  have hsome : (eventSignatures.find? fun e => log.topic0 = some (d.signature e)).isSome :=
    List.find?_isSome.mpr ⟨e, mem_eventSignatures e, by simpa using h⟩
  obtain ⟨f, hf⟩ := Option.isSome_iff_exists.mp hsome
  have htopic : log.topic0 = some (d.signature f) := by simpa using List.find?_some hf
  have heq : f = e := d.signature_inj.mp (Option.some.inj (htopic.symm.trans h))
  rw [hf, heq]
  rfl

theorem logKind_unknown {log : Log} (h : ∀ e, log.topic0 ≠ some (d.signature e)) :
    logKind d log = none := by
  unfold logKind
  rw [List.find?_eq_none.mpr fun e _ => by simpa using h e]
  rfl

theorem signature_of_logKind {log : Log} {kind : Kind} (h : logKind d log = some kind) :
    ∃ e, log.topic0 = some (d.signature e) ∧ kindOf e = kind := by
  by_cases hknown : ∃ e, log.topic0 = some (d.signature e)
  · obtain ⟨e, he⟩ := hknown
    rw [logKind_signature he] at h
    exact ⟨e, he, Option.some.inj h⟩
  · rw [logKind_unknown fun e he => hknown ⟨e, he⟩] at h
    cases h

theorem liquidityFamily_signature (e : EventSignature) : liquidityFamily d (d.signature e) =
    match kindOf e with
    | .liquidity eventType family => some (eventType, family)
    | _ => none := by
  cases e <;> simp [liquidityFamily, kindOf]

theorem swapFamily_signature (e : EventSignature) : swapFamily d (d.signature e) =
    match kindOf e with
    | .swap family => some family
    | _ => none := by
  cases e <;> simp [swapFamily, kindOf]

theorem mixerCall_signature (log : Log) (e : EventSignature) :
    (mixerCall d t log (d.signature e)).map Prod.fst =
      match kindOf e with
      | .mixer eventType => some eventType
      | _ => none := by
  cases e <;> simp [mixerCall, kindOf]

theorem bridgeDirection_signature {e : EventSignature} (h : kindOf e ≠ .bridge) :
    bridgeDirection d (d.signature e) = none := by
  cases e <;> first | (exact absurd rfl h) | simp [bridgeDirection, isAny]

theorem mixerCall_none {log : Log} {e : EventSignature}
    (h : ∀ eventType, kindOf e ≠ .mixer eventType) :
    mixerCall d t log (d.signature e) = none := by
  have hmap := mixerCall_signature (d := d) (t := t) log e
  split at hmap
  · rename_i eventType heq
    exact absurd heq (h eventType)
  · exact Option.map_eq_none_iff.mp hmap

/-! ## What becomes of a log -/

section
variable {log : Log} {position : Nat}

theorem decodeOpBridge_none {topic0 : B256} (h : log.topic0 = some topic0)
    (hdirection : bridgeDirection d topic0 = none) (logIndex : Nat)
    (contract : ProtocolContractRow) : decodeOpBridge d t log logIndex contract = none := by
  unfold decodeOpBridge
  rw [h]
  change (bridgeDirection d topic0 >>= _) = none
  rw [hdirection]
  rfl

theorem decodeTornadoMixer_eq {topic0 : B256} (h : log.topic0 = some topic0) (logIndex : Nat)
    (contract : ProtocolContractRow) : decodeTornadoMixer d t log logIndex contract =
      (mixerCall d t log topic0).map fun call =>
        mixerEvent d t log logIndex topic0 contract call.1 call.2 := by
  unfold decodeTornadoMixer
  rw [h]
  change (mixerCall d t log topic0 >>= _) = _
  cases mixerCall d t log topic0 <;> rfl

/-- Without a bridge event the registered decoder is that of the mixers. -/
theorem decodeRegistered_eq {topic0 : B256} (h : log.topic0 = some topic0)
    (hdirection : bridgeDirection d topic0 = none) (logIndex : Nat) :
    decodeRegistered d registry t log logIndex =
      (registry.contract log.address).bind fun contract =>
        if contract.protocolType = "mixer" ∧ contract.decoder = "tornado_cash_v1" then
          (mixerCall d t log topic0).map fun call =>
            mixerEvent d t log logIndex topic0 contract call.1 call.2
        else none := by
  unfold decodeRegistered
  cases registry.contract log.address with
  | none => rfl
  | some contract =>
    change Option.or _ _ = _
    rw [decodeOpBridge_none h hdirection, decodeTornadoMixer_eq h, ite_self, Option.none_or]
    rfl

theorem decodeRegistered_none {topic0 : B256} (h : log.topic0 = some topic0)
    (hdirection : bridgeDirection d topic0 = none) (hmixer : mixerCall d t log topic0 = none)
    (logIndex : Nat) : decodeRegistered d registry t log logIndex = none := by
  rw [decodeRegistered_eq h hdirection, hmixer]
  cases registry.contract log.address with
  | none => rfl
  | some contract => simp

theorem decodeLog_swap {e : EventSignature} {family : Family}
    (h : log.topic0 = some (d.signature e)) (hkind : kindOf e = .swap family) :
    decodeLog d registry t (log, position) =
      some (decodeSwap d registry t log (logIndexOf (log, position)) family) := by
  have hbridge : kindOf e ≠ .bridge := by rw [hkind]; exact nofun
  have hmixer : ∀ eventType, kindOf e ≠ .mixer eventType := by rw [hkind]; exact nofun
  have hliquidity := liquidityFamily_signature (d := d) e
  have hswap := swapFamily_signature (d := d) e
  rw [hkind] at hliquidity hswap
  rw [decodeLog_eq h, decodeRegistered_none h (bridgeDirection_signature hbridge)
    (mixerCall_none hmixer), Option.none_or, decodeTopic, hliquidity, hswap]
  rfl

theorem decodeLog_liquidity {e : EventSignature} {eventType : EventType} {family : Family}
    (h : log.topic0 = some (d.signature e)) (hkind : kindOf e = .liquidity eventType family) :
    decodeLog d registry t (log, position) =
      some (decodeLiquidity d registry t log (logIndexOf (log, position)) eventType family) := by
  have hbridge : kindOf e ≠ .bridge := by rw [hkind]; exact nofun
  have hmixer : ∀ eventType, kindOf e ≠ .mixer eventType := by rw [hkind]; exact nofun
  have hliquidity := liquidityFamily_signature (d := d) e
  rw [hkind] at hliquidity
  rw [decodeLog_eq h, decodeRegistered_none h (bridgeDirection_signature hbridge)
    (mixerCall_none hmixer), Option.none_or, decodeTopic, hliquidity]

theorem decodeTopic_none {e : EventSignature} (logIndex : Nat)
    (hliquidity : ∀ eventType family, kindOf e ≠ .liquidity eventType family)
    (hswap : ∀ family, kindOf e ≠ .swap family) :
    decodeTopic d registry t log logIndex (d.signature e) = none := by
  have hliquidityFamily := liquidityFamily_signature (d := d) e
  have hswapFamily := swapFamily_signature (d := d) e
  rw [decodeTopic]
  cases hkind : kindOf e with
  | liquidity eventType family => exact absurd hkind (hliquidity eventType family)
  | swap family => exact absurd hkind (hswap family)
  | mixer eventType =>
    rw [hkind] at hliquidityFamily hswapFamily
    rw [hliquidityFamily, hswapFamily]
    rfl
  | bridge =>
    rw [hkind] at hliquidityFamily hswapFamily
    rw [hliquidityFamily, hswapFamily]
    rfl

variable (registry t position) in
/-- A mixer log becomes an event where its emitter is a registered mixer. -/
theorem decodeLog_mixer {e : EventSignature} {eventType : EventType}
    (h : log.topic0 = some (d.signature e)) (hkind : kindOf e = .mixer eventType) :
    ∃ (contract : ProtocolContractRow) (subject : Address),
      decodeLog d registry t (log, position) = if isMixer registry log.address then
        some (mixerEvent d t log (logIndexOf (log, position)) (d.signature e) contract eventType
          subject) else none := by
  have hbridge : kindOf e ≠ .bridge := by rw [hkind]; exact nofun
  have hcall := mixerCall_signature (d := d) (t := t) log e
  rw [hkind] at hcall
  obtain ⟨⟨eventType', subject⟩, hmixer, heq⟩ := Option.map_eq_some_iff.mp hcall
  obtain rfl : eventType' = eventType := heq
  have htopic : decodeTopic d registry t log (logIndexOf (log, position)) (d.signature e) = none :=
    decodeTopic_none _ (by rw [hkind]; exact nofun) (by rw [hkind]; exact nofun)
  rw [decodeLog_eq h, htopic, Option.or_none, decodeRegistered_eq h
    (bridgeDirection_signature hbridge), hmixer]
  unfold isMixer
  cases registry.contract log.address with
  | none => exact ⟨⟨"", "", "", "", "", "", "", "", 0, 0⟩, subject, rfl⟩
  | some contract =>
    refine ⟨contract, subject, ?_⟩
    by_cases hregistered : contract.protocolType = "mixer" ∧ contract.decoder = "tornado_cash_v1"
    · simp [hregistered]
    · rw [Option.bind_some, if_neg hregistered, if_neg]
      simpa using hregistered

theorem decodeLog_bridge {e : EventSignature} {row : SemanticAmlEventRow}
    (h : log.topic0 = some (d.signature e)) (hkind : kindOf e = .bridge)
    (hrow : decodeLog d registry t (log, position) = some row) :
    row.eventType = .bridgeTransfer := by
  have htopic : decodeTopic d registry t log (logIndexOf (log, position)) (d.signature e) = none :=
    decodeTopic_none _ (by rw [hkind]; exact nofun) (by rw [hkind]; exact nofun)
  have hmixer : mixerCall d t log (d.signature e) = none :=
    mixerCall_none (by rw [hkind]; exact nofun)
  rw [decodeLog_eq h, htopic, Option.or_none] at hrow
  unfold decodeRegistered at hrow
  split at hrow
  · cases hrow
  · rename_i contract _
    rw [decodeTornadoMixer_eq h, hmixer, Option.map_none, ite_self, Option.or_none] at hrow
    split at hrow
    · unfold decodeOpBridge at hrow
      simp only [Option.bind_eq_bind, Option.bind_eq_some_iff] at hrow
      obtain ⟨topic0, _, direction, _, fields, _, hrow⟩ := hrow
      split at hrow
      · cases hrow
      · obtain rfl := Option.some.inj hrow
        rfl
    · cases hrow

theorem decodeLog_unknown (h : ∀ e, log.topic0 ≠ some (d.signature e)) :
    decodeLog d registry t (log, position) = none := by
  cases htopic : log.topic0 with
  | none => exact decodeLog_none htopic
  | some topic0 =>
    have hne : ∀ e, topic0 ≠ d.signature e := fun e he => h e (by rw [htopic, he])
    have hdirection : bridgeDirection d topic0 = none := by simp [bridgeDirection, isAny, hne]
    have hmixer : mixerCall d t log topic0 = none := by simp [mixerCall, hne]
    rw [decodeLog_eq htopic, decodeRegistered_none htopic hdirection hmixer, Option.none_or]
    simp [decodeTopic, liquidityFamily, swapFamily, hne]

/-- Where an event comes from. -/
def Emitted (d : Digests) (t : SemanticTransaction) (log : Log) (logIndex : Nat)
    (row : SemanticAmlEventRow) : Prop :=
  row.protocolContract = addressText log.address ∧
    ∃ eventType, row.eventId = semanticEventId d t.networkId t.txHash logIndex eventType log.address

theorem decodeOpBridge_emitted {logIndex : Nat} {contract : ProtocolContractRow}
    {row : SemanticAmlEventRow} (h : decodeOpBridge d t log logIndex contract = some row) :
    Emitted d t log logIndex row := by
  unfold decodeOpBridge at h
  simp only [Option.bind_eq_bind, Option.bind_eq_some_iff] at h
  obtain ⟨topic0, _, direction, _, fields, _, h⟩ := h
  split at h
  · cases h
  · obtain rfl := Option.some.inj h
    exact ⟨rfl, _, rfl⟩

theorem decodeTornadoMixer_emitted {logIndex : Nat} {contract : ProtocolContractRow}
    {row : SemanticAmlEventRow} (h : decodeTornadoMixer d t log logIndex contract = some row) :
    Emitted d t log logIndex row := by
  unfold decodeTornadoMixer at h
  simp only [Option.bind_eq_bind, Option.bind_eq_some_iff] at h
  obtain ⟨topic0, _, call, _, h⟩ := h
  obtain rfl := Option.some.inj h
  exact ⟨rfl, _, rfl⟩

theorem decodeLog_emitted {row : SemanticAmlEventRow}
    (h : decodeLog d registry t (log, position) = some row) :
    Emitted d t log (logIndexOf (log, position)) row := by
  cases htopic : log.topic0 with
  | none =>
    have hnone : decodeLog d registry t (log, position) = none :=
      decodeLog_unknown fun e he => by rw [htopic] at he; cases he
    rw [hnone] at h
    cases h
  | some topic0 =>
    rw [decodeLog_eq htopic] at h
    rcases Option.or_eq_some_iff.mp h with hregistered | ⟨_, htopic0⟩
    · unfold decodeRegistered at hregistered
      split at hregistered
      · cases hregistered
      · rcases Option.or_eq_some_iff.mp hregistered with hbridge | ⟨_, hmixer⟩
        · split at hbridge
          · exact decodeOpBridge_emitted hbridge
          · cases hbridge
        · split at hmixer
          · exact decodeTornadoMixer_emitted hmixer
          · cases hmixer
    · unfold decodeTopic at htopic0
      split at htopic0
      · obtain rfl := Option.some.inj htopic0
        exact ⟨rfl, _, rfl⟩
      · obtain ⟨family, _, rfl⟩ := Option.map_eq_some_iff.mp htopic0
        exact ⟨rfl, _, rfl⟩

end

/-! ## Event ids -/

theorem semanticEventId_logIndex (hsha : Function.Injective d.stableHash) {networkId : String}
    {txHash : B256} {i j : Nat} {eventType eventType' : EventType} {emitter emitter' : Address}
    (h : semanticEventId d networkId txHash i eventType emitter =
      semanticEventId d networkId txHash j eventType' emitter') : i = j := by
  have htext := congrArg String.toList (hsha h)
  simp only [String.intercalate_cons_cons, String.toList_append, List.append_assoc] at htext
  have hrest := List.append_cancel_left (List.append_cancel_left (List.append_cancel_left
    (List.append_cancel_left htext)))
  have hbar : "|".toList = ['|'] := by decide
  rw [hbar, List.singleton_append, List.singleton_append] at hrest
  exact Json.decimal_inj (String.toList_inj.mp
    (before_separator (notMem_repr (by decide) i) (notMem_repr (by decide) j) hrest))

theorem eventIds_nodup (hsha : Function.Injective d.stableHash)
    (h : (t.logs.zipIdx.map logIndexOf).Nodup) :
    ((decodeTransaction d registry t).events.map SemanticAmlEventRow.eventId).Nodup := by
  refine List.pairwise_map.mpr (List.Pairwise.filterMap _ ?_ (List.pairwise_map.mp h))
  rintro ⟨log, i⟩ ⟨log', j⟩ hne row hrow row' hrow' heq
  obtain ⟨_, eventType, hid⟩ := decodeLog_emitted hrow
  obtain ⟨_, eventType', hid'⟩ := decodeLog_emitted hrow'
  rw [hid, hid'] at heq
  exact hne (semanticEventId_logIndex hsha heq)

end

/-! ## What the extraction found -/

section
variable (x : ExtractedTransaction)

theorem linked : Linked x.context x.input x.transfers := extractTransfers_linked x.extracted

/-- A text that can stand in a column of assets. -/
def PlainAsset (asset : String) : Prop := asset ≠ "" ∧ ',' ∉ asset.toList

theorem plainAsset {asset : String} (hne : asset ≠ "")
    (h : ∀ c ∈ asset.toList, isAssetChar c = true) : PlainAsset asset :=
  ⟨hne, fun hcomma => absurd (h ',' hcomma) (by decide)⟩

theorem plain_nativeEth : PlainAsset (nativeEth x.context.network) :=
  plainAsset (nativeEth_ne _) (nativeEth_chars (networkFromStr_chars x.network))

theorem plain_tokenAsset (standard : TokenStandard) (contract : Address) :
    PlainAsset (tokenAsset x.context.network standard contract) := by
  refine plainAsset (fun h => ?_) (tokenAsset_chars (networkFromStr_chars x.network) _ _)
  have hlist := congrArg String.toList h
  unfold tokenAsset at hlist
  simp only [String.toList_append] at hlist
  have hslash := (List.append_eq_nil_iff.mp (List.append_eq_nil_iff.mp hlist).1).2
  exact absurd hslash (by decide)

theorem relationships_plain : ∀ r ∈ x.transaction.relationships,
    PlainAsset r.assetId ∧ r.amount ≤ 2 ^ 256 := by
  obtain ⟨pairs, natives, internals, _, hrows, _, hnatives, hinternals⟩ := (linked x).rows
  have hnative : ∀ r, NativeRow x.context r → PlainAsset r.assetId ∧ r.amount ≤ 2 ^ 256 :=
    fun r hr => ⟨hr.assetId ▸ plain_nativeEth x, hr.amount.le⟩
  change ∀ r ∈ x.transfers.relationships, _
  rw [hrows]
  refine List.forall_mem_append.mpr ⟨List.forall_mem_append.mpr
    ⟨fun r hr => hnative r (hnatives r hr), fun r hr => ?_⟩,
    fun r hr => hnative r (hinternals r hr)⟩
  obtain ⟨m, _, rfl⟩ := List.mem_map.mp hr
  exact ⟨plain_tokenAsset x _ _, m.2.amount.isLt.le⟩

theorem movements_plain : ∀ m ∈ x.transaction.movements, PlainAsset m.assetId := by
  obtain ⟨pairs, natives, internals, hmovements, _⟩ := (linked x).rows
  change ∀ m ∈ x.transfers.movements, _
  rw [hmovements]
  intro m hm
  obtain ⟨pair, _, rfl⟩ := List.mem_map.mp hm
  exact plain_tokenAsset x _ _

theorem movements_length : x.transaction.movements.length < 2 ^ 64 := by
  obtain ⟨pairs, natives, internals, hmovements, hrows, _⟩ := (linked x).rows
  have hlength := x.relationships_length
  change x.transfers.movements.length < _
  rw [hrows, List.length_append, List.length_append, List.length_map] at hlength
  rw [hmovements, List.length_map]
  omega

theorem fits_of_length {entries : List (String × Nat)} (hlength : entries.length < 2 ^ 64)
    (hamounts : ∀ e ∈ entries, e.2 ≤ 2 ^ 256) : Fits flowWidth entries := by
  intro asset
  have hle := amountUnder_le hamounts asset
  have hbound : entries.length * 2 ^ 256 ≤ 2 ^ 64 * 2 ^ 256 := Nat.mul_le_mul_right _ hlength.le
  have hwidth : 2 ^ 64 * 2 ^ 256 < flowWidth := by
    rw [← Nat.pow_add]
    exact Nat.pow_lt_pow_right (by omega) (by omega)
  exact Nat.lt_of_le_of_lt (Nat.le_trans hle hbound) hwidth

theorem movements_fit (pool : Address) (inbound : Bool) :
    Fits flowWidth ((poolMovements x.transaction.movements pool inbound).map movementAmount) := by
  refine fits_of_length ?_ fun e he => ?_
  · rw [List.length_map]
    exact Nat.lt_of_le_of_lt (List.length_filter_le ..) (movements_length x)
  · obtain ⟨m, _, rfl⟩ := List.mem_map.mp he
    exact m.amount.isLt.le

theorem relationships_fit (pool : Address) (inbound : Bool) :
    Fits flowWidth ((directionalRelationships x.transaction.relationships pool inbound).map
      relationshipAmount) := by
  refine fits_of_length ?_ fun e he => ?_
  · rw [List.length_map]
    exact Nat.lt_of_le_of_lt (List.length_filter_le ..) x.relationships_length
  · obtain ⟨r, hr, rfl⟩ := List.mem_map.mp he
    exact (relationships_plain x r (List.mem_filter.mp hr).1).2

/-- Rows of one asset agree on whether they have a token id. -/
theorem fungible_of_row {r : AddressRelationshipRow} (hr : r ∈ x.transaction.relationships)
    (htoken : r.tokenId = "") : Fungible x.transaction r.assetId := by
  obtain ⟨pairs, natives, internals, _, hrows, hpairs, hnatives, hinternals⟩ := (linked x).rows
  have hsplit : ∀ r ∈ x.transaction.relationships, NativeRow x.context r ∨
      ∃ m ∈ pairs, r = tokenRelationship x.context x.input m.1 m.2 := by
    intro r hr
    change r ∈ x.transfers.relationships at hr
    rw [hrows, List.mem_append, List.mem_append] at hr
    rcases hr with (hr | hr) | hr
    · exact Or.inl (hnatives r hr)
    · obtain ⟨m, hm, rfl⟩ := List.mem_map.mp hr
      exact Or.inr ⟨m, hm, rfl⟩
    · exact Or.inl (hinternals r hr)
  intro r' hr' hasset
  rcases hsplit r' hr' with hnative | ⟨m', hm', rfl⟩
  · exact hnative.tokenId
  · rcases hsplit r hr with hnative | ⟨m, hm, rfl⟩
    · rw [hnative.assetId] at hasset
      exact absurd hasset (tokenAsset_ne_nativeEth _ _ _)
    · have hstandard : m'.2.standard = m.2.standard := tokenAsset_standard hasset
      have hnone : m.2.tokenId = none := by
        cases hid : m.2.tokenId with
        | none => rfl
        | some id =>
          have htext : id.toNat.repr = "" := by
            have htoken : tokenIdText m.2.tokenId = "" := htoken
            rwa [hid] at htoken
          have hlist := congrArg String.toList htext
          rw [Nat.toList_repr] at hlist
          exact absurd hlist Nat.toDigits_ne_nil
      have hnone' : m'.2.tokenId = none :=
        (hpairs m' hm').mpr (hstandard.trans ((hpairs m hm).mp hnone))
      change tokenIdText m'.2.tokenId = ""
      rw [hnone']
      rfl

/-! ## Amounts -/

theorem crosses_iff (r : AddressRelationshipRow) (pool : Address) (inbound : Bool) :
    crosses r pool inbound = true ↔
      if inbound then r.toAddress = addressText pool ∧ r.fromAddress ≠ addressText pool
      else r.fromAddress = addressText pool ∧ r.toAddress ≠ addressText pool := by
  unfold crosses
  cases inbound <;> simp

theorem amountUnder_directionalTotals (pool : Address) (asset : String) (inbound : Bool) :
    amountUnder (directionalTotals x.transaction.relationships pool inbound) asset =
      moved x.transaction.relationships pool asset inbound := by
  unfold directionalTotals
  rw [amountUnder_perm (List.perm_insertionSort _ _) asset,
    (relationships_fit x pool inbound).amountUnder_totals, directionalRelationships,
    amountUnder_filter_map, moved]
  refine congrArg List.sum (List.map_congr_left fun r _ => ?_)
  have hiff : (decide ((if inbound = true then r.toAddress = addressText pool ∧
        r.fromAddress ≠ addressText pool else r.fromAddress = addressText pool ∧
        r.toAddress ≠ addressText pool) ∧ r.tokenId = "") = true ∧
        (relationshipAmount r).1 = asset) ↔
      (crosses r pool inbound ∧ r.tokenId = "" ∧ r.assetId = asset) := by
    rw [decide_eq_true_iff, crosses_iff, and_assoc]
    rfl
  exact if_congr hiff rfl rfl

/-- A token that is fungible moves in the movements as it does in the rows. -/
theorem amountUnder_poolMovements {pool : Address} {asset : String} {inbound : Bool}
    (hfungible : Fungible x.transaction asset) (hnative : asset ≠ nativeEth x.context.network) :
    amountUnder ((poolMovements x.transaction.movements pool inbound).map movementAmount) asset =
      moved x.transaction.relationships pool asset inbound := by
  obtain ⟨pairs, natives, internals, hmovements, hrows, _, hnatives, hinternals⟩ := (linked x).rows
  have hzero : ∀ rows : List AddressRelationshipRow, (∀ r ∈ rows, NativeRow x.context r) →
      moved rows pool asset inbound = 0 := by
    intro rows hall
    refine List.sum_eq_zero fun n hn => ?_
    obtain ⟨r, hr, rfl⟩ := List.mem_map.mp hn
    exact if_neg fun h => hnative (h.2.2.symm.trans (hall r hr).assetId)
  have hmoved : moved x.transaction.relationships pool asset inbound =
      moved (pairs.map fun m => tokenRelationship x.context x.input m.1 m.2) pool asset
        inbound := by
    change moved x.transfers.relationships pool asset inbound = _
    have happend : ∀ xs ys, moved (xs ++ ys) pool asset inbound =
        moved xs pool asset inbound + moved ys pool asset inbound := by
      intro xs ys
      simp [moved]
    rw [hrows, happend, happend, hzero natives hnatives, hzero internals hinternals, Nat.zero_add,
      Nat.add_zero]
  have hfungible' : ∀ m ∈ pairs, tokenAsset x.context.network m.2.standard m.2.contract = asset →
      tokenIdText m.2.tokenId = "" := by
    intro m hm hasset
    refine hfungible (tokenRelationship x.context x.input m.1 m.2) ?_ hasset
    change _ ∈ x.transfers.relationships
    rw [hrows]
    exact List.mem_append_left _ (List.mem_append_right _ (List.mem_map.mpr ⟨m, hm, rfl⟩))
  rw [hmoved, poolMovements, amountUnder_filter_map, moved]
  change (x.transfers.movements.map _).sum = _
  rw [hmovements, List.map_map, List.map_map]
  refine congrArg List.sum (List.map_congr_left fun m hm => ?_)
  refine if_congr ?_ rfl rfl
  have htext : ∀ a b : Address, addressText a = addressText b ↔ a = b :=
    fun a b => ⟨addressText_inj, fun h => by rw [h]⟩
  have hdirection : (if inbound then decide (m.2.toAddress = pool ∧ m.2.fromAddress ≠ pool)
        else decide (m.2.fromAddress = pool ∧ m.2.toAddress ≠ pool)) =
      crosses (tokenRelationship x.context x.input m.1 m.2) pool inbound := by
    cases inbound <;> simp [crosses, tokenRelationship, relationshipRow, htext]
  change ((if inbound then decide (m.2.toAddress = pool ∧ m.2.fromAddress ≠ pool)
        else decide (m.2.fromAddress = pool ∧ m.2.toAddress ≠ pool)) = true ∧
      tokenAsset x.context.network m.2.standard m.2.contract = asset) ↔
    (crosses (tokenRelationship x.context x.input m.1 m.2) pool inbound = true ∧
      tokenIdText m.2.tokenId = "" ∧
      tokenAsset x.context.network m.2.standard m.2.contract = asset)
  rw [hdirection]
  exact ⟨fun h => ⟨h.1, hfungible' m hm h.2, h.2⟩, fun h => ⟨h.1, h.2.2⟩⟩

/-! ## The flows of an event -/

variable {x} {d : Digests} {registry : SemanticDecoderRegistry} {log : Log} {logIndex : Nat}

theorem directionalTotals_plain {pool : Address} {inbound : Bool} :
    ∀ flow ∈ directionalTotals x.transaction.relationships pool inbound,
      PlainAsset flow.1 ∧ Fungible x.transaction flow.1 := by
  intro flow hflow
  have hmem := (List.perm_insertionSort _ _).mem_iff.mp hflow
  obtain ⟨⟨e, he, hkey⟩, _⟩ := mem_totals.mp (show (flow.1, flow.2) ∈ _ from hmem)
  obtain ⟨r, hr, rfl⟩ := List.mem_map.mp he
  obtain ⟨hr, hcrosses⟩ := List.mem_filter.mp hr
  have htoken : r.tokenId = "" := (of_decide_eq_true hcrosses).2
  have hasset : r.assetId = flow.1 := hkey
  rw [← hasset]
  exact ⟨(relationships_plain x r hr).1, fungible_of_row x hr htoken⟩

/-- Of the two sides of an event one lists what crossed the pool's border. -/
theorem eventFlows_directional {row : SemanticAmlEventRow} {pool : Address} (side : Bool)
    (hassetIn : row.assetIn = onSide side
      (directionalRelationshipFlows x.transaction.relationships pool side).1)
    (hamountIn : row.amountIn = onSide side
      (directionalRelationshipFlows x.transaction.relationships pool side).2.1)
    (hassetOut : row.assetOut = onSide (!side)
      (directionalRelationshipFlows x.transaction.relationships pool side).1)
    (hamountOut : row.amountOut = onSide (!side)
      (directionalRelationshipFlows x.transaction.relationships pool side).2.1) (inbound : Bool) :
    eventFlows row inbound = if side = inbound then
      directionalTotals x.transaction.relationships pool inbound else [] := by
  have hlisted : listed
      (directionalRelationshipFlows x.transaction.relationships pool side).1
      (directionalRelationshipFlows x.transaction.relationships pool side).2.1 =
      directionalTotals x.transaction.relationships pool side :=
    listed_intercalate _ fun flow hflow => (directionalTotals_plain flow hflow).1
  unfold eventFlows
  rw [hassetIn, hamountIn, hassetOut, hamountOut]
  cases side <;> cases inbound <;> first | exact hlisted | rfl

theorem eventFlows_liquidity (eventType : EventType) (family : Family) (inbound : Bool) :
    eventFlows (decodeLiquidity d registry x.transaction log logIndex eventType family) inbound =
      if (eventType = .liquidityAdd : Bool) = inbound then
        directionalTotals x.transaction.relationships log.address inbound else [] :=
  eventFlows_directional (decide (eventType = .liquidityAdd)) rfl rfl rfl rfl inbound

theorem eventFlows_mixer (topic0 : B256) (contract : ProtocolContractRow) (eventType : EventType)
    (subject : Address) (inbound : Bool) :
    eventFlows (mixerEvent d x.transaction log logIndex topic0 contract eventType subject) inbound =
      if (eventType = .mixerDeposit : Bool) = inbound then
        directionalTotals x.transaction.relationships log.address inbound else [] :=
  eventFlows_directional (decide (eventType = .mixerDeposit)) rfl rfl rfl rfl inbound

/-- The asset of the movements, where there is one. -/
theorem poolTotals_oneAsset {pool : Address} {inbound : Bool}
    (h : OneAsset (poolMovements x.transaction.movements pool inbound)) :
    ∃ asset, PlainAsset asset ∧
      (∀ m ∈ poolMovements x.transaction.movements pool inbound, m.assetId = asset) ∧
      poolTotals x.transaction.movements pool inbound = [(asset, amountUnder
        ((poolMovements x.transaction.movements pool inbound).map movementAmount) asset)] := by
  obtain ⟨hne, hsame⟩ := h
  obtain ⟨m, hm⟩ := List.exists_mem_of_ne_nil _ hne
  have hall : ∀ m' ∈ poolMovements x.transaction.movements pool inbound, m'.assetId = m.assetId :=
    fun m' hm' => hsame m' hm' m hm
  refine ⟨m.assetId, movements_plain x m (List.mem_filter.mp hm).1, hall, ?_⟩
  refine totals_eq_singleton.mpr ⟨⟨by simpa using hne, fun e he => ?_⟩, ?_⟩
  · obtain ⟨m', hm', rfl⟩ := List.mem_map.mp he
    exact hall m' hm'
  · rw [Nat.mod_eq_of_lt (movements_fit x pool inbound m.assetId)]

theorem oneAsset_of_poolTotals {pool : Address} {inbound : Bool} {flow : String × Nat}
    (h : poolTotals x.transaction.movements pool inbound = [flow]) :
    OneAsset (poolMovements x.transaction.movements pool inbound) := by
  obtain ⟨⟨hne, hall⟩, _⟩ := totals_eq_singleton.mp (show _ = [(flow.1, flow.2)] from h)
  refine ⟨by simpa using hne, fun m hm m' hm' => ?_⟩
  have hkey := hall (movementAmount m) (List.mem_map_of_mem hm)
  have hkey' := hall (movementAmount m') (List.mem_map_of_mem hm')
  exact hkey.trans hkey'.symm

theorem inferPoolFlows_none {pool : Address} (h : ¬ SwapsWhole x.transaction pool) :
    inferPoolFlows x.transaction.movements pool = none := by
  unfold inferPoolFlows
  split
  · rename_i assetIn amountIn assetOut amountOut hin hout
    exact absurd ⟨oneAsset_of_poolTotals hin, oneAsset_of_poolTotals hout⟩ h
  · rfl

variable (d registry logIndex) in
/-- A swap reports the whole flow of a pool with one asset on each side. -/
theorem eventFlows_swap {family : Family} (hfamily : family ≠ .balancerVault)
    (hwhole : SwapsWhole x.transaction log.address) (inbound : Bool) : ∃ asset,
      (∀ m ∈ poolMovements x.transaction.movements log.address inbound, m.assetId = asset) ∧
      eventFlows (decodeSwap d registry x.transaction log logIndex family) inbound =
        [(asset, amountUnder ((poolMovements x.transaction.movements log.address inbound).map
          movementAmount) asset)] := by
  obtain ⟨assetIn, hplainIn, hallIn, hin⟩ := poolTotals_oneAsset hwhole.1
  obtain ⟨assetOut, hplainOut, hallOut, hout⟩ := poolTotals_oneAsset hwhole.2
  have hflows : inferPoolFlows x.transaction.movements log.address =
      some ((assetIn, (amountUnder ((poolMovements x.transaction.movements log.address true).map
        movementAmount) assetIn).repr), (assetOut, (amountUnder ((poolMovements
          x.transaction.movements log.address false).map movementAmount) assetOut).repr)) := by
    unfold inferPoolFlows
    rw [hin, hout]
  have hswap : (swapFlows x.transaction log family).1 =
      ((assetIn, (amountUnder ((poolMovements x.transaction.movements log.address true).map
        movementAmount) assetIn).repr), (assetOut, (amountUnder ((poolMovements
          x.transaction.movements log.address false).map movementAmount) assetOut).repr)) := by
    unfold swapFlows
    rw [if_neg hfamily, hflows]
  unfold eventFlows
  cases inbound with
  | true =>
    refine ⟨assetIn, hallIn, ?_⟩
    change listed (swapFlows x.transaction log family).1.1.1
      (swapFlows x.transaction log family).1.1.2 = _
    rw [hswap]
    exact listed_single _ hplainIn
  | false =>
    refine ⟨assetOut, hallOut, ?_⟩
    change listed (swapFlows x.transaction log family).1.2.1
      (swapFlows x.transaction log family).1.2.2 = _
    rw [hswap]
    exact listed_single _ hplainOut

theorem eventFlows_swap_nil {family : Family} (hfamily : family ≠ .balancerVault)
    (hwhole : ¬ SwapsWhole x.transaction log.address) (inbound : Bool) :
    eventFlows (decodeSwap d registry x.transaction log logIndex family) inbound = [] := by
  have hswap : (swapFlows x.transaction log family).1 = (("", ""), ("", "")) := by
    unfold swapFlows
    rw [if_neg hfamily, inferPoolFlows_none hwhole]
  unfold eventFlows
  cases inbound with
  | true =>
    change listed (swapFlows x.transaction log family).1.1.1
      (swapFlows x.transaction log family).1.1.2 = []
    rw [hswap]
    rfl
  | false =>
    change listed (swapFlows x.transaction log family).1.2.1
      (swapFlows x.transaction log family).1.2.2 = []
    rw [hswap]
    rfl

/-! ## What a log attributes -/

theorem counted_swap {family : Family} : counted (decodeSwap d registry x.transaction log logIndex
    family) = true ↔ family ≠ .balancerVault := by
  simp [counted, ofBalancerVault, decodeSwap]

theorem counted_liquidity {e : EventSignature} {eventType : EventType} {family : Family}
    (h : kindOf e = .liquidity eventType family) :
    counted (decodeLiquidity d registry x.transaction log logIndex eventType family) = true := by
  have htype : eventType ≠ .bridgeTransfer := by cases e <;> cases h <;> decide
  change (decide (eventType ≠ .bridgeTransfer) && true) = true
  rw [decide_eq_true htype]
  rfl

theorem counted_mixer {e : EventSignature} {eventType : EventType} (h : kindOf e = .mixer eventType)
    {topic0 : B256} {contract : ProtocolContractRow} {subject : Address} :
    counted (mixerEvent d x.transaction log logIndex topic0 contract eventType subject) = true := by
  have htype : eventType ≠ .bridgeTransfer := by cases e <;> cases h <;> decide
  change (decide (eventType ≠ .bridgeTransfer) && true) = true
  rw [decide_eq_true htype]
  rfl

theorem counted_bridge {row : SemanticAmlEventRow} (h : row.eventType = .bridgeTransfer) :
    counted row = false := by
  simp [counted, h]

theorem movement_ne_nativeEth {m : ObservedMovement} (hm : m ∈ x.transaction.movements) :
    m.assetId ≠ nativeEth x.context.network := by
  obtain ⟨pairs, natives, internals, hmovements, _⟩ := (linked x).rows
  change m ∈ x.transfers.movements at hm
  rw [hmovements] at hm
  obtain ⟨pair, _, rfl⟩ := List.mem_map.mp hm
  exact tokenAsset_ne_nativeEth _ _ _

variable (d registry log) in
/-- A log attributes the whole flow it reads. -/
theorem eventAmount_decoded {asset : String} (hfungible : Fungible x.transaction asset)
    (position : Nat) (inbound : Bool) :
    ((decodeLog d registry x.transaction (log, position)).elim 0 fun row =>
      eventAmount row asset inbound) =
      if reads d registry x.transaction log asset inbound then
        moved x.transaction.relationships log.address asset inbound else 0 := by
  by_cases hknown : ∃ e, log.topic0 = some (d.signature e)
  · obtain ⟨e, he⟩ := hknown
    have hkind := logKind_signature he
    unfold reads
    rw [hkind]
    cases h : kindOf e with
    | swap family =>
      rw [decodeLog_swap he h]
      change eventAmount _ asset inbound = if decide _ = true then _ else 0
      by_cases hfamily : family = .balancerVault
      · rw [eventAmount, if_neg fun hcounted => counted_swap.mp hcounted hfamily, if_neg]
        exact fun hreads => (of_decide_eq_true hreads).1 hfamily
      · rw [eventAmount, if_pos (counted_swap.mpr hfamily)]
        by_cases hwhole : SwapsWhole x.transaction log.address
        · obtain ⟨single, hall, hflows⟩ := eventFlows_swap d registry
            (logIndexOf (log, position)) hfamily hwhole inbound
          have hone : OneAsset (poolMovements x.transaction.movements log.address inbound) := by
            cases inbound
            · exact hwhole.2
            · exact hwhole.1
          obtain ⟨m, hm⟩ := List.exists_mem_of_ne_nil _ hone.1
          rw [hflows, amountUnder_cons]
          by_cases hsingle : single = asset
          · have hasset : m.assetId = asset := (hall m hm).trans hsingle
            have hnative : asset ≠ nativeEth x.context.network :=
              hasset ▸ movement_ne_nativeEth (List.mem_filter.mp hm).1
            rw [if_pos hsingle, if_pos (decide_eq_true ⟨hfamily, hwhole, m, hm, hasset⟩), hsingle,
              amountUnder_poolMovements x hfungible hnative]
            rfl
          · rw [if_neg hsingle, if_neg]
            · rfl
            · intro hreads
              obtain ⟨_, _, m', hm', hasset⟩ := of_decide_eq_true hreads
              exact hsingle ((hall m' hm').symm.trans hasset)
        · rw [eventFlows_swap_nil hfamily hwhole, if_neg]
          · rfl
          · exact fun hreads => hwhole (of_decide_eq_true hreads).2.1
    | liquidity eventType family =>
      rw [decodeLog_liquidity he h]
      change eventAmount _ asset inbound = if decide _ = true then _ else 0
      rw [eventAmount, if_pos (counted_liquidity h), eventFlows_liquidity]
      by_cases hside : (eventType = .liquidityAdd : Bool) = inbound
      · rw [if_pos hside, if_pos (decide_eq_true hside), amountUnder_directionalTotals]
      · rw [if_neg hside, if_neg fun hreads => hside (of_decide_eq_true hreads)]
        rfl
    | mixer eventType =>
      obtain ⟨contract, subject, hdecode⟩ := decodeLog_mixer registry
        x.transaction position he h
      rw [hdecode]
      change _ = if decide _ = true then _ else 0
      by_cases hmixer : isMixer registry log.address = true
      · rw [if_pos hmixer]
        change eventAmount _ asset inbound = _
        rw [eventAmount, if_pos (counted_mixer h), eventFlows_mixer]
        by_cases hside : (eventType = .mixerDeposit : Bool) = inbound
        · rw [if_pos hside, if_pos (decide_eq_true ⟨hmixer, hside⟩), amountUnder_directionalTotals]
        · rw [if_neg hside, if_neg fun hreads => hside (of_decide_eq_true hreads).2]
          rfl
      · rw [if_neg hmixer, if_neg fun hreads => hmixer (of_decide_eq_true hreads).1]
        rfl
    | bridge =>
      change _ = if false = true then _ else 0
      rw [if_neg (by decide)]
      cases hrow : decodeLog d registry x.transaction (log, position) with
      | none => rfl
      | some row =>
        change eventAmount row asset inbound = 0
        rw [eventAmount, counted_bridge (decodeLog_bridge he h hrow)]
        rfl
  · have hunknown : ∀ e, log.topic0 ≠ some (d.signature e) := fun e he => hknown ⟨e, he⟩
    unfold reads
    rw [decodeLog_unknown hunknown, logKind_unknown hunknown]
    rfl

theorem attributed_cons (row : SemanticAmlEventRow) (rows : List SemanticAmlEventRow)
    (pool : Address) (asset : String) (inbound : Bool) :
    attributed (row :: rows) pool asset inbound =
      (if row.protocolContract = addressText pool then eventAmount row asset inbound else 0) +
        attributed rows pool asset inbound := by
  unfold attributed
  by_cases hpool : row.protocolContract = addressText pool
  · simp [hpool]
  · simp [hpool]

/-- The part of one log in what its contract is attributed. -/
theorem attributed_log {asset : String} (hfungible : Fungible x.transaction asset) (log : Log)
    (position : Nat) (rows : List SemanticAmlEventRow) (pool : Address) (inbound : Bool) :
    attributed ((decodeLog d registry x.transaction (log, position)).toList ++ rows) pool asset
        inbound =
      (if log.address = pool ∧ reads d registry x.transaction log asset inbound then
        moved x.transaction.relationships pool asset inbound else 0) +
        attributed rows pool asset inbound := by
  have hlog := eventAmount_decoded d registry log hfungible position inbound
  cases hrow : decodeLog d registry x.transaction (log, position) with
  | none =>
    rw [hrow] at hlog
    change 0 = _ at hlog
    change attributed rows pool asset inbound = _
    by_cases hreads : log.address = pool ∧ reads d registry x.transaction log asset inbound
    · rw [if_pos hreads.2, hreads.1] at hlog
      rw [if_pos hreads, ← hlog, Nat.zero_add]
    · rw [if_neg hreads, Nat.zero_add]
  | some row =>
    rw [hrow] at hlog
    change eventAmount row asset inbound = _ at hlog
    change attributed (row :: rows) pool asset inbound = _
    have hemitted := (decodeLog_emitted hrow).1
    rw [attributed_cons, hlog]
    by_cases hpool : log.address = pool
    · rw [if_pos (hemitted.trans (by rw [hpool])), hpool]
      by_cases hreads : reads d registry x.transaction log asset inbound
      · rw [if_pos hreads, if_pos ⟨rfl, hreads⟩]
      · rw [if_neg hreads, if_neg fun h => hreads h.2]
    · rw [if_neg fun h => hpool (addressText_inj (hemitted.symm.trans h)), if_neg fun h => hpool h.1]

/-- What is attributed is what is moved, as often as it is read. -/
theorem attributed_eq {asset : String} (hfungible : Fungible x.transaction asset)
    (pool : Address) (inbound : Bool) :
    attributed (decodeTransaction d registry x.transaction).events pool asset inbound =
      (x.transaction.logs.filter fun log =>
        log.address = pool ∧ reads d registry x.transaction log asset inbound).length *
        moved x.transaction.relationships pool asset inbound := by
  have hlogs : ∀ (logs : List Log) (position : Nat),
      attributed ((logs.zipIdx position).filterMap (decodeLog d registry x.transaction)) pool asset
        inbound =
        (logs.filter fun log =>
          log.address = pool ∧ reads d registry x.transaction log asset inbound).length *
          moved x.transaction.relationships pool asset inbound := by
    intro logs
    induction logs with
    | nil => intro position; simp [attributed]
    | cons log rest ih =>
      intro position
      have hcons : ((log :: rest).zipIdx position).filterMap (decodeLog d registry x.transaction) =
          (decodeLog d registry x.transaction (log, position)).toList ++
            (rest.zipIdx (position + 1)).filterMap (decodeLog d registry x.transaction) := by
        rw [List.zipIdx_cons, List.filterMap_cons]
        cases decodeLog d registry x.transaction (log, position) <;> rfl
      rw [hcons, attributed_log hfungible, ih]
      by_cases hreads : log.address = pool ∧ reads d registry x.transaction log asset inbound
      · rw [if_pos hreads, List.filter_cons_of_pos (by simpa using hreads), List.length_cons,
          Nat.add_mul, Nat.one_mul, Nat.add_comm]
      · rw [if_neg hreads, List.filter_cons_of_neg (by simpa using hreads), Nat.zero_add]
  exact hlogs _ 0

/-! ## When the flows are conserved -/

theorem flows_fungible {position : Nat} {row : SemanticAmlEventRow}
    (hrow : decodeLog d registry x.transaction (log, position) = some row)
    (hcounted : counted row)
    (hswap : ∀ family, logKind d log = some (.swap family) → family ≠ .balancerVault →
      SwapsWhole x.transaction log.address →
      ∀ inbound, ∀ m ∈ poolMovements x.transaction.movements log.address inbound,
        Fungible x.transaction m.assetId)
    (inbound : Bool) : ∀ flow ∈ eventFlows row inbound, Fungible x.transaction flow.1 := by
  by_cases hknown : ∃ e, log.topic0 = some (d.signature e)
  · obtain ⟨e, he⟩ := hknown
    cases h : kindOf e with
    | swap family =>
      rw [decodeLog_swap he h] at hrow
      obtain rfl := Option.some.inj hrow
      have hfamily := counted_swap.mp hcounted
      by_cases hwhole : SwapsWhole x.transaction log.address
      · obtain ⟨asset, hall, hflows⟩ := eventFlows_swap d registry
          (logIndexOf (log, position)) hfamily hwhole inbound
        have hone : OneAsset (poolMovements x.transaction.movements log.address inbound) := by
          cases inbound
          · exact hwhole.2
          · exact hwhole.1
        obtain ⟨m, hm⟩ := List.exists_mem_of_ne_nil _ hone.1
        have hkind : logKind d log = some (.swap family) := by rw [logKind_signature he, h]
        rw [hflows]
        intro flow hflow
        rw [List.mem_singleton.mp hflow, ← hall m hm]
        exact hswap family hkind hfamily hwhole inbound m hm
      · rw [eventFlows_swap_nil hfamily hwhole]
        simp
    | liquidity eventType family =>
      rw [decodeLog_liquidity he h] at hrow
      obtain rfl := Option.some.inj hrow
      rw [eventFlows_liquidity]
      split
      · exact fun flow hflow => (directionalTotals_plain flow hflow).2
      · simp
    | mixer eventType =>
      obtain ⟨contract, subject, hdecode⟩ := decodeLog_mixer registry
        x.transaction position he h
      rw [hdecode] at hrow
      split at hrow
      · obtain rfl := Option.some.inj hrow
        rw [eventFlows_mixer]
        split
        · exact fun flow hflow => (directionalTotals_plain flow hflow).2
        · simp
      · cases hrow
    | bridge =>
      rw [counted_bridge (decodeLog_bridge he h hrow)] at hcounted
      cases hcounted
  · rw [decodeLog_unknown fun e he => hknown ⟨e, he⟩] at hrow
    cases hrow

theorem mem_events {row : SemanticAmlEventRow} :
    row ∈ (decodeTransaction d registry x.transaction).events ↔
      ∃ log position, (log, position) ∈ x.transaction.logs.zipIdx ∧
        decodeLog d registry x.transaction (log, position) = some row := by
  change row ∈ x.transaction.logs.zipIdx.filterMap (decodeLog d registry x.transaction) ↔ _
  rw [List.mem_filterMap]
  exact ⟨fun ⟨⟨log, position⟩, hmem, hrow⟩ => ⟨log, position, hmem, hrow⟩,
    fun ⟨log, position, hmem, hrow⟩ => ⟨(log, position), hmem, hrow⟩⟩

theorem conserved_of_readOnce (hsha : Function.Injective d.stableHash)
    (h : ReadOnce d registry x.transaction) : Conserved d registry x.transaction where
  ids := eventIds_nodup hsha
  bounded pool asset inbound hfungible := by
    rw [attributed_eq hfungible]
    rcases Nat.eq_zero_or_pos (moved x.transaction.relationships pool asset inbound) with
      hzero | hpos
    · rw [hzero, Nat.mul_zero]
    · have hle := Nat.mul_le_mul_right (moved x.transaction.relationships pool asset inbound)
        (h.single pool asset inbound hfungible hpos)
      rwa [Nat.one_mul] at hle
  fungible event hevent hcounted inbound := by
    obtain ⟨log, position, hmem, hrow⟩ := mem_events.mp hevent
    exact flows_fungible hrow hcounted
      (h.fungible log (List.fst_mem_of_mem_zipIdx hmem)) inbound
  fits pool inbound := ⟨movements_fit x pool inbound, relationships_fit x pool inbound⟩

theorem readOnce_of_conserved (h : Conserved d registry x.transaction) :
    ReadOnce d registry x.transaction where
  single pool asset inbound hfungible hpos := by
    have hbound := h.bounded pool asset inbound hfungible
    rw [attributed_eq hfungible] at hbound
    refine Nat.le_of_mul_le_mul_right ?_ hpos
    rwa [Nat.one_mul]
  fungible log hlog family hkind hfamily hwhole inbound m hm := by
    obtain ⟨e, he, hswap⟩ := signature_of_logKind hkind
    obtain ⟨position, hposition⟩ := List.mem_iff_getElem?.mp hlog
    have hposition := List.mk_mem_zipIdx_iff_getElem?.mpr hposition
    have hrow : decodeLog d registry x.transaction (log, position) = some (decodeSwap d registry
        x.transaction log (logIndexOf (log, position)) family) := decodeLog_swap he hswap
    obtain ⟨asset, hall, hflows⟩ := eventFlows_swap d registry
      (logIndexOf (log, position)) hfamily hwhole inbound
    have hall' := h.fungible _ (mem_events.mpr ⟨log, position, hposition, hrow⟩)
      (counted_swap.mpr hfamily) inbound
    rw [hflows] at hall'
    rw [hall m hm]
    exact hall' _ (List.mem_singleton.mpr rfl)

end

/-- The events of a transaction conserve its flows just when each flow is read
by one log at most, and none of an NFT by a swap. -/
theorem conserved_iff_readOnce {d : Digests} (hsha : Function.Injective d.stableHash)
    (registry : SemanticDecoderRegistry) (x : ExtractedTransaction) :
    Conserved d registry x.transaction ↔ ReadOnce d registry x.transaction :=
  ⟨readOnce_of_conserved, conserved_of_readOnce hsha⟩

/-! ## Two swaps of one pool -/

def pair : Address := 0x0d4a11d5eeaac28ec3f61d100daf4d40471f1852
def trader : Address := 0x0a
def tokenA : Address := 0xdac17f958d2ee523a2206206994597c13d831ec7
def tokenB : Address := 0xc02aaa39b223fe8d0a0e5c4f27ead9083c756cc2

def transferTopic : B256 := 0xddf252ad1be2c89b69c2b068fc378daa952ba7f163c4a11628f55a4df523b3ef

def mainnet : BlockContext where
  network := "eip155:1"
  blockHash := 0xb1
  blockNumber := 20000000
  blockTimestampUnixMs := 1717281407000
  sha256 := id
  topics := ⟨transferTopic, 0xc3d58168c5ae7397731d063d5bbf3d657854427343f4c083240f7aacaa2d0f62,
    0x4a39dc06d4c0dbc64b70af90fd698a233a518aa5d07e595d983b8c0526c8f7fb⟩

def transferLog (token source target : Address) (amount : U256) : Log where
  address := token
  topics := [transferTopic, addressWord source, addressWord target]
  data := abiWords [amount]
  logIndex := none
  removed := false

def swapLog (amountIn amountOut : U256) : Log where
  address := pair
  topics := [publishedDigests.signature .swapV2, addressWord trader, addressWord trader]
  data := abiWords [amountIn, 0, 0, amountOut]
  logIndex := none
  removed := false

/-- The trader sells ten and then five of the one token to the pair. -/
def twoSwaps : TransactionInput where
  txHash := 0xf1
  transactionIndex := 0
  sender := trader
  destination := some pair
  value := 0
  status := true
  logs := [transferLog tokenA trader pair 10, transferLog tokenB pair trader 9, swapLog 10 9,
    transferLog tokenA trader pair 5, transferLog tokenB pair trader 4, swapLog 5 4]

theorem twoSwaps_extracted : (extractTransfers mainnet twoSwaps none).toOption.isSome := by
  decide +kernel

def twoSwapsTransaction : ExtractedTransaction where
  context := mainnet
  configured := "eip155:1"
  network := by decide +kernel
  input := twoSwaps
  inputSelector := "0x"
  trace := none
  transfers := (extractTransfers mainnet twoSwaps none).toOption.get twoSwaps_extracted
  extracted := ok_get twoSwaps_extracted
  relationships_length := by decide +kernel

def soldAsset : String := "eip155:1/erc20:0xdac17f958d2ee523a2206206994597c13d831ec7"

theorem sold_fungible : Fungible twoSwapsTransaction.transaction soldAsset := by
  unfold Fungible
  decide +kernel

/-- Both events report the fifteen that were sold in all. -/
theorem flow_counted_twice : Function.Injective publishedDigests.stableHash ∧
    ¬ Conserved publishedDigests ⟨[]⟩ twoSwapsTransaction.transaction := by
  refine ⟨marked_injective, fun h => ?_⟩
  have hbound := h.bounded pair soldAsset true sold_fungible
  exact absurd hbound (by decide +kernel)

theorem conserved_iff_readOnce_twoSwaps :
    Conserved publishedDigests ⟨[]⟩ twoSwapsTransaction.transaction ↔
      ReadOnce publishedDigests ⟨[]⟩ twoSwapsTransaction.transaction :=
  conserved_iff_readOnce marked_injective ⟨[]⟩ twoSwapsTransaction

end AmlReal.Ethereum.FlowConservation
