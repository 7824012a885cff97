import AmlReal.Bsc.TransferEdges
import AmlReal.Foundations.JoinedText

/-! # Relationship ids

An id is the digest of a text that joins the fields of its relationship. The
fields are free of the separator, so the text gives them back, and with them
the transfer. -/

namespace AmlReal.Bsc.TransferIdentity
open AmlReal.Foundations AmlReal.Foundations.Checks AmlReal.Foundations.EntryList
open AmlReal.Foundations.JoinedText AmlReal.Foundations.Json AmlReal.Warehouse.Values
open AmlReal.Bsc.Model AmlReal.Bsc.Transfers
open AmlReal.Bsc.TransferEdges

/-! ## Trace addresses -/

theorem plain_traceKey (address : List Nat) : PlainText (traceKey address) :=
  notMem_intercalate (by decide) (notMem_reprs (by decide))

theorem traceKey_inj {a b : List Nat} (h : traceKey a = traceKey b) : a = b :=
  join_repr_injective (c := '.') (by decide) h

/-! ## The text of an id -/

/-- The fields an id is made of. -/
def fields (r : CanonicalRelationship) : List String :=
  [BSC_NETWORK_ID, r.txHash, r.transactionIndex.repr, r.eventIndex.repr, r.eventSubIndex.repr,
    traceKey r.traceAddress, r.fromAddress, r.toAddress, r.assetId, r.tokenId, r.transferType]

/-- What tells relationships of one block apart. -/
structure Site where
  transactionIndex : Nat
  eventIndex : Nat
  eventSubIndex : Nat
  traceAddress : List Nat
  transferType : String

def siteOf (r : CanonicalRelationship) : Site :=
  ⟨r.transactionIndex, r.eventIndex, r.eventSubIndex, r.traceAddress, r.transferType⟩

/-- The relationship carries the digest of its own fields. -/
structure Identified (sha256 : String → String) (r : CanonicalRelationship) : Prop where
  id : r.relationshipId = sha256 ("|".intercalate (fields r))
  txHash : PlainText r.txHash
  fromAddress : PlainText r.fromAddress
  toAddress : PlainText r.toAddress
  assetId : PlainText r.assetId
  tokenId : PlainText r.tokenId
  transferType : PlainText r.transferType

section
variable {sha256 : String → String}

theorem Identified.plain {r : CanonicalRelationship} (h : Identified sha256 r) :
    ∀ s ∈ fields r, PlainText s := by
  unfold fields
  simp only [List.forall_mem_cons, List.not_mem_nil, false_implies, implies_true, and_true]
  exact ⟨by decide, h.txHash, plain_repr _, plain_repr _, plain_repr _, plain_traceKey _,
    h.fromAddress, h.toAddress, h.assetId, h.tokenId, h.transferType⟩

theorem site_of_id (hsha : Function.Injective sha256) {a b : CanonicalRelationship}
    (ha : Identified sha256 a) (hb : Identified sha256 b)
    (h : a.relationshipId = b.relationshipId) : siteOf a = siteOf b := by
  rw [ha.id, hb.id] at h
  have hfields : fields a = fields b :=
    intercalate_inj (c := '|') ha.plain hb.plain (by simp [fields]) (by simp [fields]) (hsha h)
  simp only [fields, List.cons.injEq, and_true, true_and] at hfields
  obtain ⟨_, htx, hevent, hsub, htrace, _, _, _, _, htype⟩ := hfields
  simp only [siteOf, Site.mk.injEq]
  exact ⟨decimal_inj htx, decimal_inj hevent, decimal_inj hsub, traceKey_inj htrace, htype⟩

theorem relationship_id {txHash : String} {transactionIndex eventIndex eventSubIndex : Nat}
    {traceAddress : List Nat} {fromAddress toAddress assetId tokenId : String} {amount : Nat}
    {transferType : String} :
    (relationship sha256 txHash transactionIndex eventIndex eventSubIndex traceAddress fromAddress
      toAddress assetId tokenId amount transferType).relationshipId =
      sha256 ("|".intercalate (fields (relationship sha256 txHash transactionIndex eventIndex
        eventSubIndex traceAddress fromAddress toAddress assetId tokenId amount transferType))) := by
  simp only [relationship, stableId, fields, String.intercalate_cons_cons,
    String.intercalate_singleton, String.append_assoc]
  rfl

/-! ## Every source identifies its edge -/

theorem digitChar_ne_bar {n : Nat} (h : n < 16) : Nat.digitChar n ≠ '|' := by
  have hall : ∀ m : Fin 16, Nat.digitChar m ≠ '|' := by decide
  exact hall ⟨n, h⟩

theorem topicAddress_plain {log : CanonicalLog} {index : Nat} {address : String}
    (h : topicAddress log index = .ok address) : PlainText address := by
  obtain ⟨topic, _, h⟩ := bind_ok h
  obtain ⟨_, _, h⟩ := bind_ok h
  obtain rfl := Except.ok.inj h
  unfold PlainText encodeHex
  rw [String.toList_ofList, List.mem_append, List.mem_flatMap]
  rintro (hzero | ⟨byte, _, hbyte⟩)
  · exact absurd hzero (by decide)
  · simp only [List.mem_cons, List.not_mem_nil, or_false] at hbyte
    rcases hbyte with he | he
    · exact digitChar_ne_bar (Nat.mod_lt _ (by omega)) he.symm
    · exact digitChar_ne_bar (Nat.mod_lt _ (by omega)) he.symm

/-- The ends of a movement are read from topics. -/
def PlainMovement (m : TokenMovement) : Prop := PlainText m.fromAddress ∧ PlainText m.toAddress

theorem decodeErc20OrErc721_plain {log : CanonicalLog} {m : TokenMovement}
    (h : decodeErc20OrErc721 log = .ok m) : PlainMovement m := by
  obtain ⟨fromAddress, hfrom, h⟩ := bind_ok h
  obtain ⟨toAddress, hto, h⟩ := bind_ok h
  obtain ⟨data, _, h⟩ := bind_ok h
  split at h
  · obtain ⟨_, _, h⟩ := bind_ok h
    obtain rfl := Except.ok.inj h
    exact ⟨topicAddress_plain hfrom, topicAddress_plain hto⟩
  · obtain ⟨_, _, h⟩ := bind_ok h
    obtain rfl := Except.ok.inj h
    exact ⟨topicAddress_plain hfrom, topicAddress_plain hto⟩
  · cases h

theorem decodeErc1155Single_plain {log : CanonicalLog} {m : TokenMovement}
    (h : decodeErc1155Single log = .ok m) : PlainMovement m := by
  obtain ⟨_, _, h⟩ := bind_ok h
  obtain ⟨_, _, h⟩ := bind_ok h
  obtain ⟨_, _, h⟩ := bind_ok h
  obtain ⟨fromAddress, hfrom, h⟩ := bind_ok h
  obtain ⟨toAddress, hto, h⟩ := bind_ok h
  obtain ⟨_, _, h⟩ := bind_ok h
  obtain ⟨_, _, h⟩ := bind_ok h
  obtain rfl := Except.ok.inj h
  exact ⟨topicAddress_plain hfrom, topicAddress_plain hto⟩

theorem decodeErc1155Batch_plain {log : CanonicalLog} {movements : List TokenMovement}
    (h : decodeErc1155Batch log = .ok movements) : ∀ m ∈ movements, PlainMovement m := by
  obtain ⟨_, _, h⟩ := bind_ok h
  obtain ⟨fromAddress, hfrom, h⟩ := bind_ok h
  obtain ⟨toAddress, hto, h⟩ := bind_ok h
  obtain ⟨_, _, h⟩ := bind_ok h
  obtain ⟨_, _, h⟩ := bind_ok h
  obtain ⟨_, _, h⟩ := bind_ok h
  obtain ⟨_, _, h⟩ := bind_ok h
  obtain ⟨_, _, h⟩ := bind_ok h
  obtain ⟨_, _, h⟩ := bind_ok h
  obtain ⟨_, _, h⟩ := bind_ok h
  intro m hm
  obtain ⟨item, _, hitem⟩ := mem_of_mapM h m hm
  obtain ⟨_, _, hitem⟩ := bind_ok hitem
  obtain rfl := Except.ok.inj hitem
  exact ⟨topicAddress_plain hfrom, topicAddress_plain hto⟩

theorem decodeTokenLog_plain {log : CanonicalLog} {movements : List TokenMovement}
    (h : decodeTokenLog log = .ok movements) : ∀ m ∈ movements, PlainMovement m := by
  unfold decodeTokenLog at h
  split at h
  · obtain ⟨m, hm, rfl⟩ := map_ok h
    simpa using decodeErc20OrErc721_plain hm
  · split at h
    · obtain ⟨m, hm, rfl⟩ := map_ok h
      simpa using decodeErc1155Single_plain hm
    · split at h
      · exact decodeErc1155Batch_plain h
      · obtain rfl := Except.ok.inj h
        simp

theorem normalizeEvmAddress_plain {value normal : String}
    (h : normalizeEvmAddress value = .ok normal) : PlainText normal := by
  obtain ⟨hex, _, h⟩ := bind_ok h
  obtain ⟨_, hchecks, h⟩ := bind_ok h
  obtain rfl := Except.ok.inj h
  refine plain_append (by decide) (plain_toAsciiLowercase fun hbar => ?_)
  exact absurd (List.all_eq_true.mp (ensure_ok hchecks).2 _ hbar) (by decide)

theorem normalizeTokenId_plain {value normal : String} (h : normalizeTokenId value = .ok normal) :
    PlainText normal := by
  obtain ⟨_, hchecks, h⟩ := bind_ok h
  obtain rfl := Except.ok.inj h
  split
  · decide
  · exact plain_of_digits fun c hc => List.all_eq_true.mp (ensure_ok hchecks).2 c
      ((List.dropWhile_sublist _).subset hc)

theorem asStr_plain (standard : TokenStandard) : PlainText standard.asStr := by
  cases standard <;> decide

theorem tokenAsset_plain {standard : TokenStandard} {contract tokenId assetId : String}
    (h : tokenAsset standard contract tokenId = .ok assetId) : PlainText assetId := by
  obtain ⟨address, haddress, h⟩ := bind_ok h
  have hnamed : PlainText (BSC_NETWORK_ID ++ "/" ++ standard.asStr ++ ":" ++ address) :=
    plain_append (plain_append (plain_append (plain_append (by decide) (by decide))
      (asStr_plain standard)) (by decide)) (normalizeEvmAddress_plain haddress)
  have hnumbered : ∀ id, normalizeTokenId tokenId = .ok id →
      PlainText (BSC_NETWORK_ID ++ "/" ++ standard.asStr ++ ":" ++ address ++ "/" ++ id) :=
    fun id hid => plain_append (plain_append hnamed (by decide)) (normalizeTokenId_plain hid)
  cases standard with
  | erc20 => obtain rfl := Except.ok.inj h; exact hnamed
  | erc721 =>
    obtain ⟨id, hid, h⟩ := bind_ok h
    obtain rfl := Except.ok.inj h
    exact hnumbered id hid
  | erc1155 =>
    obtain ⟨id, hid, h⟩ := bind_ok h
    obtain rfl := Except.ok.inj h
    exact hnumbered id hid

theorem destination_plain {tx : CanonicalTransaction} (h : PlainTransaction tx) :
    PlainText (destination tx) := by
  unfold destination
  split
  · exact h.contractAddress
  · exact h.toAddress

theorem movementTokenId_plain (m : TokenMovement) : PlainText (movementTokenId m) := by
  unfold movementTokenId
  cases m.tokenId with
  | none => show PlainText ""; decide
  | some n => exact plain_repr n

theorem nativeTransfer_identified {tx : CanonicalTransaction} (h : PlainTransaction tx) :
    Identified sha256 (nativeTransfer sha256 tx) :=
  ⟨relationship_id, h.hash, h.fromAddress, destination_plain h, by show PlainText nativeBnb; decide,
    by show PlainText ""; decide, by show PlainText "native"; decide⟩

theorem tokenTransfer_identified {log : CanonicalLog} {m : TokenMovement} {assetId : String}
    (hhash : PlainText log.txHash) (hm : PlainMovement m) (hasset : PlainText assetId) :
    Identified sha256 (tokenTransfer sha256 log m assetId) :=
  ⟨relationship_id, hhash, hm.1, hm.2, hasset, movementTokenId_plain m, asStr_plain m.standard⟩

theorem frameEdge_identified {tx : CanonicalTransaction} {frame : RpcCallFrame} {address : List Nat}
    {r : CanonicalRelationship} (htx : PlainTransaction tx)
    (h : FrameEdge sha256 tx frame address r) : Identified sha256 r := by
  obtain ⟨_, _, _, _, _, _, _, _, _, _, _, hfrom, _, hto, _, rfl⟩ := h
  exact ⟨relationship_id, htx.hash, normalizeFixedHex_plain hfrom, normalizeFixedHex_plain hto,
    by show PlainText nativeBnb; decide, by show PlainText ""; decide,
    by show PlainText "internal"; decide⟩

end

end AmlReal.Bsc.TransferIdentity
