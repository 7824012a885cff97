import AmlReal.Foundations.JoinedText
import AmlReal.Ethereum.BlockSources
import AmlReal.Ethereum.ExtractedTransfers

/-! # Ids of relationships

An id is the digest of a text that joins fields of its row. The fields are free
of the separator, so the text gives them back, and no two transfers of one
transaction agree in them. -/

namespace AmlReal.Ethereum.TransferIds
open AmlReal.Foundations AmlReal.Foundations.Checks AmlReal.Foundations.FixedWidth
open AmlReal.Foundations.JoinedText AmlReal.Ethereum.Movements AmlReal.Ethereum.StandardLogs
open AmlReal.Ethereum.ExtractedTransfers AmlReal.Ethereum.BlockExtraction
open AmlReal.Ethereum.BlockSources

/-! ## Plain texts -/

/-- Free of the separator of an identity. -/
def Plain (s : String) : Prop := '|' ∉ s.toList

instance (s : String) : Decidable (Plain s) := inferInstanceAs (Decidable (¬ _))

theorem plain_of_assetChars {s : String} (h : ∀ c ∈ s.toList, isAssetChar c = true) : Plain s :=
  fun hbar => absurd (h '|' hbar) (by decide)

theorem plain_append {a b : String} (ha : Plain a) (hb : Plain b) : Plain (a ++ b) := by
  unfold Plain
  rw [String.toList_append, List.mem_append]
  exact not_or.mpr ⟨ha, hb⟩

theorem plain_repr (n : Nat) : Plain n.repr := notMem_repr (by decide) n

theorem plain_hexText (n v : Nat) : Plain (hexText n v) := by
  refine plain_of_assetChars fun c hc => ?_
  rcases mem_hexText hc with rfl | ⟨d, hd, rfl⟩
  · decide
  · exact digitChar_isAssetChar hd

theorem plain_tokenId (tokenId : Option U256) : Plain (tokenIdText tokenId) := by
  cases tokenId with
  | none => exact List.not_mem_nil
  | some id => exact plain_repr id.toNat

theorem movementKind_mem (standard : TokenStandard) (fromAddress toAddress : Address) :
    movementKind standard fromAddress toAddress ∈ ["erc20", "erc20_mint", "erc20_burn", "erc721",
      "erc721_mint", "erc721_burn", "erc1155", "erc1155_mint", "erc1155_burn"] := by
  unfold movementKind
  cases standard <;> split_ifs <;> decide

theorem plain_movementKind (standard : TokenStandard) (fromAddress toAddress : Address) :
    Plain (movementKind standard fromAddress toAddress) := by
  have hall : ∀ kind ∈ ["erc20", "erc20_mint", "erc20_burn", "erc721", "erc721_mint",
      "erc721_burn", "erc1155", "erc1155_mint", "erc1155_burn"], '|' ∉ kind.toList := by decide
  exact hall _ (movementKind_mem standard fromAddress toAddress)

/-- No token transfer is of another source's type. -/
theorem movementKind_ne (standard : TokenStandard) (fromAddress toAddress : Address) :
    movementKind standard fromAddress toAddress ≠ "native_external" ∧
      movementKind standard fromAddress toAddress ≠ "native_internal" ∧
        movementKind standard fromAddress toAddress ≠ "validator_withdrawal" := by
  have hmem := movementKind_mem standard fromAddress toAddress
  refine ⟨?_, ?_, ?_⟩ <;> intro h <;> rw [h] at hmem <;> exact absurd hmem (by decide)

theorem hashText_ne_empty (hash : B256) : hashText hash ≠ "" := by
  intro h
  have hlength := length_hexText 64 hash.toNat
  rw [show hexText 64 hash.toNat = "" from h] at hlength
  cases hlength

theorem hashText_ne_system (hash : B256) : hashText hash ≠ "system" := by
  intro h
  have hlength := length_hexText 64 hash.toNat
  rw [show hexText 64 hash.toNat = "system" from h] at hlength
  exact absurd hlength (by decide)

theorem addressText_injective : Function.Injective addressText := fun a b h =>
  BitVec.eq_of_toNat_eq (hexText_inj (n := 40) a.isLt b.isLt h)

theorem hashText_injective : Function.Injective hashText := fun a b h =>
  BitVec.eq_of_toNat_eq (hexText_inj (n := 64) a.isLt b.isLt h)

/-! ## The text of an id -/

/-- The fields an id is made of. -/
def identityFields (r : AddressRelationshipRow) : List String :=
  [r.networkId, r.blockNumber.repr, if r.txHash = "" then "system" else r.txHash,
    r.transactionIndex.repr, r.eventIndex.repr, r.eventSubIndex.repr,
    ".".intercalate (r.traceAddress.map Nat.repr), r.networkId ++ ":" ++ r.fromAddress,
    r.networkId ++ ":" ++ r.toAddress, r.assetId, r.tokenId, r.transferType]

/-- What tells the relationships of one block apart. -/
structure Site where
  txHash : String
  eventIndex : Nat
  eventSubIndex : Nat
  traceAddress : List Nat
  toAddress : String
  transferType : String

def siteOf (r : AddressRelationshipRow) : Site :=
  ⟨r.txHash, r.eventIndex, r.eventSubIndex, r.traceAddress, r.toAddress, r.transferType⟩

def Apart (a b : AddressRelationshipRow) : Prop := siteOf a ≠ siteOf b

/-- The relationship carries the digest of its own fields. -/
structure Identified (c : BlockContext) (r : AddressRelationshipRow) : Prop where
  id : r.relationshipId = c.sha256 ("|".intercalate (identityFields r))
  plain : ∀ s ∈ identityFields r, Plain s
  named : r.txHash ≠ "system"

section
variable {c : BlockContext}

theorem site_of_id (hsha : Function.Injective c.sha256) {a b : AddressRelationshipRow}
    (ha : Identified c a) (hb : Identified c b) (h : a.relationshipId = b.relationshipId) :
    siteOf a = siteOf b := by
  rw [ha.id, hb.id] at h
  have hfields : identityFields a = identityFields b := intercalate_inj (c := '|') ha.plain hb.plain
    (by simp [identityFields]) (by simp [identityFields]) (hsha h)
  simp only [identityFields, List.cons.injEq, and_true] at hfields
  obtain ⟨hnetwork, _, htx, _, hevent, hsub, htrace, _, hto, _, _, htype⟩ := hfields
  have htx : a.txHash = b.txHash := by
    split at htx <;> split at htx
    · rename_i hemptyA hemptyB
      rw [hemptyA, hemptyB]
    · exact absurd htx.symm hb.named
    · exact absurd htx ha.named
    · exact htx
  rw [hnetwork] at hto
  simp only [siteOf, Site.mk.injEq]
  exact ⟨htx, repr_injective hevent, repr_injective hsub, join_repr_injective (c := '.') rfl htrace,
    (String.append_right_inj _).mp hto, htype⟩

theorem relationshipRow_identified (hnetwork : ∀ x ∈ c.network.toList, isNetworkChar x = true)
    {origin : TransferOrigin} {fromAddress toAddress : Address} {assetId : String}
    {tokenId : Option U256} {amount : U256} {kind : String}
    (hasset : ∀ x ∈ assetId.toList, isAssetChar x = true) (hkind : Plain kind) :
    Identified c (relationshipRow c origin fromAddress toAddress assetId tokenId amount kind) := by
  have hplain : Plain c.network := plain_of_assetChars (network_isAssetChar hnetwork)
  have hends : ∀ address, Plain (c.network ++ ":" ++ addressText address) := fun address =>
    plain_append (plain_append hplain (by decide)) (plain_hexText 40 _)
  have hpath : Plain (".".intercalate (origin.traceAddress.map Nat.repr)) :=
    notMem_intercalate (by decide) (notMem_reprs (by decide))
  cases hhash : origin.txHash with
  | none =>
    refine ⟨?_, ?_, ?_⟩
    · simp only [relationshipRow, identityFields, hhash, Option.elim_none, if_true]
    · simp only [relationshipRow, identityFields, hhash, Option.elim_none, if_true,
        List.forall_mem_cons]
      exact ⟨hplain, plain_repr _, by decide, plain_repr _, plain_repr _, plain_repr _, hpath,
        hends _, hends _, plain_of_assetChars hasset, plain_tokenId _, hkind, by simp⟩
    · simp only [relationshipRow, hhash, Option.elim_none]
      decide
  | some hash =>
    refine ⟨?_, ?_, ?_⟩
    · simp only [relationshipRow, identityFields, hhash, Option.elim_some,
        if_neg (hashText_ne_empty hash)]
    · simp only [relationshipRow, identityFields, hhash, Option.elim_some,
        if_neg (hashText_ne_empty hash), List.forall_mem_cons]
      exact ⟨hplain, plain_repr _, plain_hexText 64 _, plain_repr _, plain_repr _, plain_repr _,
        hpath, hends _, hends _, plain_of_assetChars hasset, plain_tokenId _, hkind, by simp⟩
    · simp only [relationshipRow, hhash, Option.elim_some]
      exact hashText_ne_system hash

/-! ## The sites of one transaction -/

variable {tx : TransactionInput} {r : AddressRelationshipRow}

/-- The row is of the transaction. -/
def OfTransaction (tx : TransactionInput) (r : AddressRelationshipRow) : Prop :=
  r.txHash = hashText tx.txHash

theorem native_site (h : NativeTransfer c tx r) :
    OfTransaction tx r ∧ r.transferType = "native_external" := by
  obtain ⟨_, _, _, _, rfl⟩ := h
  exact ⟨rfl, rfl⟩

theorem frame_site {path : List Nat} {frame : CallFrame} (h : FrameTransfer c tx path frame r) :
    OfTransaction tx r ∧ r.traceAddress = path ∧ r.transferType = "native_internal" := by
  obtain ⟨typ, fromAddress, toAddress, value, error, revertReason, calls⟩ := frame
  obtain ⟨_, _, _, _, _, _, _, rfl⟩ := h
  exact ⟨rfl, rfl, rfl⟩

theorem identified_native (hnetwork : ∀ x ∈ c.network.toList, isNetworkChar x = true)
    (h : NativeTransfer c tx r) : Identified c r := by
  obtain ⟨_, _, _, _, rfl⟩ := h
  exact relationshipRow_identified hnetwork (nativeEth_chars hnetwork)
    (by show Plain "native_external"; decide)

theorem identified_token (hnetwork : ∀ x ∈ c.network.toList, isNetworkChar x = true)
    {position : Nat} {movement : TokenMovement} (h : TokenTransfer c tx position movement r) :
    Identified c r := by
  obtain ⟨_, _, _, _, _, rfl⟩ := h
  exact relationshipRow_identified hnetwork (tokenAsset_chars hnetwork _ _) (plain_movementKind _ _ _)

theorem identified_frame (hnetwork : ∀ x ∈ c.network.toList, isNetworkChar x = true)
    {path : List Nat} {frame : CallFrame} (h : FrameTransfer c tx path frame r) : Identified c r := by
  obtain ⟨typ, fromAddress, toAddress, value, error, revertReason, calls⟩ := frame
  obtain ⟨_, _, _, _, _, _, _, rfl⟩ := h
  exact relationshipRow_identified hnetwork (nativeEth_chars hnetwork)
    (by show Plain "native_internal"; decide)

theorem identified_withdrawal (hnetwork : ∀ x ∈ c.network.toList, isNetworkChar x = true)
    (withdrawal : Withdrawal) : Identified c (withdrawalRow c withdrawal) :=
  relationshipRow_identified hnetwork (nativeEth_chars hnetwork)
    (by show Plain "validator_withdrawal"; decide)

theorem mem_tokenRows_site (h : r ∈ tokenRows c tx) :
    OfTransaction tx r ∧ r.transferType ≠ "native_external" ∧ r.transferType ≠ "native_internal" := by
  obtain ⟨item, _, h⟩ := List.mem_flatMap.mp h
  obtain ⟨movement, _, rfl⟩ := List.mem_map.mp h
  obtain ⟨hexternal, hinternal, _⟩ :=
    movementKind_ne movement.standard movement.fromAddress movement.toAddress
  exact ⟨rfl, hexternal, hinternal⟩

theorem nativeRelationships_apart : (nativeRelationships c tx).Pairwise Apart := by
  unfold nativeRelationships
  split
  · cases tx.destination <;> simp
  · exact List.Pairwise.nil

/-- The log separates the movements of two, its positions those of one. -/
theorem tokenRows_apart (hlogs : (tx.logs.zipIdx.map logIndexAt).Nodup) :
    (tokenRows c tx).Pairwise Apart := by
  refine List.pairwise_flatMap.mpr ⟨fun item _ => ?_, ?_⟩
  · have hmovements := (tokenMovements_apart c.topics item.1).filter
      fun movement => decide (movement.amount ≠ 0)
    exact List.pairwise_map.mpr (hmovements.imp fun hne hsite => hne (congrArg Site.eventSubIndex hsite))
  · refine (List.pairwise_map.mp hlogs).imp fun hne a ha b hb hsite => hne ?_
    obtain ⟨_, _, rfl⟩ := List.mem_map.mp ha
    obtain ⟨_, _, rfl⟩ := List.mem_map.mp hb
    exact congrArg Site.eventIndex hsite

mutual

theorem appendCallFrame_apart : (frame : CallFrame) → (address : List Nat) →
    (rows : List AddressRelationshipRow) → appendCallFrame c tx frame address = .ok rows →
    rows.Pairwise fun a b => a.traceAddress ≠ b.traceAddress
  | .mk typ fromAddress toAddress value error revertReason calls, address, rows, h => by
    unfold appendCallFrame at h
    split at h
    · obtain rfl := Except.ok.inj h
      exact List.Pairwise.nil
    · obtain ⟨inner, hinner, h⟩ := bind_ok h
      obtain rfl := Except.ok.inj h
      refine List.pairwise_append.mpr ⟨?_, appendCallFrames_apart calls 0 address inner hinner, ?_⟩
      · unfold frameRelationships
        split
        · split
          · split
            · exact List.pairwise_singleton _ _
            · exact List.Pairwise.nil
          · exact List.Pairwise.nil
        · exact List.Pairwise.nil
      · -- the frame's own address is a proper prefix of those below it
        intro a ha b hb
        have hown := (mem_frameRelationships error revertReason calls).mp ha
        obtain ⟨i, path, _, _, hbelow⟩ := (appendCallFrames_ok calls 0 address inner hinner b).mp hb
        rw [(frame_site hown).2.1, (frame_site hbelow).2.1]
        simp

theorem appendCallFrames_apart : (frames : List CallFrame) → (index : Nat) →
    (address : List Nat) → (rows : List AddressRelationshipRow) →
    appendCallFrames c tx frames index address = .ok rows →
    rows.Pairwise fun a b => a.traceAddress ≠ b.traceAddress
  | [], index, address, rows, h => by
    unfold appendCallFrames at h
    obtain rfl := Except.ok.inj h
    exact List.Pairwise.nil
  | child :: rest, index, address, rows, h => by
    unfold appendCallFrames at h
    obtain ⟨i, hi, h⟩ := bind_ok h
    obtain ⟨first, hfirst, h⟩ := bind_ok h
    obtain ⟨others, hothers, h⟩ := bind_ok h
    obtain rfl := Except.ok.inj h
    rw [(toU32_ok hi).1] at hfirst
    refine List.pairwise_append.mpr ⟨appendCallFrame_apart child _ first hfirst,
      appendCallFrames_apart rest (index + 1) address others hothers, ?_⟩
    -- the index of the child separates its addresses from its siblings'
    intro a ha b hb
    obtain ⟨j, path, _, _, hother⟩ := (appendCallFrames_ok rest (index + 1) address others hothers b).mp hb
    rw [(frame_site hother).2.1]
    obtain ⟨_, hown | ⟨below, _, _, hbelow⟩⟩ := (appendCallFrame_ok child _ first hfirst a).mp ha
    · rw [(frame_site hown).2.1]
      intro he
      have hhead := (List.cons.inj (List.append_cancel_left he)).1
      omega
    · rw [(frame_site hbelow).2.1, List.append_assoc]
      intro he
      have hhead := (List.cons.inj (List.append_cancel_left he)).1
      omega

end

theorem internalRelationships_apart {trace : Option TransactionTrace}
    {rows : List AddressRelationshipRow} (h : internalRelationships c tx trace = .ok rows) :
    rows.Pairwise Apart := by
  unfold internalRelationships at h
  split at h
  · obtain rfl := Except.ok.inj h
    exact List.Pairwise.nil
  · rename_i trace
    split at h
    · obtain ⟨_, _, h⟩ := bind_ok h
      exact (appendCallFrames_apart trace.calls 0 [] rows h).imp
        fun hne hsite => hne (congrArg Site.traceAddress hsite)
    · obtain rfl := Except.ok.inj h
      exact List.Pairwise.nil

/-- The rows of a transaction lie at different sites, all its own. -/
theorem transfers_apart {trace : Option TransactionTrace} {transfers : Transfers}
    (h : extractTransfers c tx trace = .ok transfers)
    (hlogs : (tx.logs.zipIdx.map logIndexAt).Nodup) :
    transfers.relationships.Pairwise Apart := by
  obtain ⟨internal, hinternal, hrows, _⟩ := extractTransfers_ok h
  have hframes : ∀ r ∈ internal, r.transferType = "native_internal" := by
    intro r hr
    obtain ⟨_, _, _, _, _, _, htransfer⟩ := (mem_internalRelationships hinternal).mp hr
    exact (frame_site htransfer).2.2
  rw [hrows]
  refine List.pairwise_append.mpr ⟨List.pairwise_append.mpr
    ⟨nativeRelationships_apart, tokenRows_apart hlogs, ?_⟩, internalRelationships_apart hinternal, ?_⟩
  · intro a ha b hb hsite
    have htype := (native_site (mem_nativeRelationships.mp ha)).2
    exact (mem_tokenRows_site hb).2.1 ((congrArg Site.transferType hsite).symm.trans htype)
  · intro a ha b hb hsite
    have htype : a.transferType = "native_internal" :=
      (congrArg Site.transferType hsite).trans (hframes b hb)
    rcases List.mem_append.mp ha with ha | ha
    · rw [(native_site (mem_nativeRelationships.mp ha)).2] at htype
      exact absurd htype (by decide)
    · exact (mem_tokenRows_site ha).2.2 htype

theorem transfers_own {trace : Option TransactionTrace} {transfers : Transfers}
    (h : extractTransfers c tx trace = .ok transfers) :
    ∀ r ∈ transfers.relationships, OfTransaction tx r := by
  obtain ⟨internal, hinternal, hrows, _⟩ := extractTransfers_ok h
  rw [hrows]
  refine List.forall_mem_append.mpr ⟨List.forall_mem_append.mpr ⟨fun r hr => ?_, fun r hr => ?_⟩,
    fun r hr => ?_⟩
  · exact (native_site (mem_nativeRelationships.mp hr)).1
  · exact (mem_tokenRows_site hr).1
  · obtain ⟨_, _, _, _, _, _, htransfer⟩ := (mem_internalRelationships hinternal).mp hr
    exact (frame_site htransfer).1

end

end AmlReal.Ethereum.TransferIds
