import AmlReal.Ethereum.Semantic

/-! # Extracted transfers

What the extraction promises the semantic decoder: the movements of a
transaction are those of its token relationships, in their order; every other
relationship moves the native asset; a token is identified in an asset or by a
token id, the same way in all rows of the asset. -/

namespace AmlReal.Ethereum.ExtractedTransfers
open AmlReal.Foundations.Checks AmlReal.Foundations.FixedWidth AmlReal.Foundations.Text
open AmlReal.Ethereum.Movements AmlReal.Ethereum.Semantic

/-! ## Texts -/

/-- The characters of a network id. -/
def isNetworkChar (c : Char) : Bool := isReferenceChar c || c = ':'

theorem splitOnce_toList {c : Char} {s before after : String}
    (h : splitOnce c s = some (before, after)) : s.toList = before.toList ++ c :: after.toList := by
  unfold splitOnce at h
  have hspan := List.span_eq_takeWhile_dropWhile (fun d => decide (d ≠ c)) s.toList
  have happend := List.takeWhile_append_dropWhile (p := fun d => decide (d ≠ c)) (l := s.toList)
  split at h
  · cases h
  · rename_i first d rest heq
    rw [hspan] at heq
    obtain ⟨hfirst, hrest⟩ := Prod.mk.inj heq
    have hd : d = c := by
      have hhead := List.head?_dropWhile_not (fun d => decide (d ≠ c)) s.toList
      rw [hrest] at hhead
      simpa using hhead
    obtain ⟨rfl, rfl⟩ := Prod.mk.inj (Option.some.inj h)
    rw [String.toList_ofList, String.toList_ofList, ← happend, hfirst, hrest, hd]

theorem networkFromStr_chars {value network : String} (h : networkFromStr value = some network) :
    ∀ c ∈ network.toList, isNetworkChar c = true := by
  unfold networkFromStr at h
  dsimp only at h
  split at h
  · cases h
  · rename_i ns reference hsplit
    split at h
    · rename_i hvalid
      obtain ⟨_, _, hns, hreference⟩ := hvalid
      obtain rfl := Option.some.inj h
      rw [splitOnce_toList hsplit]
      refine List.forall_mem_append.mpr ⟨fun c hc => ?_, List.forall_mem_cons.mpr ⟨rfl, ?_⟩⟩
      · have hchar := List.all_eq_true.mp hns c hc
        simp [isNetworkChar, isReferenceChar, hchar]
      · intro c hc
        have hchar := List.all_eq_true.mp hreference c hc
        simp [isNetworkChar, hchar]
    · cases h

theorem mem_dropWhile {p : Char → Bool} {cs : List Char} {c : Char} (hc : c ∈ cs)
    (hp : p c = false) : c ∈ cs.dropWhile p := by
  have happend := List.takeWhile_append_dropWhile (p := p) (l := cs)
  rw [← happend, List.mem_append] at hc
  rcases hc with hc | hc
  · rw [List.all_eq_true.mp List.all_takeWhile c hc] at hp
    cases hp
  · exact hc

/-- What a network id is parsed from has no separator either. -/
theorem networkFromStr_bar {value network : String} (h : networkFromStr value = some network) :
    '|' ∉ value.toList := by
  intro hbar
  have hnetwork : network = (trim value).toLower := by
    unfold networkFromStr at h
    dsimp only at h
    split at h
    · cases h
    · split at h
      · exact (Option.some.inj h).symm
      · cases h
  have htrim : '|' ∈ (trim value).toList := by
    rw [trim, trimMatches, String.toList_ofList, List.mem_reverse]
    refine mem_dropWhile (List.mem_reverse.mpr (mem_dropWhile hbar ?_)) ?_ <;> decide
  have hlower : '|' ∈ network.toList := by
    rw [hnetwork]
    show '|' ∈ (String.map Char.toLower (trim value)).toList
    rw [String.toList_map]
    exact List.mem_map.mpr ⟨'|', htrim, rfl⟩
  exact absurd (networkFromStr_chars h '|' hlower) (by decide)

/-- The characters of an asset id. -/
def isAssetChar (c : Char) : Bool := isNetworkChar c || c = '/'

theorem digitChar_isAssetChar {d : Nat} (h : d < 16) : isAssetChar (Nat.digitChar d) = true := by
  have hall : ∀ m : Fin 16, isAssetChar (Nat.digitChar m) = true := by decide
  exact hall ⟨d, h⟩

theorem addressText_chars (address : Address) :
    ∀ c ∈ (addressText address).toList, isAssetChar c = true := by
  intro c hc
  rcases mem_hexText hc with rfl | ⟨d, hd, rfl⟩
  · decide
  · exact digitChar_isAssetChar hd

theorem asStr_chars (standard : TokenStandard) :
    ∀ c ∈ standard.asStr.toList, isAssetChar c = true := by
  have hall : standard.asStr.toList.all isAssetChar = true := by cases standard <;> rfl
  exact List.all_eq_true.mp hall

section
variable {network : String} (hnetwork : ∀ c ∈ network.toList, isNetworkChar c = true)
include hnetwork

theorem network_isAssetChar : ∀ c ∈ network.toList, isAssetChar c = true := by
  intro c hc
  simp [isAssetChar, hnetwork c hc]

theorem nativeEth_chars : ∀ c ∈ (nativeEth network).toList, isAssetChar c = true := by
  rw [nativeEth, String.toList_append]
  exact List.forall_mem_append.mpr ⟨network_isAssetChar hnetwork, List.all_eq_true.mp rfl⟩

theorem tokenAsset_chars (standard : TokenStandard) (contract : Address) :
    ∀ c ∈ (tokenAsset network standard contract).toList, isAssetChar c = true := by
  unfold tokenAsset
  simp only [String.toList_append]
  refine List.forall_mem_append.mpr ⟨List.forall_mem_append.mpr
    ⟨network_isAssetChar hnetwork, List.all_eq_true.mp rfl⟩, List.forall_mem_append.mpr
    ⟨List.forall_mem_append.mpr ⟨asStr_chars standard, List.all_eq_true.mp rfl⟩, addressText_chars contract⟩⟩

end

theorem nativeEth_ne (network : String) : nativeEth network ≠ "" := by
  intro h
  have hlist := congrArg String.toList h
  rw [nativeEth, String.toList_append] at hlist
  exact absurd (List.append_eq_nil_iff.mp hlist).2 (by decide)

/-- The text of an asset names its standard. -/
theorem tokenAsset_standard {network : String} {s s' : TokenStandard} {a a' : Address}
    (h : tokenAsset network s a = tokenAsset network s' a') : s = s' := by
  unfold tokenAsset at h
  have hlist := congrArg String.toList h
  simp only [String.toList_append, List.append_assoc] at hlist
  have hrest := List.append_cancel_left (List.append_cancel_left hlist)
  cases s <;> cases s' <;> first | rfl | simp [TokenStandard.asStr] at hrest

theorem tokenAsset_ne_nativeEth (network : String) (standard : TokenStandard) (a : Address) :
    tokenAsset network standard a ≠ nativeEth network := by
  intro h
  unfold tokenAsset nativeEth at h
  have hlist := congrArg String.toList h
  simp only [String.toList_append, List.append_assoc] at hlist
  have hrest := List.append_cancel_left hlist
  cases standard <;> simp [TokenStandard.asStr] at hrest

/-! ## Token movements -/

/-- Only a fungible movement has no token id. -/
def Identified (m : TokenMovement) : Prop := m.tokenId = none ↔ m.standard = .erc20

theorem decodeErc20OrErc721_identified {log : Log} {m : TokenMovement}
    (h : decodeErc20OrErc721 log = some m) : Identified m := by
  unfold decodeErc20OrErc721 at h
  simp only [Option.bind_eq_bind, Option.bind_eq_some_iff] at h
  obtain ⟨_, _, _, _, _, _, _, _, h⟩ := h
  split at h
  · split at h
    · obtain rfl := Option.some.inj h
      exact ⟨fun _ => rfl, fun _ => rfl⟩
    · cases h
  · split at h
    · obtain rfl := Option.some.inj h
      exact ⟨nofun, nofun⟩
    · cases h
  · cases h

theorem decodeErc1155Single_identified {log : Log} {m : TokenMovement}
    (h : decodeErc1155Single log = some m) : Identified m := by
  unfold decodeErc1155Single at h
  split at h
  · cases h
  · simp only [Option.bind_eq_bind, Option.bind_eq_some_iff] at h
    obtain ⟨_, _, _, _, _, _, _, _, _, _, _, _, h⟩ := h
    obtain rfl := Option.some.inj h
    exact ⟨nofun, nofun⟩

theorem decodeErc1155Batch_identified {log : Log} :
    ∀ m ∈ decodeErc1155Batch log, Identified m := by
  unfold decodeErc1155Batch
  cases hbatch : erc1155Batch log with
  | none => simp
  | some movements =>
    unfold erc1155Batch at hbatch
    split at hbatch
    · cases hbatch
    · simp only [Option.bind_eq_bind, Option.bind_eq_some_iff] at hbatch
      obtain ⟨_, _, _, _, _, _, _, _, _, _, _, _, _, _, _, _, _, _, _, _, hbatch⟩ := hbatch
      split at hbatch
      · cases hbatch
      · obtain rfl := Option.some.inj hbatch
        intro m hm
        obtain ⟨item, _, hitem⟩ := List.mem_filterMap.mp hm
        unfold batchMovement at hitem
        split at hitem
        · obtain rfl := Option.some.inj hitem
          exact ⟨nofun, nofun⟩
        · cases hitem

theorem tokenMovements_identified {topics : TransferTopics} {log : Log} :
    ∀ m ∈ tokenMovements topics log, Identified m := by
  unfold tokenMovements
  split
  · simp
  · split
    · intro m hm
      exact decodeErc20OrErc721_identified (Option.mem_toList.mp hm)
    · split
      · intro m hm
        exact decodeErc1155Single_identified (Option.mem_toList.mp hm)
      · split
        · exact decodeErc1155Batch_identified
        · simp

/-! ## Native rows -/

section
variable {c : BlockContext}

structure NativeRow (c : BlockContext) (r : AddressRelationshipRow) : Prop where
  assetId : r.assetId = nativeEth c.network
  tokenId : r.tokenId = ""
  amount : r.amount < 2 ^ 256

theorem nativeRow {origin : TransferOrigin} {fromAddress toAddress : Address} {amount : U256}
    {kind : String} :
    NativeRow c (relationshipRow c origin fromAddress toAddress (nativeEth c.network) none amount
      kind) :=
  ⟨rfl, rfl, amount.isLt⟩

theorem nativeRelationships_native (tx : TransactionInput) :
    ∀ r ∈ nativeRelationships c tx, NativeRow c r := by
  unfold nativeRelationships
  split
  · intro r hr
    obtain ⟨toAddress, _, rfl⟩ := List.mem_map.mp hr
    exact nativeRow
  · simp

theorem frameRelationships_native {tx : TransactionInput} {typ : String} {fromAddress : Address}
    {toAddress : Option Address} {value : Option U256} {traceAddress : List Nat} :
    ∀ r ∈ frameRelationships c tx typ fromAddress toAddress value traceAddress,
      NativeRow c r := by
  unfold frameRelationships
  split
  · split
    · split
      · intro r hr
        rw [List.mem_singleton.mp hr]
        exact nativeRow
      · simp
    · simp
  · simp

mutual

theorem appendCallFrame_native {tx : TransactionInput} : (frame : CallFrame) →
    (address : List Nat) → (rows : List AddressRelationshipRow) →
    appendCallFrame c tx frame address = .ok rows → ∀ r ∈ rows, NativeRow c r
  | .mk typ fromAddress toAddress value error revertReason calls, address, rows, h => by
    unfold appendCallFrame at h
    split at h
    · obtain rfl := Except.ok.inj h
      simp
    · obtain ⟨inner, hinner, h⟩ := bind_ok h
      obtain rfl := Except.ok.inj h
      exact List.forall_mem_append.mpr ⟨frameRelationships_native,
        appendCallFrames_native calls 0 address inner hinner⟩

theorem appendCallFrames_native {tx : TransactionInput} : (frames : List CallFrame) →
    (index : Nat) → (address : List Nat) → (rows : List AddressRelationshipRow) →
    appendCallFrames c tx frames index address = .ok rows → ∀ r ∈ rows, NativeRow c r
  | [], index, address, rows, h => by
    unfold appendCallFrames at h
    obtain rfl := Except.ok.inj h
    simp
  | child :: rest, index, address, rows, h => by
    unfold appendCallFrames at h
    obtain ⟨i, hi, h⟩ := bind_ok h
    obtain ⟨first, hfirst, h⟩ := bind_ok h
    obtain ⟨others, hothers, h⟩ := bind_ok h
    obtain rfl := Except.ok.inj h
    exact List.forall_mem_append.mpr ⟨appendCallFrame_native child (address ++ [i]) first hfirst,
      appendCallFrames_native rest (index + 1) address others hothers⟩

end

theorem internalRelationships_native {tx : TransactionInput} {trace : Option TransactionTrace}
    {rows : List AddressRelationshipRow} (h : internalRelationships c tx trace = .ok rows) :
    ∀ r ∈ rows, NativeRow c r := by
  unfold internalRelationships at h
  split at h
  · obtain rfl := Except.ok.inj h
    simp
  · rename_i trace
    split at h
    · obtain ⟨_, _, h⟩ := bind_ok h
      exact appendCallFrames_native trace.calls 0 [] rows h
    · obtain rfl := Except.ok.inj h
      simp

/-! ## The whole transaction -/

/-- The rows of a transaction, told apart: those of the token movements and
those of the native asset. -/
structure Linked (c : BlockContext) (tx : TransactionInput) (transfers : Transfers) : Prop where
  rows : ∃ (pairs : List (Nat × TokenMovement)) (natives internals : List AddressRelationshipRow),
    transfers.movements = pairs.map (fun m => observedMovement c m.1 m.2) ∧
    transfers.relationships =
      natives ++ pairs.map (fun m => tokenRelationship c tx m.1 m.2) ++ internals ∧
    (∀ m ∈ pairs, Identified m.2) ∧
    (∀ r ∈ natives, NativeRow c r) ∧ ∀ r ∈ internals, NativeRow c r

theorem logMovements_identified {item : Log × Nat} {pairs : List (Nat × TokenMovement)}
    (h : logMovements c item = .ok pairs) : ∀ m ∈ pairs, Identified m.2 := by
  unfold logMovements at h
  obtain ⟨_, _, h⟩ := bind_ok h
  obtain ⟨logIndex, _, h⟩ := bind_ok h
  obtain rfl := Except.ok.inj h
  intro m hm
  obtain ⟨movement, hmovement, rfl⟩ := List.mem_map.mp hm
  exact tokenMovements_identified movement (List.mem_filter.mp hmovement).1

theorem extractTransfers_linked {tx : TransactionInput} {trace : Option TransactionTrace}
    {transfers : Transfers} (h : extractTransfers c tx trace = .ok transfers) :
    Linked c tx transfers := by
  unfold extractTransfers at h
  obtain ⟨moved, hmoved, h⟩ := bind_ok h
  obtain ⟨internal, hinternal, h⟩ := bind_ok h
  obtain rfl := Except.ok.inj h
  refine ⟨moved.flatten, _, internal, rfl, rfl, fun m hm => ?_,
    nativeRelationships_native tx, internalRelationships_native hinternal⟩
  obtain ⟨pairs, hpairs, hm⟩ := List.mem_flatten.mp hm
  obtain ⟨item, _, hitem⟩ := mem_of_mapM hmoved pairs hpairs
  exact logMovements_identified hitem m hm

end

end AmlReal.Ethereum.ExtractedTransfers
