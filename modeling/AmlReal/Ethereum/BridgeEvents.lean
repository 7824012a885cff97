import AmlReal.Foundations.LatestRows
import AmlReal.Ethereum.FlowConservation

/-! # Bridge events

Two networks list each other's standard bridge. A transfer is announced on both
of them, by the current event, the legacy event or both, and all of these carry
one correlation key. The canonical view keeps a row for every transaction,
direction and key: one for each transfer as long as no two transfers of the
transaction are alike. -/

namespace AmlReal.Ethereum.BridgeEvents
open AmlReal.Foundations AmlReal.Foundations.EntryList AmlReal.Foundations.FixedWidth
open AmlReal.Foundations.JoinedText AmlReal.Foundations.LatestRows
open AmlReal.Ethereum.Movements AmlReal.Ethereum.Semantic AmlReal.Ethereum.AbiLogs
open AmlReal.Ethereum.ExtractedTransfers
open AmlReal.Ethereum.MixerEvents (addressText_inj hashText_inj)

/-! ## Two networks -/

inductive End where
  | left
  | right
  deriving DecidableEq

def End.other : End → End
  | .left => .right
  | .right => .left

structure Network where
  networkId : String
  registry : SemanticDecoderRegistry
  bridge : Address
  contract : ProtocolContractRow

/-- Two networks whose registries list each other's standard bridge. -/
structure Bridge where
  network : End → Network
  valid : ∀ e, ∃ id, networkFromStr (network e).networkId = some id
  distinct : (network .left).networkId ≠ (network .right).networkId
  registered : ∀ e, (network e).registry.contract (network e).bridge = some (network e).contract
  protocolType : ∀ e, (network e).contract.protocolType = "bridge"
  decoder : ∀ e, (network e).contract.decoder = "op_standard_bridge_v1"
  remote : ∀ e, (network e).contract.remoteNetworkId = (network e.other).networkId
  protocol : (network .left).contract.protocol = (network .right).contract.protocol

/-! ## Transfers -/

/-- A transfer of ether, or of a token that has an address on each network. -/
structure Transfer where
  tokens : Option (End → Address)
  initiated : End
  fromAddress : Address
  toAddress : Address
  amount : U256
  positive : amount ≠ 0
  extraData : List Byte

inductive Layout where
  | current
  | legacy
  deriving DecidableEq

inductive Emission where
  | current
  | legacy
  | both
  deriving DecidableEq

def Emission.layouts : Emission → List Layout
  | .current => [.current]
  | .legacy => [.legacy]
  | .both => [.legacy, .current]

def erc20Signature : Direction → Layout → EventSignature
  | .outbound, .current => .opErc20BridgeInitiated
  | .outbound, .legacy => .opErc20DepositInitiated
  | .inbound, .current => .opErc20BridgeFinalized
  | .inbound, .legacy => .opErc20WithdrawalFinalized

def ethSignature : Direction → Layout → EventSignature
  | .outbound, .current => .opEthBridgeInitiated
  | .outbound, .legacy => .opEthDepositInitiated
  | .inbound, .current => .opEthBridgeFinalized
  | .inbound, .legacy => .opEthWithdrawalFinalized

/-- The encoding of `bytes extraData` after the words before it. -/
def bytesTail (offset : B256) (extraData : List Byte) : List Byte :=
  abiWords [offset, BitVec.ofNat 256 extraData.length] ++ extraData ++
    List.replicate ((32 - extraData.length % 32) % 32) 0

namespace Transfer

def direction (transfer : Transfer) (e : End) : Direction :=
  if transfer.initiated = e then .outbound else .inbound

section
variable (d : Digests) (b : Bridge) (transfer : Transfer) (e : End)

/-- The log of the bridge: `(address indexed localToken, address indexed
remoteToken, address indexed from, address to, uint256 amount, bytes)` for a
token, `(address indexed from, address indexed to, uint256 amount, bytes)` for
ether. -/
def log (layout : Layout) (logIndex : Option Nat) : Log where
  address := (b.network e).bridge
  topics := match transfer.tokens with
    | some token => [d.signature (erc20Signature (transfer.direction e) layout),
        addressWord (token e), addressWord (token e.other), addressWord transfer.fromAddress]
    | none => [d.signature (ethSignature (transfer.direction e) layout),
        addressWord transfer.fromAddress, addressWord transfer.toAddress]
  data := match transfer.tokens with
    | some _ => abiWords [addressWord transfer.toAddress, transfer.amount] ++
        bytesTail 96 transfer.extraData
    | none => abiWords [transfer.amount] ++ bytesTail 64 transfer.extraData
  logIndex := logIndex
  removed := false

def asset : String :=
  match transfer.tokens with
  | some token => evmAsset (b.network e).networkId "erc20" (token e)
  | none => (b.network e).networkId ++ "/native:eth"

def key : String :=
  bridgeCorrelationKey d (b.network .left).contract.protocol (b.network .left).networkId
    (b.network .right).networkId (transfer.asset b .left) (transfer.asset b .right)
    transfer.fromAddress transfer.toAddress transfer.amount

end

/-- In a party, the amount or the pair of tokens. -/
def Differs (transfer other : Transfer) : Prop :=
  transfer.fromAddress ≠ other.fromAddress ∨ transfer.toAddress ≠ other.toAddress ∨
    transfer.amount ≠ other.amount ∨ transfer.tokens ≠ other.tokens

end Transfer

/-- What a transaction shows of a transfer. -/
structure Leg where
  transfer : Transfer
  emission : Emission
  logIndex : Layout → Option Nat

/-! ## The canonical view -/

/-- `LIMIT 1 BY` -/
def viewKey (row : SemanticAmlEventRow) : String × String :=
  (row.networkId,
    if row.eventType = .bridgeTransfer ∧ row.correlationKey ≠ "" then
      "|".intercalate ["bridge", row.txHash, row.bridgeDirection, row.correlationKey]
    else "|".intercalate ["event", row.eventId])

/-- `semantic_aml_events_canonical` of the rows in the order of insertion -/
def semanticAmlEventsCanonical (rows : List SemanticAmlEventRow) : List SemanticAmlEventRow :=
  newest viewKey rows

/-! ## The statement -/

section
variable (d : Digests) (b : Bridge) (e : End) (t : SemanticTransaction)

def Leg.logs (leg : Leg) : List Log :=
  leg.emission.layouts.map fun layout => leg.transfer.log d b e layout (leg.logIndex layout)

def isBridge (registry : SemanticDecoderRegistry) (address : Address) : Bool :=
  (registry.contract address).any fun contract =>
    contract.protocolType = "bridge" && contract.decoder = "op_standard_bridge_v1"

/-- The bridge logs of the transaction are those of the legs. -/
structure Carries (legs : List Leg) : Prop where
  network : t.networkId = (b.network e).networkId
  logs : (t.logs.filter fun log => isBridge (b.network e).registry log.address) =
    legs.flatMap (Leg.logs d b e)

/-- The table holds what was decoded, and of the transaction all of it, in any
order and any number of times. -/
structure Stored (table : List SemanticAmlEventRow) : Prop where
  own : ∀ row, (row ∈ table ∧ row.networkId = t.networkId ∧ row.txHash = hashText t.txHash) ↔
    row ∈ (decodeTransaction d (b.network e).registry t).events
  decoded : ∀ row ∈ table, ∃ (registry : SemanticDecoderRegistry) (u : SemanticTransaction),
    row ∈ (decodeTransaction d registry u).events

def ofTransaction (row : SemanticAmlEventRow) : Bool :=
  row.networkId = t.networkId ∧ row.txHash = hashText t.txHash ∧ row.eventType = .bridgeTransfer

structure Correlated (legs : List Leg) (table : List SemanticAmlEventRow) : Prop where
  same : ∀ leg ∈ legs, ∀ (e' : End) (layout : Layout) (logIndex : Option Nat)
    (u : SemanticTransaction) (position : Nat), u.networkId = (b.network e').networkId →
    ∃ row, decodeLog d (b.network e').registry u
        (leg.transfer.log d b e' layout logIndex, position) = some row ∧
      row.bridgeDirection = (leg.transfer.direction e').text ∧
      row.correlationKey = leg.transfer.key d b
  opposite : ∀ leg ∈ legs, leg.transfer.direction e ≠ leg.transfer.direction e.other
  apart : ∀ leg ∈ legs, ∀ leg' ∈ legs, leg.transfer.Differs leg'.transfer →
    leg.transfer.key d b ≠ leg'.transfer.key d b
  /-- One row for each transfer. -/
  visible : (((semanticAmlEventsCanonical table).filter (ofTransaction t)).map
      fun row => (row.bridgeDirection, row.correlationKey)).Perm
    (legs.map fun leg => ((leg.transfer.direction e).text, leg.transfer.key d b))

/-- No two transfers go the same way and are alike. -/
def Distinguished (legs : List Leg) : Prop :=
  legs.Pairwise fun leg leg' => leg.transfer.initiated ≠ leg'.transfer.initiated ∨
    leg.transfer.Differs leg'.transfer

end

/-! ## The key of a transfer -/

section
variable {d : Digests} {b : Bridge}

theorem sortedEndpoints_comm (left right : String) :
    sortedEndpoints left right = sortedEndpoints right left := by
  unfold sortedEndpoints
  by_cases h : left ≤ right
  · by_cases h' : right ≤ left
    · have heq : left = right := String.le_antisymm h h'
      rw [heq]
    · rw [if_pos h, if_neg h']
  · have h' : right ≤ left := (String.le_total left right).resolve_left h
    rw [if_neg h, if_pos h']

theorem sortedEndpoints_eq (left right : String) :
    sortedEndpoints left right = [left, right] ∨ sortedEndpoints left right = [right, left] := by
  unfold sortedEndpoints
  split
  · exact Or.inl rfl
  · exact Or.inr rfl

theorem protocol_eq (b : Bridge) (e : End) :
    (b.network e).contract.protocol = (b.network .left).contract.protocol := by
  cases e
  · rfl
  · exact b.protocol.symm

/-- The key is the same from both ends. -/
theorem key_of_end (transfer : Transfer) (e : End) :
    bridgeCorrelationKey d (b.network e).contract.protocol (b.network e).networkId
      (b.network e.other).networkId (transfer.asset b e) (transfer.asset b e.other)
      transfer.fromAddress transfer.toAddress transfer.amount = transfer.key d b := by
  cases e with
  | left => rfl
  | right =>
    unfold Transfer.key bridgeCorrelationKey
    rw [protocol_eq b .right, sortedEndpoints_comm]
    rfl

theorem network_bar (b : Bridge) (e : End) : '|' ∉ (b.network e).networkId.toList := by
  obtain ⟨id, hid⟩ := b.valid e
  exact networkFromStr_bar hid

theorem bar_notMem {text : String} (h : ∀ c ∈ text.toList, isAssetChar c = true) :
    '|' ∉ text.toList :=
  fun hbar => absurd (h '|' hbar) (by decide)

theorem asset_bar (transfer : Transfer) (e : End) : '|' ∉ (transfer.asset b e).toList := by
  unfold Transfer.asset evmAsset
  cases transfer.tokens with
  | none =>
    simp only [String.toList_append, List.mem_append, not_or]
    exact ⟨network_bar b e, by decide⟩
  | some token =>
    simp only [String.toList_append, List.mem_append, not_or]
    exact ⟨⟨network_bar b e, by decide⟩, ⟨by decide, by decide⟩,
      bar_notMem (addressText_chars (token e))⟩

/-- The asset names the token. -/
theorem asset_inj {transfer other : Transfer}
    (h : ∀ e, transfer.asset b e = other.asset b e) : transfer.tokens = other.tokens := by
  unfold Transfer.asset at h
  cases htokens : transfer.tokens with
  | none =>
    cases hother : other.tokens with
    | none => rfl
    | some token =>
      have hleft := h .left
      rw [htokens, hother] at hleft
      exact absurd hleft.symm (tokenAsset_ne_nativeEth _ .erc20 (token .left))
  | some token =>
    cases hother : other.tokens with
    | none =>
      have hleft := h .left
      rw [htokens, hother] at hleft
      exact absurd hleft (tokenAsset_ne_nativeEth _ .erc20 (token .left))
    | some token' =>
      refine congrArg some (funext fun e => ?_)
      have he := h e
      rw [htokens, hother] at he
      exact addressText_inj (String.append_right_inj _ |>.mp (String.append_right_inj _ |>.mp he))

/-- The fields of a key, one end after the other. -/
def keyFields (b : Bridge) (transfer : Transfer) (first second : End) : List String :=
  [(b.network first).networkId, transfer.asset b first, (b.network second).networkId,
    transfer.asset b second, addressText transfer.fromAddress, addressText transfer.toAddress,
    transfer.amount.toNat.repr]

theorem keyFields_bar (transfer : Transfer) (first second : End) :
    ∀ s ∈ keyFields b transfer first second, '|' ∉ s.toList := by
  unfold keyFields
  simp only [List.forall_mem_cons, List.not_mem_nil, false_implies, implies_true, and_true]
  exact ⟨network_bar b first, asset_bar transfer first, network_bar b second,
    asset_bar transfer second, bar_notMem (addressText_chars _), bar_notMem (addressText_chars _),
    notMem_repr (by decide) _⟩

/-- The key in one of the two orders of the ends. -/
theorem key_eq (transfer : Transfer) : ∃ first second : End, first ≠ second ∧
    transfer.key d b = d.stableHash ((b.network .left).contract.protocol ++
      ("|" ++ "|".intercalate (keyFields b transfer first second))) := by
  unfold Transfer.key bridgeCorrelationKey
  rcases sortedEndpoints_eq ((b.network .left).networkId ++ "|" ++ transfer.asset b .left)
    ((b.network .right).networkId ++ "|" ++ transfer.asset b .right) with h | h
  · refine ⟨.left, .right, by decide, ?_⟩
    rw [h]
    simp [keyFields, String.intercalate_cons_cons, String.append_assoc]
  · refine ⟨.right, .left, by decide, ?_⟩
    rw [h]
    simp [keyFields, String.intercalate_cons_cons, String.append_assoc]

theorem network_inj {b : Bridge} {e e' : End}
    (h : (b.network e).networkId = (b.network e').networkId) : e = e' := by
  cases e <;> cases e' <;> first | rfl | exact absurd h b.distinct | exact absurd h.symm b.distinct

/-- Transfers with one key do not differ. -/
theorem key_inj (hsha : Function.Injective d.stableHash) {transfer other : Transfer}
    (h : transfer.key d b = other.key d b) : ¬ transfer.Differs other := by
  obtain ⟨first, second, hends, hkey⟩ := key_eq (d := d) (b := b) transfer
  obtain ⟨first', second', hends', hkey'⟩ := key_eq (d := d) (b := b) other
  rw [hkey, hkey'] at h
  have htext := (String.append_right_inj _).mp ((String.append_right_inj _).mp (hsha h))
  have hfields : keyFields b transfer first second = keyFields b other first' second' :=
    intercalate_inj (c := '|') (keyFields_bar transfer first second)
      (keyFields_bar other first' second') (by simp [keyFields]) (by simp [keyFields]) htext
  simp only [keyFields, List.cons.injEq, and_true] at hfields
  obtain ⟨hfirst, hassetFirst, hsecond, hassetSecond, hfrom, hto, hamount⟩ := hfields
  obtain rfl := network_inj hfirst
  obtain rfl := network_inj hsecond
  have hassets : ∀ e, transfer.asset b e = other.asset b e := by
    intro e
    have hcases : e = first ∨ e = second := by
      cases e <;> cases first <;> cases second <;> first | exact Or.inl rfl | exact Or.inr rfl |
        exact absurd rfl hends
    rcases hcases with rfl | rfl
    · exact hassetFirst
    · exact hassetSecond
  have hnat : transfer.amount.toNat = other.amount.toNat := Json.decimal_inj hamount
  rintro (hne | hne | hne | hne)
  · exact hne (addressText_inj hfrom)
  · exact hne (addressText_inj hto)
  · exact hne (BitVec.eq_of_toNat_eq hnat)
  · exact hne (asset_inj hassets)

/-! ## The events of a transfer -/

variable {t : SemanticTransaction}

theorem bridgeDirection_erc20 (direction : Direction) (layout : Layout) :
    bridgeDirection d (d.signature (erc20Signature direction layout)) = some direction := by
  cases direction <;> cases layout <;> simp [bridgeDirection, isAny, erc20Signature]

theorem bridgeDirection_eth (direction : Direction) (layout : Layout) :
    bridgeDirection d (d.signature (ethSignature direction layout)) = some direction := by
  cases direction <;> cases layout <;> simp [bridgeDirection, isAny, ethSignature]

theorem erc20BridgeFields_log {transfer : Transfer} {token : End → Address}
    (htokens : transfer.tokens = some token) (e : End) (layout : Layout) (logIndex : Option Nat)
    (contract : ProtocolContractRow) :
    erc20BridgeFields t (transfer.log d b e layout logIndex) contract =
      some ⟨transfer.fromAddress, transfer.toAddress, evmAsset t.networkId "erc20" (token e),
        evmAsset contract.remoteNetworkId "erc20" (token e.other), transfer.amount⟩ := by
  have htopics : (transfer.log d b e layout logIndex).topics =
      [d.signature (erc20Signature (transfer.direction e) layout), addressWord (token e),
        addressWord (token e.other), addressWord transfer.fromAddress] := by
    simp only [Transfer.log, htokens]
  obtain ⟨tail, hdata⟩ : ∃ tail, (transfer.log d b e layout logIndex).data =
      abiWords [addressWord transfer.toAddress, transfer.amount] ++ tail :=
    ⟨bytesTail 96 transfer.extraData, by simp only [Transfer.log, htokens]⟩
  have hto := word_abiWords [addressWord transfer.toAddress, transfer.amount] tail 0 rfl
  have hamount := word_abiWords [addressWord transfer.toAddress, transfer.amount] tail 1 rfl
  unfold erc20BridgeFields
  rw [htopics, hdata]
  simp [hto, hamount, wordValue_wordBytes]

theorem ethBridgeFields_log {transfer : Transfer} (htokens : transfer.tokens = none) (e : End)
    (layout : Layout) (logIndex : Option Nat) (contract : ProtocolContractRow) :
    ethBridgeFields t (transfer.log d b e layout logIndex) contract =
      some ⟨transfer.fromAddress, transfer.toAddress, t.networkId ++ "/native:eth",
        contract.remoteNetworkId ++ "/native:eth", transfer.amount⟩ := by
  have htopics : (transfer.log d b e layout logIndex).topics =
      [d.signature (ethSignature (transfer.direction e) layout),
        addressWord transfer.fromAddress, addressWord transfer.toAddress] := by
    simp only [Transfer.log, htokens]
  obtain ⟨tail, hdata⟩ : ∃ tail, (transfer.log d b e layout logIndex).data =
      abiWords [transfer.amount] ++ tail :=
    ⟨bytesTail 64 transfer.extraData, by simp only [Transfer.log, htokens]⟩
  have hamount := word_abiWords [transfer.amount] tail 0 rfl
  unfold ethBridgeFields
  rw [htopics, hdata]
  simp [hamount, wordValue_wordBytes]

/-- The log of a transfer says which way it goes and what it moves. -/
theorem log_fields (transfer : Transfer) {e : End} (ht : t.networkId = (b.network e).networkId)
    (layout : Layout) (logIndex : Option Nat) : ∃ topic0,
    (transfer.log d b e layout logIndex).topic0 = some topic0 ∧
    bridgeDirection d topic0 = some (transfer.direction e) ∧
    bridgeFields d t (transfer.log d b e layout logIndex) topic0 (b.network e).contract =
      some ⟨transfer.fromAddress, transfer.toAddress, transfer.asset b e,
        transfer.asset b e.other, transfer.amount⟩ := by
  unfold bridgeFields
  cases htokens : transfer.tokens with
  | none =>
    refine ⟨d.signature (ethSignature (transfer.direction e) layout), ?_,
      bridgeDirection_eth _ _, ?_⟩
    · simp [Log.topic0, Transfer.log, htokens]
    · have hother : isAny d (d.signature (ethSignature (transfer.direction e) layout))
          [.opErc20BridgeInitiated, .opErc20BridgeFinalized, .opErc20DepositInitiated,
            .opErc20WithdrawalFinalized] = false := by
        cases transfer.direction e <;> cases layout <;> simp [isAny, ethSignature]
      rw [hother, if_neg (by decide), ethBridgeFields_log htokens, ht, b.remote e]
      simp only [Transfer.asset, htokens]
  | some token =>
    refine ⟨d.signature (erc20Signature (transfer.direction e) layout), ?_,
      bridgeDirection_erc20 _ _, ?_⟩
    · simp [Log.topic0, Transfer.log, htokens]
    · have herc20 : isAny d (d.signature (erc20Signature (transfer.direction e) layout))
          [.opErc20BridgeInitiated, .opErc20BridgeFinalized, .opErc20DepositInitiated,
            .opErc20WithdrawalFinalized] = true := by
        cases transfer.direction e <;> cases layout <;> simp [isAny, erc20Signature]
      rw [herc20, if_pos rfl, erc20BridgeFields_log htokens, ht, b.remote e]
      simp only [Transfer.asset, htokens]

/-- Every log of a transfer becomes an event with the key of the transfer. -/
theorem decodeLog_transfer (transfer : Transfer) {e : End}
    (ht : t.networkId = (b.network e).networkId) (layout : Layout) (logIndex : Option Nat)
    (position : Nat) : ∃ row,
    decodeLog d (b.network e).registry t (transfer.log d b e layout logIndex, position) =
      some row ∧ ofTransaction t row = true ∧
    row.bridgeDirection = (transfer.direction e).text ∧
    row.correlationKey = transfer.key d b := by
  obtain ⟨topic0, htopic, hdirection, hfields⟩ := log_fields (d := d) transfer ht layout logIndex
  let log := transfer.log d b e layout logIndex
  let row := bridgeEvent d t log (logIndexOf (log, position)) topic0 (b.network e).contract
    (transfer.direction e) ⟨transfer.fromAddress, transfer.toAddress, transfer.asset b e,
      transfer.asset b e.other, transfer.amount⟩
  have hbridge : decodeOpBridge d t log (logIndexOf (log, position)) (b.network e).contract =
      some row := by
    unfold decodeOpBridge
    simp only [log, htopic, hdirection, hfields, Option.bind_eq_bind, Option.bind_some,
      if_neg transfer.positive]
    rfl
  have hregistered : decodeRegistered d (b.network e).registry t log
      (logIndexOf (log, position)) = some row := by
    unfold decodeRegistered
    rw [show (b.network e).registry.contract log.address = _ from b.registered e]
    change Option.or _ _ = _
    rw [if_pos ⟨b.protocolType e, b.decoder e⟩, hbridge, Option.some_or]
  refine ⟨row, ?_, ?_, rfl, ?_⟩
  · rw [decodeLog_eq htopic, hregistered, Option.some_or]
  · simp [ofTransaction, row, bridgeEvent]
  · change bridgeCorrelationKey d _ t.networkId (b.network e).contract.remoteNetworkId _ _ _ _ _ = _
    rw [ht, b.remote e]
    exact key_of_end transfer e

/-! ## The rows of the view -/

/-- A bridge event as the decoder writes it. -/
structure BridgeRow (row : SemanticAmlEventRow) : Prop where
  eventType : row.eventType = .bridgeTransfer
  txHash : ∃ hash, row.txHash = hashText hash
  direction : ∃ direction : Direction, row.bridgeDirection = direction.text
  key : row.correlationKey ≠ ""

theorem mixerCall_type {log : Log} {topic0 : B256} {call : EventType × Address}
    (h : mixerCall d t log topic0 = some call) : call.1 ≠ .bridgeTransfer := by
  unfold mixerCall at h
  split at h
  · obtain rfl := Option.some.inj h
    exact nofun
  · split at h
    · obtain rfl := Option.some.inj h
      exact nofun
    · cases h

theorem liquidityFamily_type {topic0 : B256} {found : EventType × Family}
    (h : liquidityFamily d topic0 = some found) : found.1 ≠ .bridgeTransfer := by
  unfold liquidityFamily at h
  repeat' split at h
  all_goals first
    | (obtain rfl := Option.some.inj h; exact nofun)
    | cases h

/-- Bridge events come from registered bridges. -/
theorem decodeLog_bridgeRow {registry : SemanticDecoderRegistry} {log : Log} {position : Nat}
    {row : SemanticAmlEventRow} (h : decodeLog d registry t (log, position) = some row)
    (htype : row.eventType = .bridgeTransfer) :
    BridgeRow row ∧ isBridge registry log.address = true ∧ row.networkId = t.networkId ∧
      row.txHash = hashText t.txHash := by
  unfold decodeLog at h
  split at h
  · cases h
  · rename_i topic0 htopic
    rcases Option.or_eq_some_iff.mp h with hregistered | ⟨_, htopic0⟩
    · unfold decodeRegistered at hregistered
      split at hregistered
      · cases hregistered
      · rename_i contract hcontract
        rcases Option.or_eq_some_iff.mp hregistered with hbridge | ⟨_, hmixer⟩
        · split at hbridge
          · rename_i hlisted
            unfold decodeOpBridge at hbridge
            simp only [Option.bind_eq_bind, Option.bind_eq_some_iff] at hbridge
            obtain ⟨_, _, direction, _, fields, _, hbridge⟩ := hbridge
            split at hbridge
            · cases hbridge
            · obtain rfl := Option.some.inj hbridge
              refine ⟨⟨rfl, ⟨_, rfl⟩, ⟨direction, rfl⟩, d.nonempty _⟩, ?_, rfl, rfl⟩
              change registry.contract log.address = some contract at hcontract
              rw [isBridge, hcontract]
              simpa using hlisted
          · cases hbridge
        · split at hmixer
          · unfold decodeTornadoMixer at hmixer
            simp only [Option.bind_eq_bind, Option.bind_eq_some_iff] at hmixer
            obtain ⟨_, _, call, hcall, hmixer⟩ := hmixer
            obtain rfl := Option.some.inj hmixer
            exact absurd htype (mixerCall_type hcall)
          · cases hmixer
    · unfold decodeTopic at htopic0
      split at htopic0
      · rename_i eventType family hfamily
        obtain rfl := Option.some.inj htopic0
        exact absurd htype (liquidityFamily_type hfamily)
      · obtain ⟨family, _, rfl⟩ := Option.map_eq_some_iff.mp htopic0
        cases htype

theorem mem_decoded {registry : SemanticDecoderRegistry} {row : SemanticAmlEventRow} :
    row ∈ (decodeTransaction d registry t).events ↔
      ∃ log position, (log, position) ∈ t.logs.zipIdx ∧
        decodeLog d registry t (log, position) = some row := by
  change row ∈ t.logs.zipIdx.filterMap (decodeLog d registry t) ↔ _
  rw [List.mem_filterMap]
  exact ⟨fun ⟨⟨log, position⟩, hmem, hrow⟩ => ⟨log, position, hmem, hrow⟩,
    fun ⟨log, position, hmem, hrow⟩ => ⟨(log, position), hmem, hrow⟩⟩

theorem direction_bar (direction : Direction) : '|' ∉ direction.text.toList := by
  cases direction <;> decide

theorem hashText_bar (hash : B256) : '|' ∉ (hashText hash).toList := by
  intro hbar
  rcases mem_hexText hbar with heq | ⟨digit, hdigit, heq⟩
  · exact absurd heq (by decide)
  · have hchar := digitChar_isAssetChar hdigit
    rw [← heq] at hchar
    exact absurd hchar (by decide)

/-- The key of the view gives back what identifies a bridge event. -/
theorem viewKey_bridge {row other : SemanticAmlEventRow} (hrow : BridgeRow row)
    (hother : other.eventType = .bridgeTransfer → BridgeRow other)
    (h : viewKey row = viewKey other) :
    other.eventType = .bridgeTransfer ∧ other.networkId = row.networkId ∧
      other.txHash = row.txHash ∧ other.bridgeDirection = row.bridgeDirection ∧
      other.correlationKey = row.correlationKey := by
  obtain ⟨hnetwork, htext⟩ := Prod.mk.inj h
  rw [if_pos ⟨hrow.eventType, hrow.key⟩] at htext
  by_cases hbridge : other.eventType = .bridgeTransfer ∧ other.correlationKey ≠ ""
  · rw [if_pos hbridge] at htext
    obtain ⟨_, ⟨hash', hhash'⟩, ⟨direction', hdirection'⟩, _⟩ := hother hbridge.1
    obtain ⟨_, ⟨hash, hhash⟩, ⟨direction, hdirection⟩, _⟩ := hrow
    have hlist := congrArg String.toList htext
    simp only [String.intercalate_cons_cons, String.intercalate_singleton, String.toList_append,
      List.append_assoc] at hlist
    have hrest := List.append_cancel_left (List.append_cancel_left hlist)
    rw [show "|".toList = ['|'] by decide] at hrest
    simp only [List.singleton_append] at hrest
    rw [hhash, hhash', hdirection, hdirection'] at hrest
    obtain ⟨htx, hrest⟩ := split_separator (hashText_bar hash) (hashText_bar hash') hrest
    obtain ⟨hdir, hkey⟩ := split_separator (direction_bar direction) (direction_bar direction')
      hrest
    refine ⟨hbridge.1, hnetwork.symm, ?_, ?_, (String.toList_inj.mp hkey).symm⟩
    · rw [hhash, hhash', String.toList_inj.mp htx]
    · rw [hdirection, hdirection', String.toList_inj.mp hdir]
  · rw [if_neg hbridge] at htext
    have hlist := congrArg String.toList htext
    simp [String.intercalate_cons_cons] at hlist

section
variable {e : End} {legs : List Leg} {table : List SemanticAmlEventRow}

/-- What a row says of its transfer. -/
def rowMark (row : SemanticAmlEventRow) : String × String :=
  (row.bridgeDirection, row.correlationKey)

def legMark (d : Digests) (b : Bridge) (e : End) (leg : Leg) : String × String :=
  ((leg.transfer.direction e).text, leg.transfer.key d b)

theorem layouts_ne (emission : Emission) : ∃ layout, layout ∈ emission.layouts := by
  cases emission
  · exact ⟨.current, by decide⟩
  · exact ⟨.legacy, by decide⟩
  · exact ⟨.current, by decide⟩

theorem row_of_leg (hcarries : Carries d b e t legs) (hstored : Stored d b e t table) {leg : Leg}
    (hleg : leg ∈ legs) :
    ∃ row ∈ table, ofTransaction t row = true ∧ rowMark row = legMark d b e leg := by
  obtain ⟨layout, hlayout⟩ := layouts_ne leg.emission
  have hlog : leg.transfer.log d b e layout (leg.logIndex layout) ∈
      t.logs.filter fun log => isBridge (b.network e).registry log.address := by
    rw [hcarries.logs]
    exact List.mem_flatMap.mpr ⟨leg, hleg, List.mem_map.mpr ⟨layout, hlayout, rfl⟩⟩
  obtain ⟨position, hposition⟩ := List.mem_iff_getElem?.mp (List.mem_filter.mp hlog).1
  obtain ⟨row, hrow, hof, hdirection, hkey⟩ := decodeLog_transfer (d := d) leg.transfer
    hcarries.network layout (leg.logIndex layout) position
  have hevent := mem_decoded.mpr ⟨_, position, List.mk_mem_zipIdx_iff_getElem?.mpr hposition, hrow⟩
  exact ⟨row, ((hstored.own row).mpr hevent).1, hof, Prod.ext hdirection hkey⟩

theorem leg_of_row (hcarries : Carries d b e t legs) (hstored : Stored d b e t table)
    {row : SemanticAmlEventRow} (hrow : row ∈ table) (hof : ofTransaction t row = true) :
    ∃ leg ∈ legs, rowMark row = legMark d b e leg := by
  obtain ⟨hnetwork, htx, htype⟩ := of_decide_eq_true hof
  obtain ⟨log, position, hlog, hdecode⟩ :=
    mem_decoded.mp ((hstored.own row).mp ⟨hrow, hnetwork, htx⟩)
  obtain ⟨_, hbridge, _⟩ := decodeLog_bridgeRow hdecode htype
  have hmem : log ∈ t.logs := List.fst_mem_of_mem_zipIdx hlog
  have hfilter : log ∈ t.logs.filter fun log => isBridge (b.network e).registry log.address :=
    List.mem_filter.mpr ⟨hmem, hbridge⟩
  rw [hcarries.logs] at hfilter
  obtain ⟨leg, hleg, hlog⟩ := List.mem_flatMap.mp hfilter
  obtain ⟨layout, _, rfl⟩ := List.mem_map.mp hlog
  obtain ⟨row', hrow', _, hdirection, hkey⟩ := decodeLog_transfer (d := d) leg.transfer
    hcarries.network layout (leg.logIndex layout) position
  obtain rfl := Option.some.inj (hdecode.symm.trans hrow')
  exact ⟨leg, hleg, Prod.ext hdirection hkey⟩

theorem Stored.bridgeRow (hstored : Stored d b e t table) {row : SemanticAmlEventRow}
    (hrow : row ∈ table) (htype : row.eventType = .bridgeTransfer) : BridgeRow row := by
  obtain ⟨registry, u, hevent⟩ := hstored.decoded row hrow
  obtain ⟨log, position, _, hdecode⟩ := mem_decoded.mp hevent
  exact (decodeLog_bridgeRow hdecode htype).1

theorem marks_nodup (hstored : Stored d b e t table) :
    (((semanticAmlEventsCanonical table).filter (ofTransaction t)).map rowMark).Nodup := by
  refine List.Nodup.map_on (fun row hrow other hother hmark => ?_)
    ((show (semanticAmlEventsCanonical table).Nodup from latest_nodup table).filter _)
  obtain ⟨hrow, hof⟩ := List.mem_filter.mp hrow
  obtain ⟨hother, hof'⟩ := List.mem_filter.mp hother
  obtain ⟨hnetwork, htx, htype⟩ := of_decide_eq_true hof
  obtain ⟨hnetwork', htx', htype'⟩ := of_decide_eq_true hof'
  obtain ⟨hdirection, hkey⟩ := Prod.mk.inj hmark
  refine latest_unique hrow hother ?_
  unfold viewKey
  rw [if_pos ⟨htype, (hstored.bridgeRow (mem_of_mem_latest hrow) htype).key⟩,
    if_pos ⟨htype', (hstored.bridgeRow (mem_of_mem_latest hother) htype').key⟩, hnetwork,
    hnetwork', htx, htx', hdirection, hkey]

/-- The view shows the marks of the legs, each once. -/
theorem mem_marks (hcarries : Carries d b e t legs) (hstored : Stored d b e t table)
    (mark : String × String) :
    mark ∈ ((semanticAmlEventsCanonical table).filter (ofTransaction t)).map rowMark ↔
      mark ∈ legs.map (legMark d b e) := by
  constructor
  · intro h
    obtain ⟨row, hrow, rfl⟩ := List.mem_map.mp h
    obtain ⟨hrow, hof⟩ := List.mem_filter.mp hrow
    obtain ⟨leg, hleg, hmark⟩ := leg_of_row hcarries hstored (mem_of_mem_latest hrow) hof
    exact List.mem_map.mpr ⟨leg, hleg, hmark.symm⟩
  · intro h
    obtain ⟨leg, hleg, rfl⟩ := List.mem_map.mp h
    obtain ⟨row, hrow, hof, hmark⟩ := row_of_leg hcarries hstored hleg
    obtain ⟨hnetwork, htx, htype⟩ := of_decide_eq_true hof
    obtain ⟨newer, hnewer, hkey, _⟩ : ∃ newer ∈ semanticAmlEventsCanonical table,
        viewKey newer = viewKey row ∧ 0 ≤ 0 := exists_mem_latest hrow
    obtain ⟨htype', hnetwork', htx', hdirection, hcorrelation⟩ :=
      viewKey_bridge (hstored.bridgeRow hrow htype)
        (hstored.bridgeRow (mem_of_mem_latest hnewer)) hkey.symm
    refine List.mem_map.mpr ⟨newer, List.mem_filter.mpr ⟨hnewer, decide_eq_true
      ⟨hnetwork'.trans hnetwork, htx'.trans htx, htype'⟩⟩, ?_⟩
    rw [← hmark]
    exact Prod.ext hdirection hcorrelation

theorem direction_eq_iff (transfer other : Transfer) (e : End) :
    (transfer.direction e).text = (other.direction e).text ↔
      transfer.initiated = other.initiated := by
  unfold Transfer.direction
  cases transfer.initiated <;> cases other.initiated <;> cases e <;> decide

theorem key_of_same {transfer other : Transfer} (h : ¬ transfer.Differs other) :
    transfer.key d b = other.key d b := by
  unfold Transfer.Differs at h
  simp only [not_or, not_not] at h
  obtain ⟨hfrom, hto, hamount, htokens⟩ := h
  unfold Transfer.key Transfer.asset
  rw [hfrom, hto, hamount, htokens]

/-- The marks of legs tell apart what is not alike. -/
theorem legMark_ne_iff (hsha : Function.Injective d.stableHash) (leg leg' : Leg) :
    legMark d b e leg ≠ legMark d b e leg' ↔
      leg.transfer.initiated ≠ leg'.transfer.initiated ∨ leg.transfer.Differs leg'.transfer := by
  rw [← not_iff_not, not_not, not_or, not_not]
  constructor
  · intro h
    obtain ⟨hdirection, hkey⟩ := Prod.mk.inj h
    exact ⟨(direction_eq_iff _ _ e).mp hdirection, key_inj hsha hkey⟩
  · rintro ⟨hinitiated, hsame⟩
    exact Prod.ext ((direction_eq_iff _ _ e).mpr hinitiated) (key_of_same hsame)

theorem nodup_legMarks (hsha : Function.Injective d.stableHash) :
    (legs.map (legMark d b e)).Nodup ↔ Distinguished legs := by
  unfold List.Nodup Distinguished
  rw [List.pairwise_map]
  constructor
  · exact fun h => h.imp fun hne => (legMark_ne_iff hsha _ _).mp hne
  · exact fun h => h.imp fun hne => (legMark_ne_iff hsha _ _).mpr hne

end

end

/-- The legs of the transfers correlate one to one just when no two transfers of
the transaction go the same way and are alike. -/
theorem correlated_iff_distinguished {d : Digests} (hsha : Function.Injective d.stableHash)
    (b : Bridge) (e : End) (t : SemanticTransaction) (legs : List Leg)
    (table : List SemanticAmlEventRow) (hcarries : Carries d b e t legs)
    (hstored : Stored d b e t table) :
    Correlated d b e t legs table ↔ Distinguished legs := by
  rw [← nodup_legMarks hsha]
  constructor
  · intro h
    exact h.visible.nodup_iff.mp (marks_nodup hstored)
  · intro h
    refine ⟨?_, ?_, ?_, ?_⟩
    · intro leg _ e' layout logIndex u position hu
      obtain ⟨row, hrow, _, hdirection, hkey⟩ := decodeLog_transfer (d := d) leg.transfer hu layout
        logIndex position
      exact ⟨row, hrow, hdirection, hkey⟩
    · intro leg _
      unfold Transfer.direction
      cases leg.transfer.initiated <;> cases e <;> decide
    · exact fun leg _ leg' _ hdiffers hkey => key_inj hsha hkey hdiffers
    · exact (List.perm_ext_iff_of_nodup (marks_nodup hstored) h).mpr (mem_marks hcarries hstored)

/-! ## Two equal transfers -/

def bridgeContract (remoteNetworkId : String) : ProtocolContractRow where
  contractAddress := ""
  protocol := "optimism_standard_bridge"
  protocolType := "bridge"
  contractRole := "standard_bridge"
  remoteNetworkId := remoteNetworkId
  remoteContractAddress := ""
  decoder := "op_standard_bridge_v1"
  source := "optimism_docs"
  confidence := 1
  enabled := 1

def l1StandardBridge : Address := 0x99c9fc46f92e8a1c0dec1b1747d010903e884be1
def l2StandardBridge : Address := 0x4200000000000000000000000000000000000010

def standardNetwork : End → Network
  | .left => ⟨"eip155:1", ⟨[(l1StandardBridge, bridgeContract "eip155:10")]⟩, l1StandardBridge,
      bridgeContract "eip155:10"⟩
  | .right => ⟨"eip155:10", ⟨[(l2StandardBridge, bridgeContract "eip155:1")]⟩, l2StandardBridge,
      bridgeContract "eip155:1"⟩

def standardBridge : Bridge where
  network := standardNetwork
  valid e := by
    cases e
    · exact ⟨"eip155:1", by decide +kernel⟩
    · exact ⟨"eip155:10", by decide +kernel⟩
  distinct := by decide
  registered e := by cases e <;> decide
  protocolType e := by cases e <;> rfl
  decoder e := by cases e <;> rfl
  remote e := by cases e <;> rfl
  protocol := rfl

/-- One ether of `0x0a` for itself on the other network. -/
def oneEther : Transfer where
  tokens := none
  initiated := .left
  fromAddress := 0x0a
  toAddress := 0x0a
  amount := 1000000000000000000
  positive := by decide
  extraData := []

def etherLeg (logIndex : Nat) : Leg := ⟨oneEther, .current, fun _ => some logIndex⟩

def twoLegs : List Leg := [etherLeg 0, etherLeg 1]

/-- A contract that bridges one ether twice. -/
def batchedTransfers : SemanticTransaction where
  networkId := "eip155:1"
  blockNumber := 20000000
  blockTimestampUnixMs := 1717281407000
  txHash := 0xf1
  sender := 0x0a
  destination := some 0x0b
  inputSelector := "0x12345678"
  logs := twoLegs.flatMap (Leg.logs publishedDigests standardBridge .left)
  movements := []
  relationships := []

def batchedTable : List SemanticAmlEventRow :=
  (decodeTransaction publishedDigests (standardNetwork .left).registry batchedTransfers).events

theorem batched_carries : Carries publishedDigests standardBridge .left batchedTransfers twoLegs :=
  ⟨rfl, by decide +kernel⟩

theorem batched_stored :
    Stored publishedDigests standardBridge .left batchedTransfers batchedTable := by
  have hall : ∀ row ∈ batchedTable, row.networkId = batchedTransfers.networkId ∧
      row.txHash = hashText batchedTransfers.txHash := by decide +kernel
  exact ⟨fun row => ⟨fun h => h.1, fun h => ⟨h, hall row h⟩⟩, fun row h => ⟨_, _, h⟩⟩

/-- The view shows one of the two transfers. -/
theorem equal_transfers_merged : Function.Injective publishedDigests.stableHash ∧
    Carries publishedDigests standardBridge .left batchedTransfers twoLegs ∧
    Stored publishedDigests standardBridge .left batchedTransfers batchedTable ∧
    ¬ Correlated publishedDigests standardBridge .left batchedTransfers twoLegs batchedTable := by
  refine ⟨marked_injective, batched_carries, batched_stored, fun h => ?_⟩
  have hnodup := h.visible.nodup_iff.mp (marks_nodup batched_stored)
  exact (List.nodup_cons.mp hnodup).1 (List.mem_singleton.mpr rfl)

theorem correlated_iff_distinguished_batched :
    Correlated publishedDigests standardBridge .left batchedTransfers twoLegs batchedTable ↔
      Distinguished twoLegs :=
  correlated_iff_distinguished marked_injective standardBridge .left batchedTransfers twoLegs
    batchedTable batched_carries batched_stored

end AmlReal.Ethereum.BridgeEvents
