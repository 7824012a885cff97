import AmlReal.Ethereum.AbiLogs

/-! # Mixer events

A registered Tornado pool emits `Deposit(bytes32 indexed commitment, uint32
leafIndex, uint256 timestamp)` and `Withdrawal(address to, bytes32
nullifierHash, address indexed relayer, uint256 fee)`. The decoder reads the
only indexed argument of both. Of a deposit that is the commitment; of a
withdrawal it is the relayer, where the recipient and the nullifier hash stand
in the data. -/

namespace AmlReal.Ethereum.MixerEvents
open AmlReal.Foundations.FixedWidth AmlReal.Ethereum.Movements AmlReal.Ethereum.Semantic
open AmlReal.Ethereum.AbiLogs

/-! ## What a pool emits -/

inductive TornadoCall where
  | deposit (commitment : B256) (leafIndex : BitVec 32) (timestamp : U256)
  | withdrawal (recipient : Address) (nullifierHash : B256) (relayer : Address) (fee : U256)
  deriving DecidableEq

namespace TornadoCall

def eventType : TornadoCall → EventType
  | .deposit _ _ _ => .mixerDeposit
  | .withdrawal _ _ _ _ => .mixerWithdrawal

/-- Whose call it is: a deposit is the sender's, a withdrawal the recipient's. -/
def subject (sender : Address) : TornadoCall → Address
  | .deposit _ _ _ => sender
  | .withdrawal recipient _ _ _ => recipient

def topics (d : Digests) : TornadoCall → List B256
  | .deposit commitment _ _ => [d.signature .tornadoDeposit, commitment]
  | .withdrawal _ _ relayer _ => [d.signature .tornadoWithdrawal, addressWord relayer]

def data : TornadoCall → List Byte
  | .deposit _ leafIndex timestamp => abiWords [leafIndex.setWidth 256, timestamp]
  | .withdrawal recipient nullifierHash _ fee =>
    abiWords [addressWord recipient, nullifierHash, fee]

/-- Two calls that must not be correlated. -/
def Unrelated : TornadoCall → TornadoCall → Prop
  | .deposit commitment _ _, .deposit commitment' _ _ => commitment ≠ commitment'
  | .withdrawal _ nullifierHash _ _, .withdrawal _ nullifierHash' _ _ =>
    nullifierHash ≠ nullifierHash'
  | _, _ => False

end TornadoCall

section
variable (d : Digests) (registry : SemanticDecoderRegistry)

/-- A log of a registered pool in a transaction, and the call it encodes. -/
structure TornadoLog (t : SemanticTransaction) where
  before : List Log
  log : Log
  after : List Log
  logs : t.logs = before ++ log :: after
  contract : ProtocolContractRow
  registered : registry.contract log.address = some contract
  protocolType : contract.protocolType = "mixer"
  decoder : contract.decoder = "tornado_cash_v1"
  call : TornadoCall
  topics : log.topics = call.topics d
  data : log.data = call.data

namespace TornadoLog
variable {d registry} {t : SemanticTransaction} (l : TornadoLog d registry t)

/-- What the decoder makes of the log. -/
def event : Option SemanticAmlEventRow := decodeLog d registry t (l.log, l.before.length)

/-- The argument that stands in a topic. -/
def indexed : B256 :=
  match l.call with
  | .deposit commitment _ _ => commitment
  | .withdrawal _ _ relayer _ => addressWord relayer

/-- The wallet the decoder takes the call for. -/
def taken : Address :=
  match l.call with
  | .deposit _ _ _ => t.sender
  | .withdrawal _ _ relayer _ => relayer

theorem topic0 : ∃ topic0, l.log.topic0 = some topic0 ∧
    mixerCall d t l.log topic0 = some (l.call.eventType, l.taken) := by
  have htopics := l.topics
  unfold Log.topic0 mixerCall taken
  cases hcall : l.call with
  | deposit commitment leafIndex timestamp =>
    rw [hcall] at htopics
    refine ⟨d.signature .tornadoDeposit, by rw [htopics]; rfl, ?_⟩
    rw [if_pos rfl]
    rfl
  | withdrawal recipient nullifierHash relayer fee =>
    rw [hcall] at htopics
    refine ⟨d.signature .tornadoWithdrawal, by rw [htopics]; rfl, ?_⟩
    have hdeposit : d.signature .tornadoWithdrawal ≠ d.signature .tornadoDeposit := by simp
    rw [if_neg hdeposit, if_pos rfl, htopics]
    change some (_, (topicAddress (addressWord relayer)).getD t.sender) = _
    rw [topicAddress_addressWord]
    rfl

theorem indexed_topic : l.log.topics[1]? = some l.indexed := by
  have htopics := l.topics
  unfold indexed
  cases hcall : l.call with
  | deposit commitment leafIndex timestamp => rw [htopics, hcall]; rfl
  | withdrawal recipient nullifierHash relayer fee => rw [htopics, hcall]; rfl

theorem event_spec : ∃ row, l.event = some row ∧ row.eventType = l.call.eventType ∧
    row.subjectAddress = addressText l.taken ∧
    row.correlationKey = d.stableHash
      (l.contract.protocol ++ "|" ++ l.call.eventType.text ++ "|" ++ hashText l.indexed) := by
  obtain ⟨topic0, htopic, hcall⟩ := l.topic0
  let index := logIndexOf (l.log, l.before.length)
  let row := mixerEvent d t l.log index topic0 l.contract l.call.eventType l.taken
  have hmixer : decodeTornadoMixer d t l.log index l.contract = some row := by
    unfold decodeTornadoMixer
    rw [htopic]
    change (mixerCall d t l.log topic0 >>= _) = _
    rw [hcall]
    rfl
  have hbridge : ¬ (l.contract.protocolType = "bridge" ∧
      l.contract.decoder = "op_standard_bridge_v1") := by
    rw [l.protocolType]
    exact fun h => absurd h.1 (by decide)
  have hregistered : decodeRegistered d registry t l.log index = some row := by
    unfold decodeRegistered
    rw [l.registered]
    change Option.or _ _ = _
    rw [if_neg hbridge, if_pos ⟨l.protocolType, l.decoder⟩, Option.none_or, hmixer]
  refine ⟨row, ?_, rfl, rfl, ?_⟩
  · unfold event
    rw [decodeLog_eq htopic]
    change (decodeRegistered d registry t l.log index).or _ = _
    rw [hregistered, Option.some_or]
  · change mixerCorrelationKey d t l.log l.contract l.call.eventType = _
    rw [mixerCorrelationKey, l.indexed_topic]
    rfl

end TornadoLog

/-! ## Attribution -/

/-- The events of some logs, the first of them at a position. -/
def eventsFrom (t : SemanticTransaction) (position : Nat) (logs : List Log) :
    List SemanticAmlEventRow :=
  (logs.zipIdx position).filterMap (decodeLog d registry t)

/-- Every call of a registered pool in the transactions becomes one event, of
the wallet that made it, and unrelated calls of a pool get different keys. -/
structure Attributed (ts : List SemanticTransaction) : Prop where
  once : ∀ t ∈ ts, ∀ l : TornadoLog d registry t, ∃ row,
    (decodeTransaction d registry t).events = eventsFrom d registry t 0 l.before ++
      row :: eventsFrom d registry t (l.before.length + 1) l.after ∧
    row.eventType = l.call.eventType ∧
    row.subjectAddress = addressText (l.call.subject t.sender)
  keys : ∀ t ∈ ts, ∀ u ∈ ts, ∀ (l : TornadoLog d registry t) (m : TornadoLog d registry u),
    l.log.address = m.log.address → l.call.Unrelated m.call →
    ∀ row ∈ l.event, ∀ row' ∈ m.event, row.correlationKey ≠ row'.correlationKey

/-- Whoever withdraws relays the withdrawal, and no wallet withdraws twice from
a pool. -/
structure SelfRelayed (ts : List SemanticTransaction) : Prop where
  recipient : ∀ t ∈ ts, ∀ l : TornadoLog d registry t, ∀ recipient nullifierHash relayer fee,
    l.call = .withdrawal recipient nullifierHash relayer fee → relayer = recipient
  distinct : ∀ t ∈ ts, ∀ u ∈ ts, ∀ (l : TornadoLog d registry t) (m : TornadoLog d registry u),
    l.log.address = m.log.address →
    ∀ recipient nullifierHash relayer fee recipient' nullifierHash' relayer' fee',
      l.call = .withdrawal recipient nullifierHash relayer fee →
      m.call = .withdrawal recipient' nullifierHash' relayer' fee' →
      nullifierHash ≠ nullifierHash' → relayer ≠ relayer'

variable {d registry}

theorem addressText_inj {a b : Address} (h : addressText a = addressText b) : a = b :=
  BitVec.eq_of_toNat_eq (hexText_inj (n := 40) a.isLt b.isLt h)

theorem hashText_inj {a b : B256} (h : hashText a = hashText b) : a = b :=
  BitVec.eq_of_toNat_eq (hexText_inj (n := 64) a.isLt b.isLt h)

theorem events_split {t : SemanticTransaction} (l : TornadoLog d registry t)
    {row : SemanticAmlEventRow} (h : l.event = some row) :
    (decodeTransaction d registry t).events = eventsFrom d registry t 0 l.before ++
      row :: eventsFrom d registry t (l.before.length + 1) l.after := by
  change t.logs.zipIdx.filterMap (decodeLog d registry t) = _
  have hrow : decodeLog d registry t (l.log, 0 + l.before.length) = some row := by
    rw [Nat.zero_add]
    exact h
  rw [l.logs, List.zipIdx_append, List.filterMap_append, List.zipIdx_cons,
    List.filterMap_cons_some hrow, Nat.zero_add]
  rfl

/-- The key of an event tells the calls of one kind and pool apart by their
indexed argument. -/
theorem correlationKey_eq_iff (hsha : Function.Injective d.stableHash)
    {t u : SemanticTransaction} (l : TornadoLog d registry t) (m : TornadoLog d registry u)
    (hpool : l.log.address = m.log.address) (htype : l.call.eventType = m.call.eventType)
    {row row' : SemanticAmlEventRow} (hrow : row ∈ l.event) (hrow' : row' ∈ m.event) :
    row.correlationKey = row'.correlationKey ↔ l.indexed = m.indexed := by
  obtain ⟨e, he, _, _, hkey⟩ := l.event_spec
  obtain ⟨e', he', _, _, hkey'⟩ := m.event_spec
  obtain rfl := Option.some.inj (he.symm.trans hrow)
  obtain rfl := Option.some.inj (he'.symm.trans hrow')
  have hcontract : l.contract = m.contract :=
    Option.some.inj (l.registered.symm.trans (hpool ▸ m.registered))
  rw [hkey, hkey', hcontract, htype]
  constructor
  · intro h
    exact hashText_inj (String.append_right_inj _ |>.mp (hsha h))
  · intro h
    rw [h]

theorem Attributed.selfRelayed (hsha : Function.Injective d.stableHash)
    {ts : List SemanticTransaction} (h : Attributed d registry ts) :
    SelfRelayed d registry ts where
  recipient t ht l recipient nullifierHash relayer fee hcall := by
    obtain ⟨row, hevents, _, hsubject⟩ := h.once t ht l
    obtain ⟨row', hrow', _, hsubject', _⟩ := l.event_spec
    rw [events_split l hrow'] at hevents
    obtain ⟨hrow, _⟩ := List.cons.inj (List.append_cancel_left hevents)
    rw [← hrow, hsubject', TornadoLog.taken, hcall] at hsubject
    exact addressText_inj hsubject
  distinct t ht u hu l m hpool recipient nullifierHash relayer fee recipient' nullifierHash'
      relayer' fee' hl hm hne hrelayer := by
    obtain ⟨row, hrow, _⟩ := l.event_spec
    obtain ⟨row', hrow', _⟩ := m.event_spec
    have htype : l.call.eventType = m.call.eventType := by rw [hl, hm]; rfl
    have hunrelated : l.call.Unrelated m.call := by rw [hl, hm]; exact hne
    refine h.keys t ht u hu l m hpool hunrelated row hrow row' hrow' ?_
    refine (correlationKey_eq_iff hsha l m hpool htype hrow hrow').mpr ?_
    rw [TornadoLog.indexed, TornadoLog.indexed, hl, hm, hrelayer]

theorem SelfRelayed.attributed (hsha : Function.Injective d.stableHash)
    {ts : List SemanticTransaction} (h : SelfRelayed d registry ts) :
    Attributed d registry ts where
  once t ht l := by
    obtain ⟨row, hrow, htype, hsubject, _⟩ := l.event_spec
    refine ⟨row, events_split l hrow, htype, ?_⟩
    rw [hsubject, TornadoLog.taken]
    cases hcall : l.call with
    | deposit commitment leafIndex timestamp => rfl
    | withdrawal recipient nullifierHash relayer fee =>
      rw [h.recipient t ht l recipient nullifierHash relayer fee hcall]
      rfl
  keys t ht u hu l m hpool hunrelated row hrow row' hrow' heq := by
    cases hl : l.call with
    | deposit commitment leafIndex timestamp =>
      cases hm : m.call with
      | deposit commitment' leafIndex' timestamp' =>
        have htype : l.call.eventType = m.call.eventType := by rw [hl, hm]; rfl
        have hindexed := (correlationKey_eq_iff hsha l m hpool htype hrow hrow').mp heq
        rw [TornadoLog.indexed, TornadoLog.indexed, hl, hm] at hindexed
        rw [hl, hm] at hunrelated
        exact hunrelated hindexed
      | withdrawal recipient nullifierHash relayer fee =>
        rw [hl, hm] at hunrelated
        exact hunrelated
    | withdrawal recipient nullifierHash relayer fee =>
      cases hm : m.call with
      | deposit commitment leafIndex timestamp =>
        rw [hl, hm] at hunrelated
        exact hunrelated
      | withdrawal recipient' nullifierHash' relayer' fee' =>
        have htype : l.call.eventType = m.call.eventType := by rw [hl, hm]; rfl
        have hindexed := (correlationKey_eq_iff hsha l m hpool htype hrow hrow').mp heq
        rw [TornadoLog.indexed, TornadoLog.indexed, hl, hm] at hindexed
        rw [hl, hm] at hunrelated
        exact h.distinct t ht u hu l m hpool recipient nullifierHash relayer fee recipient'
          nullifierHash' relayer' fee' hl hm hunrelated (addressWord_inj hindexed)

end

/-- Mixer calls are attributed as they should be just when every withdrawal is
relayed by its recipient and the relayers of a pool's withdrawals differ. -/
theorem attributed_iff_self_relayed {d : Digests} (hsha : Function.Injective d.stableHash)
    (registry : SemanticDecoderRegistry) (ts : List SemanticTransaction) :
    Attributed d registry ts ↔ SelfRelayed d registry ts :=
  ⟨fun h => h.selfRelayed hsha, fun h => h.attributed hsha⟩

/-! ## A relayed withdrawal -/

def tenEtherPool : Address := 0x910cbd523d972eb0a6f4cae4618ad62622b39dbf

def poolContract : ProtocolContractRow where
  contractAddress := addressText tenEtherPool
  protocol := "tornado_cash"
  protocolType := "mixer"
  contractRole := "pool"
  remoteNetworkId := ""
  remoteContractAddress := ""
  decoder := "tornado_cash_v1"
  source := "ofac"
  confidence := 1
  enabled := 1

def poolRegistry : SemanticDecoderRegistry := ⟨[(tenEtherPool, poolContract)]⟩

/-- The wallet `0x0a` withdraws, and `0x0b` relays it for a fee. -/
def relayedCall : TornadoCall := .withdrawal 0x0a 0x77 0x0b 5

def relayedLog : Log where
  address := tenEtherPool
  topics := relayedCall.topics publishedDigests
  data := relayedCall.data
  logIndex := some 0
  removed := false

def relayedTransaction : SemanticTransaction where
  networkId := "eip155:1"
  blockNumber := 20000000
  blockTimestampUnixMs := 1717281407000
  txHash := 0xf1
  sender := 0x0b
  destination := some tenEtherPool
  inputSelector := "0x21a0adb6"
  logs := [relayedLog]
  movements := []
  relationships := []

def relayedTornadoLog : TornadoLog publishedDigests poolRegistry relayedTransaction where
  before := []
  log := relayedLog
  after := []
  logs := rfl
  contract := poolContract
  registered := by decide
  protocolType := rfl
  decoder := rfl
  call := relayedCall
  topics := rfl
  data := rfl

/-- The withdrawal is put down to the relayer. -/
theorem relayer_taken_for_recipient : Function.Injective publishedDigests.stableHash ∧
    ¬ Attributed publishedDigests poolRegistry [relayedTransaction] := by
  refine ⟨marked_injective, fun h => ?_⟩
  have hself := h.selfRelayed marked_injective
  have hsame := hself.recipient relayedTransaction (List.mem_singleton.mpr rfl) relayedTornadoLog
    0x0a 0x77 0x0b 5 rfl
  exact absurd hsame (by decide)

theorem attributed_iff_self_relayed_relayed :
    Attributed publishedDigests poolRegistry [relayedTransaction] ↔
      SelfRelayed publishedDigests poolRegistry [relayedTransaction] :=
  attributed_iff_self_relayed marked_injective poolRegistry [relayedTransaction]

end AmlReal.Ethereum.MixerEvents
