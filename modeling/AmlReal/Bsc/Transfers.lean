import AmlReal.Foundations.EntryList
import AmlReal.Bsc.Model

/-! # Transfers of a BSC block

`ingestion/transfers.rs`: the value transfers a finalized block proves, from its
transactions, its token logs and its call traces. SHA-256 is a parameter; it
maps a text to the hexadecimal digits of its digest. What a procedure pushes to
the relationships is what its counterpart here returns. -/

namespace AmlReal.Bsc.Transfers
open AmlReal.Foundations AmlReal.Foundations.Checks AmlReal.Warehouse.Values AmlReal.Bsc.Model

def TRANSFER_TOPIC : String :=
  "0xddf252ad1be2c89b69c2b068fc378daa952ba7f163c4a11628f55a4df523b3ef"
def ERC1155_TRANSFER_SINGLE_TOPIC : String :=
  "0xc3d58168c5ae7397731d063d5bbf3d657854427343f4c083240f7aacaa2d0f62"
def ERC1155_TRANSFER_BATCH_TOPIC : String :=
  "0x4a39dc06d4c0dbc64b70af90fd698a233a518aa5d07e595d983b8c0526c8f7fb"
def MAX_ERC1155_BATCH_ITEMS : Nat := 4096

structure CanonicalRelationship where
  relationshipId : String
  txHash : String
  transactionIndex : Nat
  eventIndex : Nat
  eventSubIndex : Nat
  traceAddress : List Nat
  fromAddress : String
  toAddress : String
  assetId : String
  tokenId : String
  amount : Nat
  transferType : String
  deriving DecidableEq

structure TokenMetadataDiscovery where
  discoveryId : String
  tokenAddress : String
  standardHint : String
  txHash : String
  evidenceId : String
  deriving DecidableEq

structure ExtractedBlockEvidence where
  relationships : List CanonicalRelationship
  tokenDiscoveries : List TokenMetadataDiscovery
  traceDataComplete : Bool
  deriving DecidableEq

inductive TokenStandard where
  | erc20
  | erc721
  | erc1155
  deriving DecidableEq, Repr

def TokenStandard.asStr : TokenStandard → String
  | .erc20 => "erc20"
  | .erc721 => "erc721"
  | .erc1155 => "erc1155"

structure TokenMovement where
  fromAddress : String
  toAddress : String
  amount : Nat
  tokenId : Option Nat
  standard : TokenStandard
  eventSubIndex : Nat
  deriving DecidableEq

inductive IdentifierError where
  | invalidNetwork
  | invalidEvmAddress
  | invalidTokenId
  deriving DecidableEq, Repr

inductive TransferDecodeError where
  | evidence (error : DecodeError)
  | identifier (error : IdentifierError)
  | failedTransactionHasLogs (txHash : String)
  | unknownLogTransaction (eventId : String)
  | malformedTokenEvent (eventId reason : String)
  | missingNativeDestination (txHash : String)
  | traceCountMismatch (transactions traces : Nat)
  | duplicateTrace
  | missingTrace (txHash : String)
  | unknownTrace
  | invalidTrace (txHash reason : String)
  | indexOverflow (field : String)
  deriving DecidableEq, Repr

/-- `?` on a result of `model.rs` -/
def evidence {α : Type} : Except DecodeError α → Except TransferDecodeError α :=
  Except.mapError .evidence

def toU32 (n : Nat) (field : String) : Except TransferDecodeError Nat :=
  if n < 2 ^ 32 then .ok n else .error (.indexOverflow field)

/-! ## Asset identities (`domain/identifiers.rs`) -/

/-- `str::trim` -/
def trim (s : String) : List Char :=
  ((s.toList.dropWhile isWhitespace).reverse.dropWhile isWhitespace).reverse

def normalizeEvmAddress (value : String) : Except IdentifierError String := do
  let text := String.ofList (trim value)
  let hex ← context ((stripPrefix "0x" text).or (stripPrefix "0X" text)) .invalidEvmAddress
  ensure (hex.toList.length = 40 ∧ hex.toList.all isHexDigit) .invalidEvmAddress
  pure ("0x" ++ toAsciiLowercase hex)

def normalizeTokenId (value : String) : Except IdentifierError String := do
  ensure (trim value ≠ [] ∧ (trim value).all Char.isDigit) .invalidTokenId
  let normalized := (trim value).dropWhile (· == '0')
  pure (if normalized = [] then "0" else String.ofList normalized)

/-- `AssetId::native_bnb().canonical_key()` -/
def nativeBnb : String := BSC_NETWORK_ID ++ "/native:bnb"

/-- `AssetId::erc20`, `erc721` and `erc1155`, with `canonical_key()`. -/
def tokenAsset (standard : TokenStandard) (contract tokenId : String) :
    Except IdentifierError String := do
  let contract ← normalizeEvmAddress contract
  match standard with
  | .erc20 => pure (BSC_NETWORK_ID ++ "/" ++ standard.asStr ++ ":" ++ contract)
  | .erc721 | .erc1155 => do
    let tokenId ← normalizeTokenId tokenId
    pure (BSC_NETWORK_ID ++ "/" ++ standard.asStr ++ ":" ++ contract ++ "/" ++ tokenId)

/-! ## Event data -/

def hexPairs : List Char → Option (List Nat)
  | [] => some []
  | [_] => none
  | high :: low :: rest => do
    let h ← hexNibble high
    let l ← hexNibble low
    let bytes ← hexPairs rest
    some ((16 * h + l) :: bytes)

def decodeHexData (value : String) : Option (List Nat) := do
  let hex ← stripPrefix "0x" value
  hexPairs hex.toList

def encodeHex (bytes : List Nat) : List Char :=
  bytes.flatMap fun b => [Nat.digitChar (b / 16 % 16), Nat.digitChar (b % 16)]

/-- `EvmU256::from_be_word` -/
def fromBeWord (bytes : List Nat) : Option Nat :=
  if bytes.length = 32 then some (bytes.foldl (fun n b => 256 * n + b) 0) else none

/-- `data.get(start..start + length)` -/
def slice (data : List Nat) (start length : Nat) : Option (List Nat) := do
  let stop ← checkedAdd start length
  if stop ≤ data.length then some ((data.drop start).take length) else none

def wordU256 (data : List Nat) (index : Nat) : Option Nat := do
  let word ← slice data (index * 32) 32
  fromBeWord word

def wordUsizeAt (data : List Nat) (offset : Nat) : Option Nat := do
  let word ← slice data offset 32
  if (word.take 24).any (· ≠ 0) then none
  else some ((word.drop 24).foldl (fun n b => 256 * n + b) 0)

def wordUsize (data : List Nat) (index : Nat) : Option Nat := wordUsizeAt data (index * 32)

section
variable (log : CanonicalLog)

def malformedEvent (reason : String) : TransferDecodeError := .malformedTokenEvent log.eventId reason

def topicAddress (index : Nat) : Except TransferDecodeError String := do
  let topic ← context ((log.topics[index]?).bind decodeHexData)
    (malformedEvent log "indexed address topic is missing")
  ensure (topic.length = 32 ∧ ¬ (topic.take 12).any (· ≠ 0))
    (malformedEvent log "indexed address topic is not ABI padded")
  pure (String.ofList ("0x".toList ++ encodeHex (topic.drop 12)))

def topicU256 (index : Nat) : Except TransferDecodeError Nat :=
  context (((log.topics[index]?).bind decodeHexData).bind fromBeWord)
    (malformedEvent log "token id topic is missing")

def eventData : Except TransferDecodeError (List Nat) :=
  context (decodeHexData log.data) (malformedEvent log "invalid data hex")

def decodeErc20OrErc721 : Except TransferDecodeError TokenMovement := do
  let fromAddress ← topicAddress log 1
  let toAddress ← topicAddress log 2
  let data ← eventData log
  match log.topics.length, data.length with
  | 3, 32 => do
    let amount ← context (wordU256 data 0) (malformedEvent log "missing amount")
    pure ⟨fromAddress, toAddress, amount, none, .erc20, 0⟩
  | 4, 0 => do
    let tokenId ← topicU256 log 3
    pure ⟨fromAddress, toAddress, 1, some tokenId, .erc721, 0⟩
  | _, _ => .error (malformedEvent log "Transfer event shape is neither ERC-20 nor ERC-721")

def decodeErc1155Single : Except TransferDecodeError TokenMovement := do
  ensure (log.topics.length = 4) (malformedEvent log "TransferSingle requires four topics")
  let data ← eventData log
  ensure (data.length = 64) (malformedEvent log "TransferSingle requires two ABI words")
  let fromAddress ← topicAddress log 2
  let toAddress ← topicAddress log 3
  let tokenId ← context (wordU256 data 0) (malformedEvent log "validated word exists")
  let amount ← context (wordU256 data 1) (malformedEvent log "validated word exists")
  pure ⟨fromAddress, toAddress, amount, some tokenId, .erc1155, 0⟩

def abiU256Array (data : List Nat) (offset : Nat) : Except TransferDecodeError (List Nat) := do
  ensure (64 ≤ offset ∧ offset % 32 = 0) (malformedEvent log "array offset is invalid")
  let length ← context (wordUsizeAt data offset) (malformedEvent log "array length is invalid")
  ensure (length ≤ MAX_ERC1155_BATCH_ITEMS)
    (malformedEvent log "ERC-1155 batch exceeds safety limit")
  let start ← context (checkedAdd offset 32) (malformedEvent log "array offset overflow")
  ensure (length * 32 < u64Size) (malformedEvent log "array length overflow")
  let _stop ← context (checkedAdd start (length * 32)) (malformedEvent log "array end overflow")
  let items ← context (slice data start (length * 32))
    (malformedEvent log "array extends beyond event data")
  pure ((List.range length).filterMap (wordU256 items))

def decodeErc1155Batch : Except TransferDecodeError (List TokenMovement) := do
  ensure (log.topics.length = 4) (malformedEvent log "TransferBatch requires four topics")
  let fromAddress ← topicAddress log 2
  let toAddress ← topicAddress log 3
  let data ← eventData log
  ensure (64 ≤ data.length) (malformedEvent log "TransferBatch ABI head is missing")
  let idsOffset ← context (wordUsize data 0) (malformedEvent log "invalid ids offset")
  let valuesOffset ← context (wordUsize data 1) (malformedEvent log "invalid values offset")
  let ids ← abiU256Array log data idsOffset
  let values ← abiU256Array log data valuesOffset
  ensure (ids.length = values.length) (malformedEvent log "ids and values lengths differ")
  (ids.zip values).zipIdx.mapM fun item => do
    let index ← toU32 item.2 "ERC-1155 batch index"
    pure ⟨fromAddress, toAddress, item.1.2, some item.1.1, .erc1155, index⟩

def decodeTokenLog : Except TransferDecodeError (List TokenMovement) :=
  if log.topic0 = TRANSFER_TOPIC then (fun m => [m]) <$> decodeErc20OrErc721 log
  else if log.topic0 = ERC1155_TRANSFER_SINGLE_TOPIC then (fun m => [m]) <$> decodeErc1155Single log
  else if log.topic0 = ERC1155_TRANSFER_BATCH_TOPIC then decodeErc1155Batch log
  else .ok []

end

/-! ## Relationships -/

section
variable (sha256 : String → String)

/-- `stable_id` -/
def stableId (identity : String) : String := sha256 identity

def traceKey (traceAddress : List Nat) : String := ".".intercalate (traceAddress.map Nat.repr)

def relationship (txHash : String) (transactionIndex eventIndex eventSubIndex : Nat)
    (traceAddress : List Nat) (fromAddress toAddress assetId tokenId : String) (amount : Nat)
    (transferType : String) : CanonicalRelationship where
  relationshipId := stableId sha256 s!"{BSC_NETWORK_ID}|{txHash}|{transactionIndex}|{eventIndex}|{eventSubIndex}|{traceKey traceAddress}|{fromAddress}|{toAddress}|{assetId}|{tokenId}|{transferType}"
  txHash := txHash
  transactionIndex := transactionIndex
  eventIndex := eventIndex
  eventSubIndex := eventSubIndex
  traceAddress := traceAddress
  fromAddress := fromAddress
  toAddress := toAddress
  assetId := assetId
  tokenId := tokenId
  amount := amount
  transferType := transferType

def destination (tx : CanonicalTransaction) : String :=
  if tx.toAddress = "" then tx.contractAddress else tx.toAddress

def nativeTransfer (tx : CanonicalTransaction) : CanonicalRelationship :=
  relationship sha256 tx.hash tx.transactionIndex tx.transactionIndex 0 [] tx.fromAddress
    (destination tx) nativeBnb "" tx.value "native"

def appendNativeTransfer (tx : CanonicalTransaction) :
    Except TransferDecodeError (List CanonicalRelationship) := do
  if tx.value = 0 then pure []
  else do
    ensure (destination tx ≠ "") (.missingNativeDestination tx.hash)
    pure (if tx.fromAddress = destination tx then [] else [nativeTransfer sha256 tx])

/-- A failed transaction must not have logs. -/
def appendTransaction (block : CanonicalBlock) (tx : CanonicalTransaction) :
    Except TransferDecodeError (List CanonicalRelationship) :=
  if tx.status = 1 then appendNativeTransfer sha256 tx
  else if block.logs.any fun log => log.transactionIndex = tx.transactionIndex then
    .error (.failedTransactionHasLogs tx.hash)
  else .ok []

/-! ## Token transfers -/

abbrev Discoveries := List ((String × TokenStandard) × TokenMetadataDiscovery)

/-- `entry(..).or_insert_with(..)` -/
def discover (log : CanonicalLog) (standard : TokenStandard) (discoveries : Discoveries) :
    Discoveries :=
  if (discoveries.lookup (log.contractAddress, standard)).isSome then discoveries
  else ((log.contractAddress, standard),
    ⟨stableId sha256 s!"{BSC_NETWORK_ID}|token|{log.contractAddress}|{standard.asStr}",
      log.contractAddress, standard.asStr, log.txHash, log.eventId⟩) :: discoveries

def movementTokenId (movement : TokenMovement) : String := movement.tokenId.elim "" Nat.repr

def tokenTransfer (log : CanonicalLog) (movement : TokenMovement) (assetId : String) :
    CanonicalRelationship :=
  relationship sha256 log.txHash log.transactionIndex log.logIndex movement.eventSubIndex []
    movement.fromAddress movement.toAddress assetId (movementTokenId movement) movement.amount
    movement.standard.asStr

def appendMovement (log : CanonicalLog) (s : List CanonicalRelationship × Discoveries)
    (movement : TokenMovement) :
    Except TransferDecodeError (List CanonicalRelationship × Discoveries) :=
  let discoveries := discover sha256 log movement.standard s.2
  if movement.amount = 0 ∨ movement.fromAddress = movement.toAddress then .ok (s.1, discoveries)
  else do
    let assetId ← (tokenAsset movement.standard log.contractAddress
      (movementTokenId movement)).mapError .identifier
    pure (s.1 ++ [tokenTransfer sha256 log movement assetId], discoveries)

/-- The log names a transaction of the block. -/
def checkLog (block : CanonicalBlock) (log : CanonicalLog) : Except TransferDecodeError Unit := do
  let tx ← context block.transactions[log.transactionIndex]? (.unknownLogTransaction log.eventId)
  ensure (tx.hash = log.txHash) (.unknownLogTransaction log.eventId)

/-- The movements of a log; a malformed event has none. -/
def logMovements (log : CanonicalLog) : Except TransferDecodeError (List TokenMovement) :=
  match decodeTokenLog log with
  | .error (.malformedTokenEvent _ _) => .ok []
  | decoded => decoded

def appendLog (block : CanonicalBlock) (s : List CanonicalRelationship × Discoveries)
    (log : CanonicalLog) :
    Except TransferDecodeError (List CanonicalRelationship × Discoveries) := do
  checkLog block log
  let movements ← logMovements log
  movements.foldlM (appendMovement sha256 log) s

/-! ## Internal transfers -/

def nonempty (text : Option String) : Bool := text.any (· ≠ "")

def frameReverted (frame : RpcCallFrame) : Bool :=
  nonempty frame.error || nonempty frame.revertReason

/-- `to_ascii_uppercase` of the trimmed call type -/
def callKind (frame : RpcCallFrame) : String := String.ofList ((trim frame.callType).map Char.toUpper)

def carriesValue (tx : CanonicalTransaction) (frame : RpcCallFrame) :
    Except TransferDecodeError Bool :=
  if callKind frame ∈ ["CALL", "CREATE", "CREATE2", "SELFDESTRUCT"] then .ok true
  else if callKind frame ∈ ["DELEGATECALL", "STATICCALL", "CALLCODE"] then .ok false
  else .error (.invalidTrace tx.hash "trace contains an unsupported call type")

def internalTransfer (tx : CanonicalTransaction) (traceAddress : List Nat)
    (fromAddress toAddress : String) (value : Nat) : CanonicalRelationship :=
  relationship sha256 tx.hash tx.transactionIndex (traceAddress.head?.getD 0) 0 traceAddress
    fromAddress toAddress nativeBnb "" value "internal"

def frameValue : Option String → Except TransferDecodeError Nat
  | none => .ok 0
  | some value => evidence (parseU256 "trace.value" value)

/-- The edge of the frame itself. -/
def appendFrameValue (tx : CanonicalTransaction) (frame : RpcCallFrame) (traceAddress : List Nat) :
    Except TransferDecodeError (List CanonicalRelationship) := do
  let value ← frameValue frame.value
  if value = 0 then pure []
  else do
    let fromText ← context frame.fromAddress
      (.invalidTrace tx.hash "value-carrying frame has no from address")
    let fromAddress ← evidence (normalizeAddress "trace.from" fromText)
    let toText ← context frame.toAddress
      (.invalidTrace tx.hash "value-carrying frame has no to address")
    let toAddress ← evidence (normalizeAddress "trace.to" toText)
    pure (if fromAddress = toAddress then []
      else [internalTransfer sha256 tx traceAddress fromAddress toAddress value])

/-- The edge of a frame whose call type is known. -/
def appendFrameEdge (tx : CanonicalTransaction) (frame : RpcCallFrame) (traceAddress : List Nat) :
    Except TransferDecodeError (List CanonicalRelationship) := do
  let carries ← carriesValue tx frame
  if carries then appendFrameValue sha256 tx frame traceAddress else pure []

mutual

def appendCallFrame (tx : CanonicalTransaction) :
    RpcCallFrame → List Nat → Except TransferDecodeError (List CanonicalRelationship)
  | .mk callType fromAddress toAddress value error revertReason calls, traceAddress =>
    if frameReverted (.mk callType fromAddress toAddress value error revertReason calls) then .ok []
    else do
      let own ← appendFrameEdge sha256 tx
        (.mk callType fromAddress toAddress value error revertReason calls) traceAddress
      let inner ← appendCallFrames tx calls 0 traceAddress
      pure (own ++ inner)

/-- The loop over the children of a frame. -/
def appendCallFrames (tx : CanonicalTransaction) :
    List RpcCallFrame → Nat → List Nat → Except TransferDecodeError (List CanonicalRelationship)
  | [], _, _ => .ok []
  | child :: rest, index, traceAddress => do
    let i ← toU32 index "trace child index"
    let first ← appendCallFrame tx child (traceAddress ++ [i])
    let others ← appendCallFrames tx rest (index + 1) traceAddress
    pure (first ++ others)

end

def insertTrace (map : List (String × RpcBlockTrace)) (trace : RpcBlockTrace) :
    Except TransferDecodeError (List (String × RpcBlockTrace)) := do
  let txHash ← evidence (normalizeHash "trace.txHash" trace.txHash)
  ensure (map.lookup txHash).isNone .duplicateTrace
  pure ((txHash, trace) :: map)

/-- `by_hash` -/
def tracesByHash (traces : List RpcBlockTrace) :
    Except TransferDecodeError (List (String × RpcBlockTrace)) := traces.foldlM insertTrace []

/-- What the trace of a transaction contributes. -/
def appendTrace (tx : CanonicalTransaction) (trace : RpcBlockTrace) :
    Except TransferDecodeError (List CanonicalRelationship) := do
  let rootText ← context trace.result.fromAddress
    (.invalidTrace tx.hash "root frame has no from address")
  let rootFrom ← evidence (normalizeAddress "trace.root.from" rootText)
  ensure (rootFrom = tx.fromAddress)
    (.invalidTrace tx.hash "root sender does not match transaction sender")
  if tx.status = 1 then do
    ensure (frameReverted trace.result = false)
      (.invalidTrace tx.hash "successful receipt has a reverted root trace")
    appendCallFrames sha256 tx trace.result.calls 0 []
  else pure []

def appendTransactionTrace (s : List (String × RpcBlockTrace) × List CanonicalRelationship)
    (tx : CanonicalTransaction) :
    Except TransferDecodeError (List (String × RpcBlockTrace) × List CanonicalRelationship) := do
  let trace ← context (s.1.lookup tx.hash) (.missingTrace tx.hash)
  let edges ← appendTrace sha256 tx trace
  pure (EntryList.remove s.1 tx.hash, s.2 ++ edges)

def appendInternalTransfers (block : CanonicalBlock) (traces : List RpcBlockTrace) :
    Except TransferDecodeError (List CanonicalRelationship) := do
  ensure (traces.length = block.transactions.length)
    (.traceCountMismatch block.transactions.length traces.length)
  let byHash ← tracesByHash traces
  let final ← block.transactions.foldlM (appendTransactionTrace sha256) (byHash, [])
  ensure (final.1 = []) .unknownTrace
  pure final.2

/-- The edges of the traces, when the node gave traces. -/
def appendTraces (block : CanonicalBlock) :
    Option (List RpcBlockTrace) → Except TransferDecodeError (List CanonicalRelationship)
  | none => .ok []
  | some traces => appendInternalTransfers sha256 block traces

/-! ## Blocks -/

def compareRelationships (a b : CanonicalRelationship) : Ordering :=
  (compare a.transactionIndex b.transactionIndex).then <|
    (compare a.eventIndex b.eventIndex).then <|
      (compare a.eventSubIndex b.eventSubIndex).then <|
        (compare a.traceAddress b.traceAddress).then (compare a.relationshipId b.relationshipId)

def compareDiscoveries (a b : TokenMetadataDiscovery) : Ordering :=
  (compare a.tokenAddress b.tokenAddress).then (compare a.standardHint b.standardHint)

def extractBlockEvidence (block : CanonicalBlock) (traces : Option (List RpcBlockTrace)) :
    Except TransferDecodeError ExtractedBlockEvidence := do
  let natives ← block.transactions.mapM (appendTransaction sha256 block)
  let (tokens, discoveries) ← block.logs.foldlM (appendLog sha256 block) ([], [])
  let internals ← appendTraces sha256 block traces
  pure ⟨(natives.flatten ++ tokens ++ internals).insertionSort
      fun a b => (compareRelationships a b).isLE,
    (discoveries.map Prod.snd).insertionSort fun a b => (compareDiscoveries a b).isLE,
    traces.isSome⟩

end

end AmlReal.Bsc.Transfers
