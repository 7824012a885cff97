import AmlReal.Foundations.Checks
import AmlReal.Foundations.FixedWidth
import AmlReal.Foundations.Text

/-! # What a transaction moves

The part of `ethereum/extractor.rs` that reads the transfers of one transaction
from its value, its logs and its call trace. Addresses and words are bit
vectors; the digests of Keccak-256 and SHA-256 are parameters. -/

namespace AmlReal.Ethereum.Movements
open AmlReal.Foundations.Checks AmlReal.Foundations.FixedWidth AmlReal.Foundations.Text

abbrev Byte := BitVec 8
abbrev Address := BitVec 160
abbrev B256 := BitVec 256
abbrev U256 := BitVec 256

/-- `{:#x}` of an address -/
def addressText (address : Address) : String := hexText 40 address.toNat

/-- `{:#x}` of a word -/
def hashText (hash : B256) : String := hexText 64 hash.toNat

structure Log where
  address : Address
  topics : List B256
  data : List Byte
  logIndex : Option Nat
  removed : Bool
  deriving DecidableEq

def Log.topic0 (log : Log) : Option B256 := log.topics.head?

/-! ## Words and addresses -/

/-- `U256::from_be_slice` -/
def wordValue (bytes : List Byte) : U256 := BitVec.ofNat 256 (number 256 (bytes.map BitVec.toNat))

/-- `data.get(start..start + 32)` -/
def wordAt (data : List Byte) (start : Nat) : Option (List Byte) :=
  if start + 32 ≤ data.length then some ((data.drop start).take 32) else none

def word (data : List Byte) (index : Nat) : Option (List Byte) := wordAt data (32 * index)

def wordAddress (word : List Byte) : Option Address :=
  if word.length = 32 ∧ (word.take 12).all (· = 0) then
    some (BitVec.ofNat 160 (number 256 ((word.drop 12).map BitVec.toNat)))
  else none

def topicAddress (topic : B256) : Option Address :=
  if topic.toNat < 2 ^ 160 then some (BitVec.ofNat 160 topic.toNat) else none

def wordUsize (word : List Byte) : Option Nat :=
  if word.length = 32 ∧ (word.take 24).all (· = 0) then
    some (number 256 ((word.drop 24).map BitVec.toNat))
  else none

/-! ## Token movements -/

inductive TokenStandard where
  | erc20
  | erc721
  | erc1155
  deriving DecidableEq

def TokenStandard.asStr : TokenStandard → String
  | .erc20 => "erc20"
  | .erc721 => "erc721"
  | .erc1155 => "erc1155"

structure TokenMovement where
  contract : Address
  fromAddress : Address
  toAddress : Address
  amount : U256
  tokenId : Option U256
  standard : TokenStandard
  eventSubIndex : Nat
  deriving DecidableEq

/-- The digests of the three transfer events. -/
structure TransferTopics where
  ERC_TRANSFER_EVENT : B256
  ERC1155_TRANSFER_SINGLE_EVENT : B256
  ERC1155_TRANSFER_BATCH_EVENT : B256

def decodeErc20OrErc721 (log : Log) : Option TokenMovement := do
  let fromAddress ← topicAddress (← log.topics[1]?)
  let toAddress ← topicAddress (← log.topics[2]?)
  match log.topics with
  | [_, _, _] =>
    if log.data.length = 32 then
      some ⟨log.address, fromAddress, toAddress, wordValue log.data, none, .erc20, 0⟩
    else none
  | [_, _, _, topic3] =>
    if log.data = [] then
      some ⟨log.address, fromAddress, toAddress, 1, some topic3, .erc721, 0⟩
    else none
  | _ => none

def decodeErc1155Single (log : Log) : Option TokenMovement := do
  if log.topics.length ≠ 4 ∨ log.data.length ≠ 64 then none
  else
    let fromAddress ← topicAddress (← log.topics[2]?)
    let toAddress ← topicAddress (← log.topics[3]?)
    let tokenId ← word log.data 0
    let amount ← word log.data 1
    some ⟨log.address, fromAddress, toAddress, wordValue amount, some (wordValue tokenId),
      .erc1155, 0⟩

/-- `items.chunks_exact(32)` of a slice of as many words -/
def wordsFrom (data : List Byte) (start : Nat) : Nat → List U256
  | 0 => []
  | n + 1 => wordValue ((data.drop start).take 32) :: wordsFrom data (start + 32) n

def abiU256Array (data : List Byte) (offset : Nat) : Option (List U256) := do
  if offset % 32 ≠ 0 then none
  else
    let length ← wordUsize (← wordAt data offset)
    if offset + 32 + 32 * length ≤ data.length then some (wordsFrom data (offset + 32) length)
    else none

def batchMovement (log : Log) (fromAddress toAddress : Address) (item : (U256 × U256) × Nat) :
    Option TokenMovement :=
  if item.2 < 2 ^ 32 then
    some ⟨log.address, fromAddress, toAddress, item.1.2, some item.1.1, .erc1155, item.2⟩
  else none

/-- The movements of a batch, or nothing where one of its parts is malformed. -/
def erc1155Batch (log : Log) : Option (List TokenMovement) := do
  if log.topics.length ≠ 4 then none
  else
    let fromAddress ← topicAddress (← log.topics[2]?)
    let toAddress ← topicAddress (← log.topics[3]?)
    let idsOffset ← wordUsize (← word log.data 0)
    let valuesOffset ← wordUsize (← word log.data 1)
    let ids ← abiU256Array log.data idsOffset
    let values ← abiU256Array log.data valuesOffset
    if ids.length ≠ values.length then none
    else some ((ids.zip values).zipIdx.filterMap (batchMovement log fromAddress toAddress))

def decodeErc1155Batch (log : Log) : List TokenMovement := (erc1155Batch log).getD []

def tokenMovements (topics : TransferTopics) (log : Log) : List TokenMovement :=
  match log.topic0 with
  | none => []
  | some topic0 =>
    if topic0 = topics.ERC_TRANSFER_EVENT then (decodeErc20OrErc721 log).toList
    else if topic0 = topics.ERC1155_TRANSFER_SINGLE_EVENT then (decodeErc1155Single log).toList
    else if topic0 = topics.ERC1155_TRANSFER_BATCH_EVENT then decodeErc1155Batch log
    else []

/-! ## Relationships -/

def isNamespaceChar (c : Char) : Bool := isAsciiLowercase c || c.isDigit

def isReferenceChar (c : Char) : Bool := isNamespaceChar c || c = '-' || c = '_'

/-- `NetworkId::from_str` -/
def networkFromStr (value : String) : Option String :=
  let normalized := (trim value).toLower
  match splitOnce ':' normalized with
  | none => none
  | some (ns, reference) =>
    if ns ≠ "" ∧ reference ≠ "" ∧ ns.toList.all isNamespaceChar ∧
        reference.toList.all isReferenceChar then some normalized
    else none

/-- What `extract_block` takes from the block for every row. -/
structure BlockContext where
  network : String
  blockHash : B256
  blockNumber : Nat
  blockTimestampUnixMs : Nat
  sha256 : String → String
  topics : TransferTopics

structure TransferOrigin where
  txHash : Option B256
  transactionIndex : Nat
  eventIndex : Nat
  eventSubIndex : Nat
  traceAddress : List Nat

structure AddressRelationshipRow where
  relationshipId : String
  networkId : String
  blockHash : String
  blockNumber : Nat
  blockTimestampUnixMs : Nat
  txHash : String
  transactionIndex : Nat
  eventIndex : Nat
  eventSubIndex : Nat
  traceAddress : List Nat
  fromAddress : String
  toAddress : String
  assetId : String
  tokenId : String
  amount : Nat
  transferType : String
  deriving DecidableEq

/-- `AssetId::native_eth` and its canonical key -/
def nativeEth (network : String) : String := network ++ "/native:eth"

/-- `token_asset` and its canonical key -/
def tokenAsset (network : String) (standard : TokenStandard) (contract : Address) : String :=
  network ++ "/" ++ (standard.asStr ++ ":" ++ addressText contract)

/-- The name of `movement_kind`. -/
def movementKind (standard : TokenStandard) (fromAddress toAddress : Address) : String :=
  if fromAddress = 0 then standard.asStr ++ "_mint"
  else if toAddress = 0 then standard.asStr ++ "_burn"
  else standard.asStr

def tokenIdText (tokenId : Option U256) : String := tokenId.elim "" fun id => id.toNat.repr

section
variable (c : BlockContext)

/-- `relationship_row` of a canonical transfer; the callers have seen that the
amount is not zero. -/
def relationshipRow (origin : TransferOrigin) (fromAddress toAddress : Address) (assetId : String)
    (tokenId : Option U256) (amount : U256) (kind : String) : AddressRelationshipRow where
  relationshipId := c.sha256 ("|".intercalate [c.network, c.blockNumber.repr,
    origin.txHash.elim "system" hashText, origin.transactionIndex.repr, origin.eventIndex.repr,
    origin.eventSubIndex.repr, ".".intercalate (origin.traceAddress.map Nat.repr),
    c.network ++ ":" ++ addressText fromAddress, c.network ++ ":" ++ addressText toAddress,
    assetId, tokenIdText tokenId, kind])
  networkId := c.network
  blockHash := hashText c.blockHash
  blockNumber := c.blockNumber
  blockTimestampUnixMs := c.blockTimestampUnixMs
  txHash := origin.txHash.elim "" hashText
  transactionIndex := origin.transactionIndex
  eventIndex := origin.eventIndex
  eventSubIndex := origin.eventSubIndex
  traceAddress := origin.traceAddress
  fromAddress := addressText fromAddress
  toAddress := addressText toAddress
  assetId := assetId
  tokenId := tokenIdText tokenId
  amount := amount.toNat
  transferType := kind

structure ObservedMovement where
  logIndex : Nat
  contract : Address
  fromAddress : Address
  toAddress : Address
  assetId : String
  amount : U256
  deriving DecidableEq

/-- What one transaction and its receipt hand to the extraction. -/
structure TransactionInput where
  txHash : B256
  transactionIndex : Nat
  sender : Address
  destination : Option Address
  value : U256
  status : Bool
  logs : List Log

def observedMovement (logIndex : Nat) (movement : TokenMovement) : ObservedMovement where
  logIndex := logIndex
  contract := movement.contract
  fromAddress := movement.fromAddress
  toAddress := movement.toAddress
  assetId := tokenAsset c.network movement.standard movement.contract
  amount := movement.amount

def tokenRelationship (tx : TransactionInput) (logIndex : Nat) (movement : TokenMovement) :
    AddressRelationshipRow :=
  relationshipRow c ⟨some tx.txHash, tx.transactionIndex, logIndex, movement.eventSubIndex, []⟩
    movement.fromAddress movement.toAddress
    (tokenAsset c.network movement.standard movement.contract) movement.tokenId movement.amount
    (movementKind movement.standard movement.fromAddress movement.toAddress)

def nativeRelationship (tx : TransactionInput) (toAddress : Address) : AddressRelationshipRow :=
  relationshipRow c ⟨some tx.txHash, tx.transactionIndex, 0, 0, []⟩ tx.sender toAddress
    (nativeEth c.network) none tx.value "native_external"

/-- The row of the value a transaction carries itself. -/
def nativeRelationships (tx : TransactionInput) : List AddressRelationshipRow :=
  if tx.status ∧ tx.value ≠ 0 then tx.destination.toList.map (nativeRelationship c tx) else []

def toU32 (value : Nat) (field : String) : Except String Nat :=
  if value < 2 ^ 32 then .ok value else .error s!"{field} {value} exceeds UInt32"

/-- The movements of a log with the index of the log; those of nothing are dropped. -/
def logMovements (item : Log × Nat) : Except String (List (Nat × TokenMovement)) := do
  ensure (item.1.removed = false) s!"removed log returned for finalized block {c.blockNumber}"
  let logIndex ← toU32 (item.1.logIndex.getD item.2) "log index"
  pure (((tokenMovements c.topics item.1).filter fun movement => movement.amount ≠ 0).map
    fun movement => (logIndex, movement))

/-! ## Internal transfers -/

inductive CallFrame where
  | mk (typ : String) (fromAddress : Address) (toAddress : Option Address) (value : Option U256)
    (error revertReason : Option String) (calls : List CallFrame)

structure TransactionTrace where
  txHash : B256
  transactionIndex : Nat
  calls : List CallFrame

def internalRelationship (tx : TransactionInput) (traceAddress : List Nat)
    (fromAddress toAddress : Address) (value : U256) : AddressRelationshipRow :=
  relationshipRow c ⟨some tx.txHash, tx.transactionIndex, 0, 0, traceAddress⟩ fromAddress toAddress
    (nativeEth c.network) none value "native_internal"

/-- What a frame that has not failed moves itself. -/
def frameRelationships (tx : TransactionInput) (typ : String) (fromAddress : Address)
    (toAddress : Option Address) (value : Option U256) (traceAddress : List Nat) :
    List AddressRelationshipRow :=
  if typ.toUpper ∈ ["CALL", "CREATE", "CREATE2", "SELFDESTRUCT"] then
    match toAddress, value with
    | some receiver, some value =>
      if value ≠ 0 ∧ fromAddress ≠ receiver then
        [internalRelationship c tx traceAddress fromAddress receiver value]
      else []
    | _, _ => []
  else []

mutual

def appendCallFrame (tx : TransactionInput) :
    CallFrame → List Nat → Except String (List AddressRelationshipRow)
  | .mk typ fromAddress toAddress value error revertReason calls, traceAddress =>
    if error.isSome ∨ revertReason.isSome then .ok []
    else do
      let inner ← appendCallFrames tx calls 0 traceAddress
      pure (frameRelationships c tx typ fromAddress toAddress value traceAddress ++ inner)

/-- The loop over the children of a frame. -/
def appendCallFrames (tx : TransactionInput) :
    List CallFrame → Nat → List Nat → Except String (List AddressRelationshipRow)
  | [], _, _ => .ok []
  | child :: rest, index, traceAddress => do
    let i ← toU32 index "trace index"
    let first ← appendCallFrame tx child (traceAddress ++ [i])
    let others ← appendCallFrames tx rest (index + 1) traceAddress
    pure (first ++ others)

end

def internalRelationships (tx : TransactionInput) (trace : Option TransactionTrace) :
    Except String (List AddressRelationshipRow) :=
  match trace with
  | none => .ok []
  | some trace =>
    if tx.status then do
      ensure (trace.transactionIndex = tx.transactionIndex)
        s!"trace transaction index mismatch for {hashText tx.txHash}"
      appendCallFrames c tx trace.calls 0 []
    else .ok []

/-- What the semantic decoder gets to see of the transfers of a transaction. -/
structure Transfers where
  movements : List ObservedMovement
  relationships : List AddressRelationshipRow

/-- The body of the loop over the transactions, up to the semantic decoder. -/
def extractTransfers (tx : TransactionInput) (trace : Option TransactionTrace) :
    Except String Transfers := do
  let moved ← tx.logs.zipIdx.mapM (logMovements c)
  let internal ← internalRelationships c tx trace
  pure {
    movements := moved.flatten.map fun m => observedMovement c m.1 m.2
    relationships := nativeRelationships c tx ++
      moved.flatten.map (fun m => tokenRelationship c tx m.1 m.2) ++ internal }

end

end AmlReal.Ethereum.Movements
