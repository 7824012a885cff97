import Mathlib.Algebra.Order.Field.Basic
import Mathlib.Data.List.Sort
import AmlReal.Foundations.Checks
import AmlReal.Foundations.EntryList
import AmlReal.Foundations.LimitBy

/-! # TRON exposure propagation

`propagate_exposure` of `exposure/propagation.rs` and `exposure/scorer.rs`, in the
arithmetic of an ordered field. The square root and the power of one half are
parameters; whatever they return, the scorer clamps it. -/

namespace AmlReal.Tron.ExposurePropagation
open AmlReal.Foundations AmlReal.Foundations.Checks AmlReal.Foundations.EntryList
open AmlReal.Foundations.LimitBy

/-! ## Tables -/

/-- A row of `address_relationships_canonical`, with what the view guarantees. -/
structure Relationship where
  fromAddress : String
  toAddress : String
  tokenAddress : String
  txHash : String
  blockNumber : Nat
  timestamp : Nat
  amount : Nat
  transferType : String
  from_ne : ¬fromAddress = ""
  to_ne : ¬toAddress = ""
  amount_pos : amount > 0
  deriving DecidableEq

structure Tables where
  relationships : List Relationship
  /-- The active rows of `exchange_addresses`, one for an address. -/
  exchangeWallets : List String
  /-- The `COMPLETE` rows of `ingested_blocks`. -/
  completeBlocks : List Nat

structure ExposureEdgeRow (α : Type) where
  toAddress : String
  tokenAddress : String
  txHash : String
  blockNumber : Nat
  timestamp : Nat
  amountShare : α
  serviceMediated : Nat

structure ExposureAggregate (α : Type) where
  hopDistance : Nat
  exposureScore : α
  pathCount : Nat
  lastTxHash : String
  lastSeenBlock : Nat
  amountShare : α
  timeWeight : α
  serviceMediated : Nat

structure AddressExposureRow (α : Type) where
  sourceAddress : String
  exposedAddress : String
  hopDistance : Nat
  exposureScore : α
  pathCount : Nat
  lastTxHash : String
  lastSeenBlock : Nat
  exposureType : String
  bestPathAmountShare : α
  bestPathTimeWeight : α
  serviceMediated : Nat
  propagationRunId : String

def MAX_EXPANDED_ADDRESSES : Nat := 50000

def MAX_EDGES_PER_ADDRESS : Nat := 2000

def MAX_STATES : Nat := 100000

/-- The functions of `f64` that are no field operations. -/
structure Functions (α : Type) where
  sqrt : α → α
  /-- `0.5_f64.powf` -/
  halfPow : α → α

section
variable {α : Type} [Field α] [LinearOrder α]

/-- `f64::clamp` -/
def clamp (x low high : α) : α := if x < low then low else if high < x then high else x

/-! ## Scores -/

def HOP_DECAY : α := 3 / 4

def SERVICE_MEDIATION_FACTOR : α := 7 / 20

def amountWeight (f : Functions α) (amountShare : α) : α :=
  clamp (1 / 4 + 3 / 4 * f.sqrt (clamp amountShare 0 1)) (1 / 4) 1

def edgeExposureScore (f : Functions α) (parentScore amountShare timeWeight : α)
    (serviceMediated : Bool) : α :=
  let serviceWeight := if serviceMediated then SERVICE_MEDIATION_FACTOR else 1
  clamp (clamp parentScore 0 1 * HOP_DECAY * amountWeight f amountShare * clamp timeWeight 0 1 *
    serviceWeight) 0 1

def HALF_LIFE_MS : α := 180 * 24 * 60 * 60 * 1000

def timeWeight (f : Functions α) (nowUnixMs eventUnixMs : Nat) : α :=
  clamp (f.halfPow (((nowUnixMs - eventUnixMs : Nat) : α) / HALF_LIFE_MS)) (1 / 20) 1

def mayExpand (serviceMediated : Nat) : Bool := serviceMediated = 0

/-! ## Edges -/

variable (α) in
/-- `token_totals` of an address. -/
def tokenTotal (db : Tables) (address token : String) : α :=
  ((db.relationships.filter fun ar => ar.fromAddress = address ∧ ar.tokenAddress = token).map
    fun ar => (ar.amount : α)).sum

def transferTypes : List String := ["native_transfer", "trc10_transfer", "trc20_transfer"]

def edgeRow (db : Tables) (address : String) (ar : Relationship) : ExposureEdgeRow α where
  toAddress := ar.toAddress
  tokenAddress := ar.tokenAddress
  txHash := ar.txHash
  blockNumber := ar.blockNumber
  timestamp := ar.timestamp
  amountShare :=
    if 0 < tokenTotal α db address ar.tokenAddress then
      min ((ar.amount : α) / tokenTotal α db address ar.tokenAddress) 1
    else 0
  serviceMediated := if ar.toAddress ∈ db.exchangeWallets then 1 else 0

/-- `? = 0 OR (ar.token_address = ? AND ar.block_number > ?)` -/
def follows (arrival : Option (String × Nat)) (ar : Relationship) : Bool :=
  match arrival with
  | none => true
  | some (asset, afterBlock) => ar.tokenAddress = asset ∧ afterBlock < ar.blockNumber

/-- `WHERE` of the query. -/
def outgoing (db : Tables) (address : String) (arrival : Option (String × Nat)) : List Relationship :=
  db.relationships.filter fun ar =>
    ar.fromAddress = address ∧ ar.transferType ∈ transferTypes ∧ follows arrival ar

/-- `ORDER BY block_number DESC, tx_hash ASC` -/
def byBlock (rows : List Relationship) : List Relationship :=
  rows.insertionSort fun a b =>
    b.blockNumber < a.blockNumber ∨ (a.blockNumber = b.blockNumber ∧ a.txHash ≤ b.txHash)

theorem byBlock_perm (rows : List Relationship) : (byBlock rows).Perm rows :=
  List.perm_insertionSort _ _

/-! ## The search -/

/-- The arguments of a run and what it reads. -/
structure Run (α : Type) where
  db : Tables
  functions : Functions α
  /-- The order in which a query returns rows that tie. -/
  arrange : Nat → Arrangement Relationship
  seedAddress : String
  maxHops : Nat
  nowUnixMs : Nat
  propagationRunId : String

structure Queued (α : Type) where
  current : String
  currentScore : α
  hops : Nat
  arrival : Option (String × Nat)

structure Searching (α : Type) where
  queue : List (Queued α)
  bestScores : List ((String × String × Nat) × α)
  aggregates : List (String × ExposureAggregate α)
  expanded : Nat

variable (run : Run α)

def loadOutgoingEdges (query : Nat) (address : String) (arrival : Option (String × Nat)) :
    Except String (List (ExposureEdgeRow α)) := do
  let rows := (byBlock ((run.arrange query).order (outgoing run.db address arrival))).take
    (MAX_EDGES_PER_ADDRESS + 1)
  ensure (rows.length ≤ MAX_EDGES_PER_ADDRESS)
    "exposure edge limit reached; refusing to publish a partial run as complete"
  pure ((rows.filter fun ar => ar.blockNumber ∈ run.db.completeBlocks).map (edgeRow run.db address))

/-- `u32::saturating_add` of one. -/
def countPath (n : Nat) : Nat := min (n + 1) (2 ^ 32 - 1)

/-- The aggregate of an address after another arrival. -/
def aggregate (edge : ExposureEdgeRow α) (nextHop : Nat) (timeWeight nextScore : α)
    (old : Option (ExposureAggregate α)) : ExposureAggregate α :=
  let entry : ExposureAggregate α := old.getD
    { hopDistance := nextHop
      exposureScore := nextScore
      pathCount := 0
      lastTxHash := edge.txHash
      lastSeenBlock := edge.blockNumber
      amountShare := edge.amountShare
      timeWeight := timeWeight
      serviceMediated := edge.serviceMediated }
  let entry := { entry with pathCount := countPath entry.pathCount }
  if entry.exposureScore < nextScore then
    { entry with
      hopDistance := nextHop
      exposureScore := nextScore
      lastTxHash := edge.txHash
      lastSeenBlock := edge.blockNumber
      amountShare := edge.amountShare
      timeWeight := timeWeight
      serviceMediated := edge.serviceMediated }
  else entry

/-- The loop over the edges of a state. -/
def visit (state : Queued α) : List (ExposureEdgeRow α) → Searching α → Except String (Searching α)
  | [], s => pure s
  | edge :: rest, s =>
    if edge.toAddress = "" ∨ edge.toAddress = state.current ∨ edge.toAddress = run.seedAddress then
      visit state rest s
    else do
      let nextHop := state.hops + 1
      let weight := timeWeight run.functions run.nowUnixMs edge.timestamp
      let nextScore := edgeExposureScore run.functions state.currentScore edge.amountShare weight
        (edge.serviceMediated = 1)
      let s := { s with
        aggregates := put s.aggregates edge.toAddress
          (aggregate edge nextHop weight nextScore (get s.aggregates edge.toAddress)) }
      let key := (edge.toAddress, edge.tokenAddress, edge.blockNumber)
      let previousBest := (get s.bestScores key).getD 0
      if mayExpand edge.serviceMediated ∧ previousBest < nextScore then
        ensure (s.bestScores.length < MAX_STATES ∨ (get s.bestScores key).isSome)
          "exposure state limit reached; refusing partial publication"
        visit state rest { s with
          bestScores := put s.bestScores key nextScore
          queue := s.queue ++
            [⟨edge.toAddress, nextScore, nextHop, some (edge.tokenAddress, edge.blockNumber)⟩] }
      else visit state rest s

def Searching.start (seedAddress : String) : Searching α := ⟨[⟨seedAddress, 1, 0, none⟩], [], [], 0⟩

/-- The loop over the queue, for so many rounds. -/
def search (maxHops : Nat) : Nat → Searching α → Option (Except String (Searching α))
  | 0, _ => none
  | fuel + 1, s =>
    match s.queue with
    | [] => some (.ok s)
    | state :: queue =>
      let s := { s with queue := queue }
      if maxHops ≤ state.hops then search maxHops fuel s
      else
        let looked : Except String (Searching α) := do
          ensure (s.expanded < MAX_EXPANDED_ADDRESSES)
            "exposure expansion limit reached; refusing to publish a partial run as complete"
          let edges ← loadOutgoingEdges run s.expanded state.current state.arrival
          visit run state edges { s with expanded := s.expanded + 1 }
        match looked with
        | .error e => some (.error e)
        | .ok s => search maxHops fuel s

def exposureRow (entry : String × ExposureAggregate α) : AddressExposureRow α where
  sourceAddress := run.seedAddress
  exposedAddress := entry.1
  hopDistance := entry.2.hopDistance
  exposureScore := entry.2.exposureScore
  pathCount := entry.2.pathCount
  lastTxHash := entry.2.lastTxHash
  lastSeenBlock := entry.2.lastSeenBlock
  exposureType := if entry.2.serviceMediated = 1 then "SERVICE_MEDIATED" else "DIRECTED_FUND_FLOW"
  bestPathAmountShare := entry.2.amountShare
  bestPathTimeWeight := entry.2.timeWeight
  serviceMediated := entry.2.serviceMediated
  propagationRunId := run.propagationRunId

/-- `rows.sort_by`: greater scores first, then fewer hops, then the address. -/
def sortRows (rows : List (AddressExposureRow α)) : List (AddressExposureRow α) :=
  rows.insertionSort fun left right => right.exposureScore < left.exposureScore ∨
    (left.exposureScore = right.exposureScore ∧ (left.hopDistance < right.hopDistance ∨
      (left.hopDistance = right.hopDistance ∧ left.exposedAddress ≤ right.exposedAddress)))

/-- `max_hops.clamp(1, 10)` -/
def clampHops (maxHops : Nat) : Nat := max 1 (min maxHops 10)

/-- More rounds than a run takes: each expanded state queues at most one for each of its edges. -/
def rounds : Nat := MAX_EXPANDED_ADDRESSES * (MAX_EDGES_PER_ADDRESS + 1) + 2

def propagateExposure : Option (Except String (List (AddressExposureRow α))) :=
  (search run (clampHops run.maxHops) rounds (Searching.start run.seedAddress)).map fun result =>
    result.map fun s => sortRows (s.aggregates.map (exposureRow run))

end

end AmlReal.Tron.ExposurePropagation
