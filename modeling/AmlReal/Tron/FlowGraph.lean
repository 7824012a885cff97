import Mathlib.Data.List.Sort
import Mathlib.Data.List.Dedup
import AmlReal.Foundations.LimitBy
import AmlReal.Foundations.Text

/-! # TRON flow graphs

`find_wallet_paths` and `load_relationship_neighborhood` of `neo4j/flow_graph.rs`.
The relationships are the rows of `address_relationships_canonical`; the columns
that the queries join to a row have no part in the search. Rows of one block come
in any order, which may be another one at every query. -/

namespace AmlReal.Tron.FlowGraph
open AmlReal.Foundations AmlReal.Foundations.LimitBy

structure FlowEdge where
  id : String
  fromAddress : String
  toAddress : String
  tokenAddress : String
  txHash : String
  blockNumber : Nat
  deriving DecidableEq

/-- The rows of the view, one for each relationship. -/
structure Relationships where
  rows : List FlowEdge
  ids : (rows.map FlowEdge.id).Nodup

/-- `ORDER BY block_number DESC` -/
def byBlock (rows : List FlowEdge) : List FlowEdge :=
  rows.insertionSort fun a b => b.blockNumber ≤ a.blockNumber

theorem byBlock_perm (rows : List FlowEdge) : (byBlock rows).Perm rows := List.perm_insertionSort _ _

/-! ## Paths -/

inductive PathSearchDirection where
  | outgoing
  | incoming
  | any
  deriving DecidableEq

namespace PathSearchDirection

def fromParam (value : Option String) : PathSearchDirection :=
  let text := (Text.trim (value.getD "outgoing")).toLower
  if text = "incoming" ∨ text = "reverse" then incoming
  else if text = "any" ∨ text = "both" ∨ text = "undirected" then any
  else outgoing

def asStr : PathSearchDirection → String
  | outgoing => "outgoing"
  | incoming => "incoming"
  | any => "any"

end PathSearchDirection

/-- The limits of a search as `build_wallet_path_graph` clamps them. -/
structure PathLimits where
  maxDepth : Nat
  maxPaths : Nat
  perAddressLimit : Nat
  depth : 1 ≤ maxDepth ∧ maxDepth ≤ 10
  paths : 1 ≤ maxPaths ∧ maxPaths ≤ 50
  rows : 1 ≤ perAddressLimit ∧ perAddressLimit ≤ 2000

def clamp (n low high : Nat) : Nat := max low (min n high)

theorem clamp_bounds (n : Nat) {low high : Nat} (h : low ≤ high) :
    low ≤ clamp n low high ∧ clamp n low high ≤ high := by
  unfold clamp
  omega

def PathLimits.ofRequest (maxDepth maxPaths perAddressLimit : Option Nat) : PathLimits where
  maxDepth := clamp (maxDepth.getD 10) 1 10
  maxPaths := clamp (maxPaths.getD 20) 1 50
  perAddressLimit := clamp (perAddressLimit.getD 500) 1 2000
  depth := clamp_bounds _ (by omega)
  paths := clamp_bounds _ (by omega)
  rows := clamp_bounds _ (by omega)

structure PathSearchState where
  current : String
  nodeIds : List String
  edges : List FlowEdge

structure FoundPath where
  nodeIds : List String
  edges : List FlowEdge
  deriving DecidableEq

structure PathSearchResult where
  paths : List FoundPath
  searchedNodeCount : Nat
  truncated : Bool

/-- The condition of the query for an address. -/
def selects (direction : PathSearchDirection) (address : String) (edge : FlowEdge) : Bool :=
  match direction with
  | .outgoing => edge.fromAddress = address
  | .incoming => edge.toAddress = address
  | .any => edge.fromAddress = address ∨ edge.toAddress = address

def nextPathAddress (direction : PathSearchDirection) (edge : FlowEdge) (current : String) :
    Option String :=
  match direction with
  | .outgoing => if edge.fromAddress = current then some edge.toAddress else none
  | .incoming => if edge.toAddress = current then some edge.fromAddress else none
  | .any =>
    if edge.fromAddress = current then some edge.toAddress
    else if edge.toAddress = current then some edge.fromAddress
    else none

def maxExpandedNodes : Nat := 25000

/-- The variables of the search. -/
structure Searching where
  queue : List PathSearchState
  foundPaths : List FoundPath
  searchedNodeCount : Nat
  truncated : Bool

def Searching.start (source : String) : Searching := ⟨[⟨source, [source], []⟩], [], 0, false⟩

section
variable (db : Relationships) (arrange : Nat → Arrangement FlowEdge) (target : String)
  (limits : PathLimits) (direction : PathSearchDirection)

/-- The rows that the query for an address may return. -/
def pathRelationships (address : String) : List FlowEdge := db.rows.filter (selects direction address)

def loadPathRelationshipsForAddress (query : Nat) (address : String) : List FlowEdge :=
  (byBlock ((arrange query).order (pathRelationships db direction address))).take limits.perAddressLimit

/-- The loop over the rows of a state. -/
def visit (state : PathSearchState) : List FlowEdge → Searching → Searching
  | [], s => s
  | edge :: rest, s =>
    match nextPathAddress direction edge state.current with
    | none => visit state rest s
    | some next =>
      if next ∈ state.nodeIds then visit state rest s
      else
        let nextNodeIds := state.nodeIds ++ [next]
        let nextEdges := state.edges ++ [edge]
        if next = target then
          let s := { s with foundPaths := s.foundPaths ++ [⟨nextNodeIds, nextEdges⟩] }
          if limits.maxPaths ≤ s.foundPaths.length then { s with truncated := true }
          else visit state rest s
        else visit state rest { s with queue := s.queue ++ [⟨next, nextNodeIds, nextEdges⟩] }

/-- The loop over the queue, for so many rounds. -/
def search : Nat → Searching → Option Searching
  | 0, _ => none
  | fuel + 1, s =>
    match s.queue with
    | [] => some s
    | state :: queue =>
      let s := { s with queue := queue }
      if limits.maxDepth ≤ state.edges.length then search fuel s
      else if maxExpandedNodes ≤ s.searchedNodeCount then some { s with truncated := true }
      else
        let rows := loadPathRelationshipsForAddress db arrange limits direction s.searchedNodeCount
          state.current
        let s := { s with searchedNodeCount := s.searchedNodeCount + 1 }
        let s := if limits.perAddressLimit ≤ rows.length then { s with truncated := true } else s
        let s := visit target limits direction state rows s
        if limits.maxPaths ≤ s.foundPaths.length then some s else search fuel s

/-- More rounds than the search takes: each expanded node queues at most a row's state for each
of its rows. -/
def rounds : Nat := maxExpandedNodes * (limits.perAddressLimit + 1) + 2

def findWalletPaths (source : String) : Option PathSearchResult :=
  (search db arrange target limits direction (rounds limits) (Searching.start source)).map fun s =>
    ⟨s.foundPaths, s.searchedNodeCount, s.truncated⟩

end

/-! ## The neighbourhood of a wallet -/

def touches (addresses : List String) (edge : FlowEdge) : Bool :=
  edge.fromAddress ∈ addresses ∨ edge.toAddress ∈ addresses

/-- The variables of the search. -/
structure Exploring where
  frontier : List String
  visited : List String
  edges : List FlowEdge

/-- The variables of the loop over the rows of a level. -/
structure Collecting where
  edges : List FlowEdge
  nextFrontier : List String

section
variable (db : Relationships) (arrange : Nat → Arrangement FlowEdge)

def loadRelationshipsForAddresses (query : Nat) (addresses : List String) (limit : Nat) :
    List FlowEdge :=
  if addresses = [] ∨ limit = 0 then []
  else (byBlock ((arrange query).order (db.rows.filter (touches addresses)))).take limit

/-- The ends of an edge that are neither visited nor in the next frontier. -/
def discover (visited : List String) (edge : FlowEdge) (nextFrontier : List String) : List String :=
  let next := if edge.fromAddress ∉ visited ∧ edge.fromAddress ∉ nextFrontier then
    nextFrontier ++ [edge.fromAddress] else nextFrontier
  if edge.toAddress ∉ visited ∧ edge.toAddress ∉ next then next ++ [edge.toAddress] else next

/-- The loop over the rows of a level; the ids that were seen are those of the edges. -/
def collect (edgeLimit : Nat) (last : Bool) (visited : List String) :
    List FlowEdge → Collecting → Collecting
  | [], c => c
  | edge :: rest, c =>
    if edge.id ∈ c.edges.map FlowEdge.id then collect edgeLimit last visited rest c
    else
      let c : Collecting := ⟨c.edges ++ [edge],
        if last then c.nextFrontier else discover visited edge c.nextFrontier⟩
      if edgeLimit ≤ c.edges.length then c else collect edgeLimit last visited rest c

/-- `frontier.retain(|address| visited.insert(address))` -/
def retain (frontier visited : List String) : List String × List String :=
  frontier.foldl (fun (kept, visited) address =>
    if address ∈ visited then (kept, visited) else (kept ++ [address], visited ++ [address]))
    ([], visited)

/-- The levels from `currentDepth` on, `levels` of them. -/
def explore (edgeLimit : Nat) : (levels currentDepth : Nat) → Exploring → List FlowEdge
  | 0, _, s => s.edges
  | levels + 1, currentDepth, s =>
    let (frontier, visited) := retain s.frontier s.visited
    if frontier = [] ∨ edgeLimit ≤ s.edges.length then s.edges
    else
      let rows := loadRelationshipsForAddresses db arrange currentDepth frontier
        (edgeLimit - s.edges.length)
      let c := collect edgeLimit (levels = 0) visited rows ⟨s.edges, []⟩
      explore edgeLimit levels (currentDepth + 1) ⟨c.nextFrontier, visited, c.edges⟩

def loadRelationshipNeighborhood (address : String) (depth edgeLimit : Nat) : List FlowEdge :=
  explore db arrange edgeLimit depth 0 ⟨[address], [], []⟩

end

end AmlReal.Tron.FlowGraph
