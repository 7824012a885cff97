import AmlReal.Foundations.ParentChains
import AmlReal.Warehouse.RelationshipReader

/-! # Paths between Bitcoin addresses

`find_paths` of `api.rs`: a breadth-first search from one address to another. A hop
spends an input of the address in some transaction and goes on to one of its
outputs, later than the hop before it. The notes of the search are traced back to
the one path that is shown, if the graph holds all of its edges. -/

namespace AmlReal.Bitcoin.PathSearch
open AmlReal.Foundations AmlReal.Foundations.Checks
open AmlReal.Tron.AddressSpellings (Sha256)
open AmlReal.Warehouse.Relationships AmlReal.Warehouse.RelationshipReader AmlReal.Warehouse.Values

/-- An entry of the queue. -/
structure Visit where
  current : String
  depth : Nat
  after : Option (Nat × Nat)

/-- How an address was come to: the ids of the two edges and their transaction. -/
structure Crossing where
  edgeIds : List String
  tx : String
  deriving DecidableEq

structure Searching (sha : Sha256) where
  queue : List Visit
  seen : List String
  parent : List (String × String × Crossing)
  graph : Graph sha

structure Path where
  addresses : List String
  nodeIds : List String
  edgeIds : List String
  hopCount : Nat
  deriving DecidableEq

structure PathResult (sha : Sha256) where
  graph : Graph sha
  paths : List Path
  searchedAddresses : Nat
  revision : Nat

def position (row : Row) : Nat × Nat := (row.blockNumber, row.transactionIndex)

/-- The order of positions. -/
def before (p q : Nat × Nat) : Prop := p.1 < q.1 ∨ (p.1 = q.1 ∧ p.2 < q.2)

instance (p q : Nat × Nat) : Decidable (before p q) := inferInstanceAs (Decidable (_ ∨ _))

section
variable {sha : Sha256}

/-- `ins`: by transaction, an input of the address that comes after the hop before. -/
def spending (near : Graph sha) (visit : Visit) : List (Edge sha) :=
  (near.edges.filter fun e => e.row.fromSubjectId = visit.current ∧ e.row.transferType = "utxo_input" ∧
    ∀ p ∈ visit.after, before p (position e.row)).foldl
    (fun ins e => SortedMap.insert (fun e : Edge sha => e.row.toSubjectId) e ins) []

def created (near : Graph sha) (tx : String) : List (Edge sha) :=
  near.edges.filter fun e => e.row.fromSubjectId = tx ∧ e.row.transferType = "utxo_output"

def script (id : String) : Bool := "script:".toList.isPrefixOf id.toList

def crossing (legs : Edge sha × Edge sha) : Crossing := ⟨[legs.1.key, legs.2.key], legs.1.row.toSubjectId⟩

/-- The outputs of one transaction: each new address is noted and queued. The cap ends the loop. -/
def follow (cap : Nat) (visit : Visit) (input : Edge sha) : List (Edge sha) → Searching sha → Searching sha
  | [], s => s
  | output :: rest, s =>
    if script output.row.toSubjectId ∨ output.row.toSubjectId ∈ s.seen then follow cap visit input rest s
    else if cap ≤ s.seen.length then { s with graph := { s.graph with truncated := true } }
    else follow cap visit input rest { s with
      seen := output.row.toSubjectId :: s.seen
      parent := (output.row.toSubjectId, visit.current, crossing (input, output)) :: s.parent
      queue := s.queue ++ [⟨output.row.toSubjectId, visit.depth + 1, some (position input.row)⟩] }

def expand (cap : Nat) (visit : Visit) (near : Graph sha) (s : Searching sha) : Searching sha :=
  (spending near visit).foldl (fun s input => follow cap visit input (created near input.row.toSubjectId) s) s

end

section
variable (sha : Sha256) (facts : Facts)

def walletGraph (address : String) (limit : Nat) : Except String (Graph sha) := do
  let subject ← Subject.address sha .bitcoin address
  let neighborhood ← readNeighborhood sha facts .bitcoin subject ⟨limit, 2000⟩
  pure neighborhood.graph

variable (target : String) (hops cap : Nat)

/-- One round of the loop, with the entry that was taken from the queue. -/
def round (visit : Visit) (s : Searching sha) : Except String (Searching sha) :=
  if hops ≤ visit.depth then .ok s
  else do
    let near ← walletGraph sha facts visit.current 20
    let s := expand cap visit near s
    let graph ← s.graph.merge near 2000
    pure { s with graph := graph }

/-- The loop, for so many rounds; the target ends it. -/
def search : Nat → Searching sha → Except String (Option (Searching sha))
  | 0, s => if s.queue = [] then .ok (some s) else .ok none
  | fuel + 1, s =>
    match s.queue with
    | [] => .ok (some s)
    | visit :: queue => do
      let s ← round sha facts hops cap visit { s with queue := queue }
      if visit.depth < hops ∧ target ∈ s.seen then pure (some s) else search fuel s

end

/-- From the target back along the notes, for so many hops; the hops are counted at the end. -/
def traceBack (parent : List (String × String × Crossing)) (source : String) : Nat → String → Path → Option Path
  | fuel, cursor, path =>
    if cursor = source then some path
    else match fuel, parent.lookup cursor with
      | fuel + 1, some (previous, way) => traceBack parent source fuel previous ⟨previous :: path.addresses,
          previous :: way.tx :: path.nodeIds, way.edgeIds ++ path.edgeIds, path.hopCount⟩
      | _, _ => none

section
variable {sha : Sha256}

/-- The path that was found, and the graph, marked where it lacks an edge of the path. -/
def shown (source target : String) (s : Searching sha) : Option (List Path × Graph sha) :=
  if (s.parent.lookup target).isSome then do
    let path ← traceBack s.parent source s.parent.length target ⟨[target], [target], [], 0⟩
    if ∀ id ∈ path.edgeIds, (SortedMap.find Edge.key id s.graph.edges).isSome then
      some ([{ path with hopCount := path.addresses.length - 1 }], s.graph)
    else some ([], { s.graph with truncated := true })
  else some ([], s.graph)

end

section
variable (sha : Sha256) (facts : Facts)

def start (source target : String) : Except String (Searching sha) := do
  let sourceSubject ← Subject.address sha .bitcoin source
  let graph ← (Graph.new .bitcoin).node sourceSubject
  let targetSubject ← Subject.address sha .bitcoin target
  let graph ← graph.node targetSubject
  pure ⟨[⟨source, 0, none⟩], [source], [], graph⟩

/-- `none` stands for a loop that goes on, or a note that is missing. -/
def findPaths (source target : String) (hops cap : Nat) : Except String (Option (PathResult sha)) := do
  let s ← start sha source target
  let found ← search sha facts target hops cap (cap + 1) s
  pure do
    let s ← found
    let (paths, graph) ← shown source target s
    pure ⟨graph, paths, s.seen.length, facts.revision⟩

end

end AmlReal.Bitcoin.PathSearch
