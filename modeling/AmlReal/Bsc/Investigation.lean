import Mathlib.Data.List.Sort
import Mathlib.Data.String.Basic
import AmlReal.Foundations.EntryList
import AmlReal.Foundations.SortedMap
import AmlReal.Bsc.Model

/-! # Investigating BSC transfers

`investigation/graph.rs` up to its searches: the canonical transfers of the
warehouse, the query for those of one address, the graph that a reply shows, and
how a path goes on. An enumeration stands for a text of the source that is
checked against its values. -/

namespace AmlReal.Bsc.Investigation
open AmlReal.Foundations.Checks AmlReal.Foundations.EntryList AmlReal.Foundations.SortedMap
open AmlReal.Bsc.Model

def ZERO_ADDRESS : String := "0x0000000000000000000000000000000000000000"

structure Edge where
  id : String
  networkId : String
  txHash : String
  blockNumber : Nat
  blockTimestampUnixMs : Nat
  transactionIndex : Nat
  eventIndex : Nat
  fromAddress : String
  toAddress : String
  assetId : String
  tokenId : String
  amount : String
  transferType : String
  deriving DecidableEq

/-- Where a transfer's transaction stands in the chain. -/
def Edge.position (e : Edge) : Nat × Nat := (e.blockNumber, e.transactionIndex)

/-- The canonical transfers: each id once, and one position for each transaction. -/
structure Transfers where
  rows : List Edge
  ids : (rows.map Edge.id).Nodup
  positions : ∀ e ∈ rows, ∀ f ∈ rows, e.txHash = f.txHash → e.position = f.position

structure SearchOptions where
  limit : Nat
  depth : Nat
  fromMs : Nat
  toMs : Nat
  assetId : String

def SearchOptions.default : SearchOptions := ⟨750, 1, 0, 2 ^ 64 - 1, ""⟩

def SearchOptions.validate (options : SearchOptions) : Except String Unit := do
  ensure ((1 ≤ options.limit ∧ options.limit ≤ 5000) ∧ (1 ≤ options.depth ∧ options.depth ≤ 3))
    "limit must be 1..5000 and depth 1..3"
  ensure (options.fromMs ≤ options.toMs ∧ options.assetId.utf8ByteSize ≤ 200)
    "invalid time or asset filter"
  ensure (options.assetId = "" ∨ "eip155:56/".toList.isPrefixOf options.assetId.toList)
    "asset must belong to BSC"

/-! ## The transfers of one address -/

/-- What the query asks of a row besides the address. -/
def selected (options : SearchOptions) (maxBlock : Nat) (e : Edge) : Bool :=
  e.networkId = BSC_NETWORK_ID ∧ e.blockNumber ≤ maxBlock ∧ options.fromMs ≤ e.blockTimestampUnixMs ∧
    e.blockTimestampUnixMs ≤ options.toMs ∧ (options.assetId = "" ∨ e.assetId = options.assetId)

def touches (address : String) (e : Edge) : Bool := e.fromAddress = address ∨ e.toAddress = address

/-- The order of the rows: newest first, then by id. -/
def compareNewest (a b : Edge) : Ordering :=
  (compare b.blockNumber a.blockNumber).then ((compare b.transactionIndex a.transactionIndex).then
    ((compare b.eventIndex a.eventIndex).then (compare a.id b.id)))

section
variable (db : Transfers)

/-- All rows of an address, in order. -/
def incident (options : SearchOptions) (maxBlock : Nat) (address : String) : List Edge :=
  (db.rows.filter fun e => touches address e ∧ selected options maxBlock e).insertionSort
    fun a b => compareNewest a b ≠ .gt

def edges (address : String) (options : SearchOptions) (maxBlock limit : Nat) : List Edge :=
  (incident db options maxBlock address).take limit

/-- The rows of an address, from the cache or by a query for one row more than are kept; the flag
tells whether some were cut off. -/
def fetch (options : SearchOptions) (maxBlock limit : Nat) (cache : List (String × List Edge))
    (current : String) : List Edge × List (String × List Edge) × Bool :=
  match cache.lookup current with
  | some rows => (rows, cache, false)
  | none =>
    let fetched := edges db current options maxBlock (limit + 1)
    (fetched.take limit, (current, fetched.take limit) :: cache, limit < fetched.length)

/-- The rows a search may use. -/
def known (options : SearchOptions) (maxBlock : Nat) : List Edge :=
  db.rows.filter (selected options maxBlock)

variable {db} {options : SearchOptions} {maxBlock : Nat}

theorem mem_incident {address : String} {e : Edge} :
    e ∈ incident db options maxBlock address ↔ e ∈ known db options maxBlock ∧ touches address e := by
  simp only [incident, known, List.mem_insertionSort, List.mem_filter, decide_eq_true_eq]
  tauto

theorem incident_nodup (address : String) : (incident db options maxBlock address).Nodup :=
  (List.perm_insertionSort _ _).nodup_iff.mpr ((List.Nodup.of_map _ db.ids).filter _)

theorem known_position {e f : Edge} (he : e ∈ known db options maxBlock)
    (hf : f ∈ known db options maxBlock) (h : e.txHash = f.txHash) : e.position = f.position :=
  db.positions e (List.mem_filter.mp he).1 f (List.mem_filter.mp hf).1 h

theorem known_id {e f : Edge} (he : e ∈ known db options maxBlock)
    (hf : f ∈ known db options maxBlock) (h : e.id = f.id) : e = f :=
  List.inj_on_of_nodup_map db.ids (List.mem_filter.mp he).1 (List.mem_filter.mp hf).1 h

/-- The cached rows are those of their address; only a cut that is flagged leaves some out. -/
structure Cached (db : Transfers) (options : SearchOptions) (maxBlock : Nat)
    (cache : List (String × List Edge)) (truncated : Bool) : Prop where
  part : ∀ a rows, (a, rows) ∈ cache → rows.Sublist (incident db options maxBlock a)
  whole : truncated = false → ∀ a rows, (a, rows) ∈ cache → rows = incident db options maxBlock a

theorem Cached.nil : Cached db options maxBlock [] false :=
  ⟨fun _ _ h => absurd h List.not_mem_nil, fun _ _ _ h => absurd h List.not_mem_nil⟩

theorem Cached.flagged {cache : List (String × List Edge)} {truncated : Bool} (flag : Bool)
    (h : Cached db options maxBlock cache truncated) (hflag : flag = false → truncated = false) :
    Cached db options maxBlock cache flag :=
  ⟨h.part, fun hf => h.whole (hflag hf)⟩

theorem edges_take (address : String) (limit : Nat) :
    (edges db address options maxBlock (limit + 1)).take limit =
      (incident db options maxBlock address).take limit := by
  rw [edges, List.take_take, Nat.min_eq_left (Nat.le_succ limit)]

/-- Asking for one row more than are kept shows whether any were left out. -/
theorem edges_whole {address : String} {limit : Nat}
    (h : ¬ limit < (edges db address options maxBlock (limit + 1)).length) :
    (incident db options maxBlock address).take limit = incident db options maxBlock address := by
  rw [edges, List.length_take] at h
  exact List.take_of_length_le (by omega)

theorem fetch_cached {cache cache' : List (String × List Edge)} {truncated cut : Bool} {limit : Nat}
    {current : String} {rows : List Edge} (h : Cached db options maxBlock cache truncated)
    (hfetch : fetch db options maxBlock limit cache current = (rows, cache', cut)) :
    Cached db options maxBlock cache' (truncated || cut) ∧
      rows.Sublist (incident db options maxBlock current) ∧
      (cut = false → truncated = false → rows = incident db options maxBlock current) := by
  unfold fetch at hfetch
  split at hfetch
  · rename_i old hrows
    cases hfetch
    have hmem := mem_of_lookup hrows
    exact ⟨by rwa [Bool.or_false], h.part _ _ hmem, fun _ hf => h.whole hf _ _ hmem⟩
  · simp only [edges_take] at hfetch
    cases hfetch
    refine ⟨⟨fun a rows hmem => ?_, fun hf a rows hmem => ?_⟩, List.take_sublist _ _, fun hcut _ => ?_⟩
    · rcases List.mem_cons.mp hmem with heq | hmem
      · cases heq; exact List.take_sublist _ _
      · exact h.part a rows hmem
    · obtain ⟨hold, hall⟩ := Bool.or_eq_false_iff.mp hf
      rcases List.mem_cons.mp hmem with heq | hmem
      · cases heq; exact edges_whole (of_decide_eq_false hall)
      · exact h.whole hold a rows hmem
    · exact edges_whole (of_decide_eq_false hcut)

end

/-! ## The graph of a reply -/

/-- `BTreeMap::insert` under the id. -/
def insertById (e : Edge) (found : List Edge) : List Edge := upsert Edge.id e.id e (fun _ => e) found

structure GraphNode where
  address : String
  isFocus : Bool
  inboundEdges : Nat
  outboundEdges : Nat
  deriving DecidableEq

structure Graph where
  nodes : List GraphNode
  edges : List Edge
  truncated : Bool

/-- `nodes.entry(address)`, created where it is missing and then changed. -/
def updateNode (address : String) (change : GraphNode → GraphNode) (nodes : List GraphNode) :
    List GraphNode :=
  upsert GraphNode.address address (change ⟨address, false, 0, 0⟩) change nodes

def focusNode (nodes : List GraphNode) (address : String) : List GraphNode :=
  updateNode address (fun _ => ⟨address, true, 0, 0⟩) nodes

def GraphNode.addOutbound (n : GraphNode) : GraphNode := { n with outboundEdges := n.outboundEdges + 1 }

def GraphNode.addInbound (n : GraphNode) : GraphNode := { n with inboundEdges := n.inboundEdges + 1 }

def countEdge (nodes : List GraphNode) (e : Edge) : List GraphNode :=
  updateNode e.toAddress GraphNode.addInbound (updateNode e.fromAddress GraphNode.addOutbound nodes)

def graph (edges : List Edge) (focus : List String) (truncated : Bool) : Graph :=
  ⟨edges.foldl countEdge (focus.foldl focusNode []), edges, truncated⟩

/-- The node of an address, as it would be created where it is missing. -/
def nodeAt (nodes : List GraphNode) (address : String) : GraphNode :=
  (find GraphNode.address address nodes).getD ⟨address, false, 0, 0⟩

section
variable {nodes : List GraphNode} {address : String} {change : GraphNode → GraphNode}

variable (address change) in
theorem updateNode_sorted (h : Sorted GraphNode.address nodes)
    (hchange : ∀ n, (change n).address = n.address) :
    Sorted GraphNode.address (updateNode address change nodes) :=
  h.upsert (hchange _) fun n hn => (hchange n).trans hn

variable (address change) in
theorem find_updateNode (h : Sorted GraphNode.address nodes)
    (hchange : ∀ n, (change n).address = n.address) (a : String) :
    find GraphNode.address a (updateNode address change nodes) =
      if a = address then some (change (nodeAt nodes address)) else find GraphNode.address a nodes := by
  have hfind : find GraphNode.address a (updateNode address change nodes) = if a = address then
      some (((find GraphNode.address address nodes).map change).getD (change ⟨address, false, 0, 0⟩))
      else find GraphNode.address a nodes :=
    h.find_upsert address _ change (hchange _) (fun n hn => (hchange n).trans hn) a
  rw [hfind, nodeAt]
  cases find GraphNode.address address nodes <;> rfl

variable (address change) in
theorem nodeAt_updateNode (h : Sorted GraphNode.address nodes)
    (hchange : ∀ n, (change n).address = n.address) (a : String) :
    nodeAt (updateNode address change nodes) a =
      if a = address then change (nodeAt nodes a) else nodeAt nodes a := by
  rw [nodeAt, find_updateNode address change h hchange]
  by_cases ha : a = address
  · rw [if_pos ha, if_pos ha, ha]; rfl
  · rw [if_neg ha, if_neg ha]; rfl

/-- The nodes count the ends of these transfers. -/
structure Counted (nodes : List GraphNode) (edges : List Edge) : Prop where
  sorted : Sorted GraphNode.address nodes
  inbound : ∀ a, (nodeAt nodes a).inboundEdges = edges.countP fun e => e.toAddress = a
  outbound : ∀ a, (nodeAt nodes a).outboundEdges = edges.countP fun e => e.fromAddress = a
  ends : ∀ e ∈ edges, (find GraphNode.address e.fromAddress nodes).isSome ∧
    (find GraphNode.address e.toAddress nodes).isSome

theorem Counted.focus (h : Counted nodes []) (address : String) : Counted (focusNode nodes address) [] := by
  have hsorted : Sorted GraphNode.address (focusNode nodes address) :=
    h.sorted.upsert rfl fun _ _ => rfl
  have hat : ∀ a, (nodeAt (focusNode nodes address) a).inboundEdges = 0 ∧
      (nodeAt (focusNode nodes address) a).outboundEdges = 0 := by
    intro a
    have hfind : find GraphNode.address a (focusNode nodes address) = if a = address then
        some (((find GraphNode.address address nodes).map fun _ => ⟨address, true, 0, 0⟩).getD
          ⟨address, true, 0, 0⟩) else find GraphNode.address a nodes :=
      h.sorted.find_upsert address _ _ rfl (fun _ _ => rfl) a
    unfold nodeAt
    rw [hfind]
    by_cases ha : a = address
    · rw [if_pos ha]
      cases find GraphNode.address address nodes <;> exact ⟨rfl, rfl⟩
    · rw [if_neg ha]
      exact ⟨h.inbound a, h.outbound a⟩
  exact ⟨hsorted, fun a => (hat a).1, fun a => (hat a).2, fun e he => absurd he List.not_mem_nil⟩

theorem nodeAt_countEdge (h : Sorted GraphNode.address nodes) (e : Edge) (a : String) :
    (nodeAt (countEdge nodes e) a).inboundEdges =
        (nodeAt nodes a).inboundEdges + (if e.toAddress = a then 1 else 0) ∧
      (nodeAt (countEdge nodes e) a).outboundEdges =
        (nodeAt nodes a).outboundEdges + (if e.fromAddress = a then 1 else 0) := by
  have hmid : Sorted GraphNode.address (updateNode e.fromAddress GraphNode.addOutbound nodes) :=
    updateNode_sorted _ _ h fun _ => rfl
  have hout := nodeAt_updateNode e.fromAddress GraphNode.addOutbound h (fun _ => rfl) a
  have hin := nodeAt_updateNode e.toAddress GraphNode.addInbound hmid (fun _ => rfl) a
  rw [countEdge, hin, hout]
  rcases eq_or_ne a e.toAddress with hto | hto <;> rcases eq_or_ne a e.fromAddress with hfrom | hfrom
  · rw [if_pos hto, if_pos hfrom, if_pos hto.symm, if_pos hfrom.symm]; exact ⟨rfl, rfl⟩
  · rw [if_pos hto, if_neg hfrom, if_pos hto.symm, if_neg hfrom.symm]; exact ⟨rfl, rfl⟩
  · rw [if_neg hto, if_pos hfrom, if_neg hto.symm, if_pos hfrom.symm]; exact ⟨rfl, rfl⟩
  · rw [if_neg hto, if_neg hfrom, if_neg hto.symm, if_neg hfrom.symm]; exact ⟨rfl, rfl⟩

theorem find_countEdge (h : Sorted GraphNode.address nodes) (e : Edge) (a : String) :
    (find GraphNode.address a (countEdge nodes e)).isSome ↔
      a = e.toAddress ∨ a = e.fromAddress ∨ (find GraphNode.address a nodes).isSome := by
  have hmid : Sorted GraphNode.address (updateNode e.fromAddress GraphNode.addOutbound nodes) :=
    updateNode_sorted _ _ h fun _ => rfl
  rw [countEdge, find_updateNode e.toAddress GraphNode.addInbound hmid (fun _ => rfl),
    find_updateNode e.fromAddress GraphNode.addOutbound h (fun _ => rfl)]
  by_cases hto : a = e.toAddress
  · simp [hto]
  · rw [if_neg hto]
    by_cases hfrom : a = e.fromAddress
    · rw [if_pos hfrom]; simp [hfrom]
    · rw [if_neg hfrom]; simp [hto, hfrom]

theorem Counted.count {edges : List Edge} (h : Counted nodes edges) (e : Edge) :
    Counted (countEdge nodes e) (edges ++ [e]) := by
  refine ⟨updateNode_sorted _ _ (updateNode_sorted _ _ h.sorted fun _ => rfl) fun _ => rfl, fun a => ?_,
    fun a => ?_, fun f hf => ?_⟩
  · rw [(nodeAt_countEdge h.sorted e a).1, List.countP_append, List.countP_singleton, ← h.inbound a]
    simp
  · rw [(nodeAt_countEdge h.sorted e a).2, List.countP_append, List.countP_singleton, ← h.outbound a]
    simp
  · rw [find_countEdge h.sorted, find_countEdge h.sorted]
    rcases List.mem_append.mp hf with hf | hf
    · obtain ⟨hfrom, hto⟩ := h.ends f hf
      exact ⟨Or.inr (Or.inr hfrom), Or.inr (Or.inr hto)⟩
    · rw [List.mem_singleton.mp hf]
      exact ⟨Or.inr (Or.inl rfl), Or.inl rfl⟩

theorem counted_foldl {edges : List Edge} (h : Counted nodes edges) (more : List Edge) :
    Counted (more.foldl countEdge nodes) (edges ++ more) := by
  induction more generalizing nodes edges with
  | nil => rwa [List.append_nil]
  | cons e more ih => rw [List.append_cons]; exact ih (h.count e)

theorem counted_graph (edges : List Edge) (focus : List String) (truncated : Bool) :
    Counted (graph edges focus truncated).nodes edges := by
  have hfocus : ∀ nodes, Counted nodes [] → Counted (focus.foldl focusNode nodes) [] := by
    intro nodes h
    induction focus generalizing nodes with
    | nil => exact h
    | cons address focus ih => exact ih _ (h.focus address)
  exact counted_foldl (hfocus [] ⟨List.Pairwise.nil, fun _ => rfl, fun _ => rfl, by simp⟩) edges

/-- Every end of a transfer is a node, and every node counts the transfers that it is an end of. -/
theorem graph_nodes (edges : List Edge) (focus : List String) (truncated : Bool) :
    (∀ e ∈ edges, (∃ n ∈ (graph edges focus truncated).nodes, n.address = e.fromAddress) ∧
      ∃ n ∈ (graph edges focus truncated).nodes, n.address = e.toAddress) ∧
    ∀ n ∈ (graph edges focus truncated).nodes,
      n.inboundEdges = (edges.countP fun e => e.toAddress = n.address) ∧
        n.outboundEdges = edges.countP fun e => e.fromAddress = n.address := by
  have h := counted_graph edges focus truncated
  refine ⟨fun e he => ?_, fun n hn => ?_⟩
  · obtain ⟨hfrom, hto⟩ := h.ends e he
    obtain ⟨n, hn⟩ := Option.isSome_iff_exists.mp hfrom
    obtain ⟨m, hm⟩ := Option.isSome_iff_exists.mp hto
    exact ⟨⟨n, find_mem hn⟩, ⟨m, find_mem hm⟩⟩
  · have hat : nodeAt (graph edges focus truncated).nodes n.address = n := by
      rw [nodeAt, h.sorted.find_key hn]; rfl
    have hin := h.inbound n.address
    have hout := h.outbound n.address
    rw [hat] at hin hout
    exact ⟨hin, hout⟩

end

/-! ## How a path goes on -/

inductive Direction where
  | outgoing
  | incoming
  | both
  deriving DecidableEq, Repr

def before (a b : Nat × Nat) : Bool := a.1 < b.1 ∨ (a.1 = b.1 ∧ a.2 < b.2)

def continues (previous next : Edge) (incoming : Bool) : Bool :=
  previous.assetId = next.assetId ∧ previous.tokenId = next.tokenId ∧ previous.txHash ≠ next.txHash ∧
    (if incoming then before next.position previous.position
      else before previous.position next.position)

/-- A state of a path search. -/
structure Node where
  addresses : List String
  path : List Edge
  deriving DecidableEq

def Node.start (address : String) : Node := ⟨[address], []⟩

/-- `addresses.last().unwrap()` -/
def Node.current (n : Node) : String := n.addresses.getLast?.getD ""

/-- The address on the other side, where the transfer goes the right way. -/
def far (direction : Direction) (current : String) (e : Edge) : Option String :=
  match direction with
  | .outgoing => if e.fromAddress = current then some e.toAddress else none
  | .incoming => if e.toAddress = current then some e.fromAddress else none
  | .both => if e.fromAddress = current then some e.toAddress else some e.fromAddress

/-- The state after one more transfer, unless a check rules it out. -/
def follow (direction : Direction) (n : Node) (e : Edge) : Option Node :=
  match far direction n.current e with
  | none => none
  | some next =>
    if next = ZERO_ADDRESS ∨ next ∈ n.addresses then none
    else if direction ≠ .both ∧
        n.path.getLast?.any (fun last => ¬ continues last e (direction = .incoming)) then none
    else some ⟨n.addresses ++ [next], n.path ++ [e]⟩

end AmlReal.Bsc.Investigation
