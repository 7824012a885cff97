import Mathlib.Algebra.GroupWithZero.Nat
import Mathlib.Data.List.Sort
import Mathlib.Data.String.Basic
import AmlReal.Foundations.EntryList
import AmlReal.Foundations.SimplePaths

/-! # The paths between two Ethereum wallets

`find_paths` of `investigation.rs`. Of the cut-offs of the search only three set
`truncated`: the number of addresses, of edges and of queued paths. The rows of
an address that its query leaves out and the paths above the limit do not. -/

namespace AmlReal.Ethereum.WalletPaths
open AmlReal.Foundations AmlReal.Foundations.EntryList AmlReal.Foundations.TreeSearch
open AmlReal.Foundations.SimplePaths

/-! ## The code -/

structure FlowEdge where
  id : String
  networkId : String
  txHash : String
  blockNumber : Nat
  blockTimestampUnixMs : Nat
  fromAddress : String
  toAddress : String
  assetId : String
  tokenId : String
  amount : String
  transferType : String
  deriving DecidableEq

/-- The rows of `address_relationships_canonical`, one for each relationship. -/
structure Relationships where
  rows : List FlowEdge
  ids : (rows.map FlowEdge.id).Nodup

inductive PathDirection where
  | outbound
  | both
  deriving DecidableEq

/-- The limits of a search as `find_paths` clamps them, with the service's own. -/
structure PathLimits where
  maxHops : Nat
  pathLimit : Nat
  perAddressLimit : Nat
  graphMaxEdges : Nat
  paths : 1 ≤ pathLimit

def clamp (n low high : Nat) : Nat := max low (min n high)

def PathLimits.ofRequest (maxHops limit perAddressLimit : Option Nat) (graphMaxEdges : Nat) : PathLimits where
  maxHops := clamp (maxHops.getD 6) 1 10
  pathLimit := clamp (limit.getD 5) 1 25
  perAddressLimit := clamp (perAddressLimit.getD 500) 1 2000
  graphMaxEdges := graphMaxEdges
  paths := Nat.le_max_left _ _

def maxExpanded : Nat := 2000

def maxQueued : Nat := 10000

/-- `ORDER BY block_timestamp_unix_ms DESC, block_number DESC, relationship_id` -/
def newer (a b : FlowEdge) : Prop :=
  b.blockTimestampUnixMs < a.blockTimestampUnixMs ∨ a.blockTimestampUnixMs = b.blockTimestampUnixMs ∧
    (b.blockNumber < a.blockNumber ∨ a.blockNumber = b.blockNumber ∧ a.id ≤ b.id)

instance (a b : FlowEdge) : Decidable (newer a b) := by unfold newer; infer_instance

/-- The relationships of an address. -/
def incident (db : Relationships) (address : String) : List FlowEdge :=
  db.rows.filter fun e => e.fromAddress = address ∨ e.toAddress = address

def loadEdgesForAddress (db : Relationships) (limit : Nat) (address : String) : List FlowEdge :=
  ((incident db address).insertionSort newer).take limit

def neighbor (direction : PathDirection) (edge : FlowEdge) (current : String) : Option String :=
  match direction with
  | .outbound => if edge.fromAddress = current then some edge.toAddress else none
  | .both =>
    if edge.fromAddress = current then some edge.toAddress
    else if edge.toAddress = current then some edge.fromAddress
    else none

/-- An entry of the queue. -/
structure PathState where
  current : String
  addresses : List String
  edgeIds : List String

structure WalletPath where
  hopCount : Nat
  addresses : List String
  edgeIds : List String
  deriving DecidableEq

/-- The variables of the search. -/
structure Searching where
  queue : List PathState
  cachedEdges : List (String × List FlowEdge)
  discoveredEdges : List (String × FlowEdge)
  paths : List WalletPath
  expanded : List String
  truncated : Bool

def Searching.start (source : String) : Searching := ⟨[⟨source, [source], []⟩], [], [], [], [], false⟩

/-- `entry(..).or_insert_with(..)` -/
def Searching.discover (s : Searching) (edge : FlowEdge) : Searching :=
  { s with discoveredEdges :=
      if (s.discoveredEdges.lookup edge.id).isSome then s.discoveredEdges
      else (edge.id, edge) :: s.discoveredEdges }

section
variable (db : Relationships) (target : String) (limits : PathLimits) (direction : PathDirection)

/-- The loop over the edges of an address. -/
def visit (state : PathState) : List FlowEdge → Searching → Searching
  | [], s => s
  | edge :: rest, s =>
    match neighbor direction edge state.current with
    | none => visit state rest s
    | some next =>
      if next ∈ state.addresses then visit state rest s
      else
        let s := s.discover edge
        let nextAddresses := state.addresses ++ [next]
        let nextEdgeIds := state.edgeIds ++ [edge.id]
        if next = target then
          let s := { s with paths := s.paths ++ [⟨nextEdgeIds.length, nextAddresses, nextEdgeIds⟩] }
          if s.paths.length ≥ limits.pathLimit then s else visit state rest s
        else if nextEdgeIds.length < limits.maxHops then
          if s.queue.length ≥ maxQueued then { s with truncated := true }
          else visit state rest { s with queue := s.queue ++ [⟨next, nextAddresses, nextEdgeIds⟩] }
        else visit state rest s

/-- The edges of an address, from the cache or from their query. -/
def Searching.load (s : Searching) (address : String) : List FlowEdge × Searching :=
  match s.cachedEdges.lookup address with
  | some edges => (edges, s)
  | none =>
    let edges := loadEdgesForAddress db limits.perAddressLimit address
    (edges, { s with
      cachedEdges := (address, edges) :: s.cachedEdges
      expanded := if address ∈ s.expanded then s.expanded else address :: s.expanded })

/-- The loop over the queue, for at most `fuel` rounds. -/
def search : Nat → Searching → Option Searching
  | 0, _ => none
  | fuel + 1, s =>
    match s.queue with
    | [] => some s
    | state :: queue =>
      let s := { s with queue := queue }
      if s.paths.length ≥ limits.pathLimit then some s
      else if state.edgeIds.length ≥ limits.maxHops then search fuel s
      else if s.expanded.length ≥ maxExpanded ∨ s.discoveredEdges.length ≥ limits.graphMaxEdges then
        some { s with truncated := true }
      else
        let (edges, s) := s.load db limits state.current
        search fuel (visit target limits direction state edges s)

/-- Rounds that no search exceeds: every path of `maxHops` edges has at most `perAddressLimit` ways on. -/
def rounds : Nat := (limits.perAddressLimit + 1) ^ limits.maxHops + 1

end

structure PathSearchResult where
  paths : List WalletPath
  edges : List FlowEdge
  expandedAddresses : Nat
  truncated : Bool

/-- The edges of the paths, or without paths all that were discovered. -/
def selectedEdges (s : Searching) : List FlowEdge :=
  let selected := s.paths.flatMap WalletPath.edgeIds
  ((s.discoveredEdges.map Prod.snd).filter fun e => selected = [] ∨ e.id ∈ selected).insertionSort fun a b =>
    a.blockNumber < b.blockNumber ∨ a.blockNumber = b.blockNumber ∧ a.id ≤ b.id

def findPaths (db : Relationships) (source target : String) (limits : PathLimits) (direction : PathDirection) :
    Except String (Option PathSearchResult) := do
  if source = target then throw "source and target addresses must differ"
  pure ((search db target limits direction (rounds limits) (Searching.start source)).map fun s =>
    ⟨s.paths, selectedEdges s, s.expanded.length, s.truncated⟩)

/-! ## What is searched for -/

/-- A relationship that leads from `a` to `b` in the requested direction. -/
def Hop (db : Relationships) (direction : PathDirection) (id a b : String) : Prop :=
  ∃ edge ∈ db.rows, edge.id = id ∧ match direction with
    | .outbound => edge.fromAddress = a ∧ edge.toAddress = b
    | .both => (edge.fromAddress = a ∧ edge.toAddress = b) ∨ (edge.toAddress = a ∧ edge.fromAddress = b)

def walkOf (p : WalletPath) : Walk String String := ⟨p.addresses, p.edgeIds⟩

def stateOf (s : PathState) : State String String := ⟨s.current, ⟨s.addresses, s.edgeIds⟩⟩

/-- A path that the search is for: consecutive relationships, no address twice. -/
structure PathTo (db : Relationships) (direction : PathDirection) (source target : String)
    (maxHops : Nat) (p : WalletPath) : Prop where
  simple : Simple (Hop db direction) source (walkOf p)
  reaches : p.addresses.getLast? = some target
  short : p.edgeIds.length ≤ maxHops
  count : p.hopCount = p.edgeIds.length

/-- The query for the address returns the relationship. -/
def Served (db : Relationships) (limit : Nat) (id address : String) : Prop :=
  id ∈ (loadEdgesForAddress db limit address).map FlowEdge.id

/-- Each edge of the path is among the rows of the address that it leaves. -/
def ServedPath (db : Relationships) (limit : Nat) (p : WalletPath) : Prop :=
  Hops (fun id a _ => Served db limit id a) p.addresses p.edgeIds

section
variable (db : Relationships) (target : String) (limits : PathLimits) (direction : PathDirection)

/-- Where the relationship leads to from an address. -/
def nextOf (current id : String) : Option String :=
  (db.rows.find? fun e => e.id = id).bind fun edge => neighbor direction edge current

def pathSearch : SimplePaths.Search String String where
  incident address := (loadEdgesForAddress db limits.perAddressLimit address).map FlowEdge.id
  next := nextOf db direction
  target := target
  bound := limits.maxHops

variable {db target limits direction}

theorem loaded_mem {edge : FlowEdge} {limit : Nat} {address : String}
    (h : edge ∈ loadEdgesForAddress db limit address) : edge ∈ db.rows :=
  List.mem_of_mem_filter ((List.mem_insertionSort _).mp (List.mem_of_mem_take h))

theorem find_edge {edge : FlowEdge} (h : edge ∈ db.rows) : db.rows.find? (fun e => e.id = edge.id) = some edge := by
  cases hfind : db.rows.find? fun e => e.id = edge.id with
  | none => exact absurd (List.find?_eq_none.mp hfind edge h) (by simp)
  | some found =>
    have hsame : found.id = edge.id := by simpa using List.find?_some hfind
    rw [List.inj_on_of_nodup_map db.ids (List.mem_of_find?_eq_some hfind) h hsame]

theorem next_edge {edge : FlowEdge} (h : edge ∈ db.rows) (current : String) :
    nextOf db direction current edge.id = neighbor direction edge current := by
  unfold nextOf
  rw [find_edge h]
  rfl

theorem neighbor_iff {edge : FlowEdge} {a b : String} : neighbor direction edge a = some b ↔
    match direction with
    | .outbound => edge.fromAddress = a ∧ edge.toAddress = b
    | .both => (edge.fromAddress = a ∧ edge.toAddress = b) ∨ (edge.toAddress = a ∧ edge.fromAddress = b) := by
  cases direction with
  | outbound => by_cases hfrom : edge.fromAddress = a <;> simp [neighbor, hfrom]
  | both =>
    by_cases hfrom : edge.fromAddress = a
    · simp only [neighbor, hfrom, if_true, Option.some.injEq, true_and]
      constructor
      · exact Or.inl
      · rintro (hto | ⟨hto, hself⟩)
        · exact hto
        · exact hto.trans hself
    · by_cases hto : edge.toAddress = a <;> simp [neighbor, hfrom, hto]

/-- The edges that the search follows are the served relationships of the direction. -/
theorem pathSearch_over : (pathSearch db target limits direction).Over fun id a b =>
    Served db limits.perAddressLimit id a ∧ Hop db direction id a b where
  hops a id b := by
    show (Served db limits.perAddressLimit id a ∧ nextOf db direction a id = some b) ↔ _
    refine and_congr_right fun hserved => ?_
    obtain ⟨edge, hedge, rfl⟩ := List.mem_map.mp hserved
    have hmem := loaded_mem hedge
    rw [next_edge hmem, neighbor_iff]
    constructor
    · intro h
      exact ⟨edge, hmem, rfl, h⟩
    · rintro ⟨other, hother, hid, h⟩
      rwa [List.inj_on_of_nodup_map db.ids hother hmem hid] at h
  once a := by
    have hsub : (loadEdgesForAddress db limits.perAddressLimit a).Subperm db.rows := by
      refine (List.take_sublist _ _).subperm.trans ?_
      exact (List.perm_insertionSort _ _).subperm.trans List.filter_sublist.subperm
    obtain ⟨rows, hperm, hsublist⟩ := hsub
    exact (hperm.map FlowEdge.id).nodup_iff.mp (db.ids.sublist (hsublist.map _))

theorem hops_and {P Q : String → String → String → Prop} {as es : List String} :
    Hops (fun e a b => P e a b ∧ Q e a b) as es ↔ Hops P as es ∧ Hops Q as es := by
  induction as, es using Hops.induct with
  | case1 a => simp [Hops]
  | case2 a b as e es ih =>
    simp only [Hops, ih]
    exact and_and_and_comm
  | case3 as es h1 h2 =>
    constructor
    · intro h
      unfold Hops at h
      split at h
      · exact absurd rfl (h1 _ rfl)
      · exact absurd rfl (h2 _ _ _ _ _ rfl)
      · exact h.elim
    · rintro ⟨h, _⟩
      unfold Hops at h
      split at h
      · exact absurd rfl (h1 _ rfl)
      · exact absurd rfl (h2 _ _ _ _ _ rfl)
      · exact h.elim

/-- The tree lists the paths that the search is for, as far as their edges are served. -/
theorem mem_pathSearch {source : String} (hends : source ≠ target) {w : Walk String String} :
    w ∈ (pathSearch db target limits direction).tree.all (State.start source) ↔
      ∃ p, walkOf p = w ∧ PathTo db direction source target limits.maxHops p ∧
        ServedPath db limits.perAddressLimit p := by
  rw [SimplePaths.Search.mem_tree pathSearch_over hends]
  constructor
  · rintro ⟨⟨hstarts, hhops, hsimple⟩, hreaches, hshort⟩
    obtain ⟨hserved, hhops⟩ := hops_and.mp hhops
    exact ⟨⟨w.edges.length, w.vertices, w.edges⟩, rfl,
      ⟨⟨hstarts, hhops, hsimple⟩, hreaches, hshort, rfl⟩, hserved⟩
  · rintro ⟨p, rfl, ⟨⟨hstarts, hhops, hsimple⟩, hreaches, hshort, _⟩, hserved⟩
    exact ⟨⟨hstarts, hops_and.mpr ⟨hserved, hhops⟩, hsimple⟩, hreaches, hshort⟩

theorem PathTo.pos {source : String} {maxHops : Nat} {p : WalletPath}
    (h : PathTo db direction source target maxHops p) (hends : source ≠ target) : 1 ≤ p.hopCount := by
  rw [h.count]
  by_contra hzero
  have hnil : p.edgeIds = [] := List.eq_nil_of_length_eq_zero (by omega)
  have hstart : p.addresses = [source] := congrArg Walk.vertices (h.simple.of_edges_nil hnil)
  have hreaches := h.reaches
  rw [hstart] at hreaches
  exact hends (Option.some.inj hreaches)

theorem walkOf_injective {p q : WalletPath} (hp : p.hopCount = p.edgeIds.length)
    (hq : q.hopCount = q.edgeIds.length) (h : walkOf p = walkOf q) : p = q := by
  obtain ⟨hopCount, addresses, edgeIds⟩ := p
  obtain ⟨hopCount', addresses', edgeIds'⟩ := q
  obtain ⟨rfl, rfl⟩ : addresses = addresses' ∧ edgeIds = edgeIds' := Walk.mk.inj h
  obtain rfl : hopCount = edgeIds.length := hp
  obtain rfl : hopCount' = edgeIds.length := hq
  rfl

/-! ## The loop over the edges -/

/-- From `s` to `s'` the search has looked at the given edges of a state: it found `out` and queued
`kids`. Without the flag and below the limit of paths it has left nothing out. -/
structure Visited (db : Relationships) (target : String) (limits : PathLimits) (direction : PathDirection)
    (state : PathState) (rows : List FlowEdge) (s s' : Searching) (out : List WalletPath)
    (kids : List PathState) : Prop where
  paths : s'.paths = s.paths ++ out
  queue : s'.queue = s.queue ++ kids
  cached : s'.cachedEdges = s.cachedEdges
  counts : ∀ p ∈ out, p.hopCount = p.edgeIds.length
  part : (out.map walkOf).Sublist
      ((pathSearch db target limits direction).found (stateOf state) (rows.map FlowEdge.id)) ∧
    (kids.map stateOf).Sublist
      ((pathSearch db target limits direction).opened (stateOf state) (rows.map FlowEdge.id))
  deep : ¬ state.edgeIds.length + 1 < limits.maxHops → kids = []
  whole : s'.truncated = false → s'.paths.length < limits.pathLimit → s.truncated = false ∧
    out.map walkOf =
      (pathSearch db target limits direction).found (stateOf state) (rows.map FlowEdge.id) ∧
    (state.edgeIds.length + 1 < limits.maxHops → kids.map stateOf =
      (pathSearch db target limits direction).opened (stateOf state) (rows.map FlowEdge.id))
  bounded : s.paths.length < limits.pathLimit → s'.paths.length ≤ limits.pathLimit

/-- One edge and then the rest of them. -/
theorem Visited.cons {state : PathState} {edge : FlowEdge} {rest : List FlowEdge} {s mid s' : Searching}
    {out more : List WalletPath} {kids later : List PathState}
    (h : Visited db target limits direction state rest mid s' more later)
    (hpaths : mid.paths = s.paths ++ out) (hqueue : mid.queue = s.queue ++ kids)
    (hcached : mid.cachedEdges = s.cachedEdges) (hflag : mid.truncated = s.truncated)
    (hcounts : ∀ p ∈ out, p.hopCount = p.edgeIds.length)
    (hout : out.map walkOf = (pathSearch db target limits direction).found (stateOf state) [edge.id])
    (hpart : (kids.map stateOf).Sublist
      ((pathSearch db target limits direction).opened (stateOf state) [edge.id]))
    (hdeep : ¬ state.edgeIds.length + 1 < limits.maxHops → kids = [])
    (hkids : state.edgeIds.length + 1 < limits.maxHops → kids.map stateOf =
      (pathSearch db target limits direction).opened (stateOf state) [edge.id])
    (hroom : s.paths.length < limits.pathLimit → mid.paths.length < limits.pathLimit) :
    Visited db target limits direction state (edge :: rest) s s' (out ++ more) (kids ++ later) where
  paths := by rw [h.paths, hpaths, List.append_assoc]
  queue := by rw [h.queue, hqueue, List.append_assoc]
  cached := h.cached.trans hcached
  counts p hp := (List.mem_append.mp hp).elim (hcounts p) (h.counts p)
  part := by
    rw [List.map_append, List.map_append, List.map_cons, SimplePaths.Search.found_cons,
      SimplePaths.Search.opened_cons, hout]
    exact ⟨(List.Sublist.refl _).append h.part.1, hpart.append h.part.2⟩
  deep hnot := by rw [hdeep hnot, h.deep hnot, List.append_nil]
  whole hf hlt := by
    obtain ⟨hmid, hfound, hopened⟩ := h.whole hf hlt
    refine ⟨hflag ▸ hmid, ?_, fun hshort => ?_⟩
    · rw [List.map_append, List.map_cons, SimplePaths.Search.found_cons, hout, hfound]
    · rw [List.map_append, List.map_cons, SimplePaths.Search.opened_cons, hkids hshort, hopened hshort]
  bounded hlt := h.bounded (hroom hlt)

variable (target limits direction) in
theorem visit_visited (state : PathState) {rows : List FlowEdge} (hrows : ∀ e ∈ rows, e ∈ db.rows)
    (s : Searching) : ∃ out kids, Visited db target limits direction state rows s
      (visit target limits direction state rows s) out kids := by
  induction rows generalizing s with
  | nil =>
    exact ⟨[], [], (List.append_nil _).symm, (List.append_nil _).symm, rfl, fun p hp => absurd hp List.not_mem_nil,
      ⟨List.Sublist.refl _, List.Sublist.refl _⟩, fun _ => rfl, fun hf _ => ⟨hf, rfl, fun _ => rfl⟩,
      fun hlt => Nat.le_of_lt hlt⟩
  | cons edge rest ih =>
    obtain ⟨hedge, hrest⟩ := List.forall_mem_cons.mp hrows
    have hfollow : nextOf db direction state.current edge.id = neighbor direction edge state.current :=
      next_edge hedge state.current
    have hskip : (pathSearch db target limits direction).follow (stateOf state) edge.id = none →
        visit target limits direction state (edge :: rest) s = visit target limits direction state rest s →
        ∃ out kids, Visited db target limits direction state (edge :: rest) s
          (visit target limits direction state (edge :: rest) s) out kids := by
      intro hnone hstep
      obtain ⟨hfound, hopened⟩ := SimplePaths.Search.one_none _ hnone
      obtain ⟨out, kids, h⟩ := ih hrest s
      rw [hstep]
      exact ⟨[] ++ out, [] ++ kids, h.cons (List.append_nil _).symm (List.append_nil _).symm rfl rfl
        (fun p hp => absurd hp List.not_mem_nil) hfound.symm (List.nil_sublist _) (fun _ => rfl)
        (fun _ => hopened.symm) id⟩
    cases hnext : neighbor direction edge state.current with
    | none =>
      exact hskip (SimplePaths.Search.follow_none _ (hfollow.trans hnext)) (by simp only [visit, hnext])
    | some next =>
      by_cases hseen : next ∈ state.addresses
      · exact hskip (SimplePaths.Search.follow_seen _ (hfollow.trans hnext) hseen)
          (by simp only [visit, hnext, if_pos hseen])
      · have hnew : (pathSearch db target limits direction).follow (stateOf state) edge.id =
            some ⟨next, ⟨state.addresses ++ [next], state.edgeIds ++ [edge.id]⟩⟩ :=
          SimplePaths.Search.follow_new _ (hfollow.trans hnext) hseen
        by_cases htarget : next = target
        · obtain ⟨hfound, hopened⟩ := SimplePaths.Search.one_target _ hnew htarget
          let path : WalletPath := ⟨(state.edgeIds ++ [edge.id]).length, state.addresses ++ [next],
            state.edgeIds ++ [edge.id]⟩
          have hcounts : ∀ p ∈ [path], p.hopCount = p.edgeIds.length := by
            intro p hp
            rw [List.mem_singleton.mp hp]
          by_cases hfull : (s.paths ++ [path]).length ≥ limits.pathLimit
          · -- the number of paths is reached and the other edges are left out, without the flag
            have hstep : visit target limits direction state (edge :: rest) s =
                { s.discover edge with paths := s.paths ++ [path] } := by
              simp only [visit, hnext, if_neg hseen, if_pos htarget]
              exact if_pos hfull
            rw [hstep]
            refine ⟨[path], [], rfl, (List.append_nil _).symm, rfl, hcounts, ⟨?_, List.nil_sublist _⟩,
              fun _ => rfl, fun _ hlt => absurd hlt (Nat.not_lt_of_le hfull), fun hlt => ?_⟩
            · show ([path].map walkOf).Sublist ((pathSearch db target limits direction).found (stateOf state)
                (edge.id :: rest.map FlowEdge.id))
              rw [SimplePaths.Search.found_cons, hfound]
              exact List.sublist_append_left _ _
            · show (s.paths ++ [path]).length ≤ _
              rw [List.length_append, List.length_singleton]
              exact hlt
          · have hstep : visit target limits direction state (edge :: rest) s =
                visit target limits direction state rest
                  { s.discover edge with paths := s.paths ++ [path] } := by
              simp only [visit, hnext, if_neg hseen, if_pos htarget]
              exact if_neg hfull
            obtain ⟨out, kids, h⟩ := ih hrest { s.discover edge with paths := s.paths ++ [path] }
            rw [hstep]
            exact ⟨[path] ++ out, [] ++ kids, h.cons rfl (List.append_nil _).symm rfl rfl hcounts hfound.symm
              (List.nil_sublist _) (fun _ => rfl) (fun _ => hopened.symm) fun _ => Nat.lt_of_not_le hfull⟩
        · obtain ⟨hfound, hopened⟩ := SimplePaths.Search.one_onward _ hnew htarget
          let child : PathState := ⟨next, state.addresses ++ [next], state.edgeIds ++ [edge.id]⟩
          have hlength : (state.edgeIds ++ [edge.id]).length = state.edgeIds.length + 1 := by simp
          by_cases hshort : (state.edgeIds ++ [edge.id]).length < limits.maxHops
          · by_cases hqueued : (s.discover edge).queue.length ≥ maxQueued
            · have hstep : visit target limits direction state (edge :: rest) s =
                  { s.discover edge with truncated := true } := by
                simp only [visit, hnext, if_neg hseen, if_neg htarget, if_pos hshort]
                exact if_pos hqueued
              rw [hstep]
              exact ⟨[], [], (List.append_nil _).symm, (List.append_nil _).symm, rfl,
                fun p hp => absurd hp List.not_mem_nil, ⟨List.nil_sublist _, List.nil_sublist _⟩, fun _ => rfl,
                fun hf => (by cases hf), fun hlt => Nat.le_of_lt hlt⟩
            · have hstep : visit target limits direction state (edge :: rest) s =
                  visit target limits direction state rest
                    { s.discover edge with queue := s.queue ++ [child] } := by
                simp only [visit, hnext, if_neg hseen, if_neg htarget, if_pos hshort]
                exact if_neg hqueued
              obtain ⟨out, kids, h⟩ := ih hrest { s.discover edge with queue := s.queue ++ [child] }
              rw [hstep]
              have hone : [child].map stateOf =
                  (pathSearch db target limits direction).opened (stateOf state) [edge.id] := hopened.symm
              refine ⟨[] ++ out, [child] ++ kids, h.cons (List.append_nil _).symm rfl rfl rfl
                (fun p hp => absurd hp List.not_mem_nil) hfound.symm (hone ▸ List.Sublist.refl _) ?_
                (fun _ => hone) id⟩
              intro hnot
              rw [hlength] at hshort
              exact absurd hshort hnot
          · have hstep : visit target limits direction state (edge :: rest) s =
                visit target limits direction state rest (s.discover edge) := by
              simp only [visit, hnext, if_neg hseen, if_neg htarget, if_neg hshort]
            obtain ⟨out, kids, h⟩ := ih hrest (s.discover edge)
            rw [hstep]
            rw [hlength] at hshort
            exact ⟨[] ++ out, [] ++ kids, h.cons (List.append_nil _).symm (List.append_nil _).symm rfl rfl
              (fun p hp => absurd hp List.not_mem_nil) hfound.symm (List.nil_sublist _) (fun _ => rfl)
              (fun h => absurd h hshort) id⟩

/-! ## The whole search -/

/-- The search stops to be complete with the flag or at the limit of paths. -/
def stopped (limits : PathLimits) (s : Searching) : Bool := s.truncated || decide (limits.pathLimit ≤ s.paths.length)

/-- The rows of the cache are those of the query. -/
def Cached (db : Relationships) (limits : PathLimits) (s : Searching) : Prop :=
  ∀ address rows, (address, rows) ∈ s.cachedEdges → rows = loadEdgesForAddress db limits.perAddressLimit address

/-- The search so far: what it found and what it still has to look at. -/
structure Searched (db : Relationships) (target : String) (limits : PathLimits) (direction : PathDirection)
    (source : String) (s : Searching) : Prop where
  bounded : s.paths.length ≤ limits.pathLimit
  counts : ∀ p ∈ s.paths, p.hopCount = p.edgeIds.length
  cached : Cached db limits s
  tracks : Tracks (pathSearch db target limits direction).tree [State.start source]
    (s.paths.map walkOf) (s.queue.map stateOf) (stopped limits s)
  leveled : Leveled (fun p : State String String => p.walk.edges.length)
    (fun w : Walk String String => w.edges.length) (s.paths.map walkOf) (s.queue.map stateOf)

/-- What a search ends with. -/
structure Finished (db : Relationships) (target : String) (limits : PathLimits) (direction : PathDirection)
    (source : String) (s : Searching) : Prop where
  bounded : s.paths.length ≤ limits.pathLimit
  counts : ∀ p ∈ s.paths, p.hopCount = p.edgeIds.length
  sorted : s.paths.Pairwise fun p q => p.edgeIds.length ≤ q.edgeIds.length
  sound : (s.paths.map walkOf).Subperm
    ((pathSearch db target limits direction).tree.all (State.start source))
  complete : s.truncated = false → s.paths.length < limits.pathLimit → (s.paths.map walkOf).Perm
    ((pathSearch db target limits direction).tree.all (State.start source))

variable {source : String} {s : Searching} {state : PathState} {queue : List PathState}

theorem stopped_eq_false : stopped limits s = false ↔ s.truncated = false ∧ s.paths.length < limits.pathLimit := by
  unfold stopped
  rw [Bool.or_eq_false_iff, decide_eq_false_iff_not, Nat.not_le]

theorem Searched.start : Searched db target limits direction source (Searching.start source) where
  bounded := Nat.zero_le _
  counts p hp := absurd hp List.not_mem_nil
  cached _ _ h := absurd h List.not_mem_nil
  tracks := by
    have hstopped : stopped limits (Searching.start source) = false :=
      stopped_eq_false.mpr ⟨rfl, limits.paths⟩
    rw [hstopped]
    exact Tracks.start _
  leveled := Leveled.start _

/-- A path that is long enough has nothing below it. -/
theorem Searched.skip (h : Searched db target limits direction source s) (hqueue : s.queue = state :: queue)
    (hdeep : limits.maxHops ≤ state.edgeIds.length) :
    Searched db target limits direction source { s with queue := queue } := by
  have htracks := h.tracks
  have hleveled := h.leveled
  rw [hqueue, List.map_cons] at htracks hleveled
  have hnot : ¬ (stateOf state).walk.edges.length < (pathSearch db target limits direction).bound :=
    Nat.not_lt_of_le hdeep
  have hout : (pathSearch db target limits direction).tree.out (stateOf state) = [] := if_neg hnot
  have hkids : (pathSearch db target limits direction).tree.kids (stateOf state) = [] := if_neg hnot
  have hexpanded : Tracks (pathSearch db target limits direction).tree [State.start source]
      (s.paths.map walkOf ++ []) (queue.map stateOf ++ []) (stopped limits s) :=
    htracks.expand List.nil_subperm List.nil_subperm fun hf => ⟨hf, by rw [hout], by rw [hkids]⟩
  rw [List.append_nil, List.append_nil] at hexpanded
  exact ⟨h.bounded, h.counts, h.cached, hexpanded, hleveled.skip⟩

/-- Rows come from the cache as from the query. -/
theorem load_rows (hcached : Cached db limits s) (address : String) :
    ∃ s', s.load db limits address = (loadEdgesForAddress db limits.perAddressLimit address, s') ∧
      Cached db limits s' ∧ s'.queue = s.queue ∧ s'.paths = s.paths ∧ s'.truncated = s.truncated := by
  unfold Searching.load
  cases hlookup : s.cachedEdges.lookup address with
  | some rows =>
    obtain rfl := hcached _ _ (mem_of_lookup hlookup)
    exact ⟨s, rfl, hcached, rfl, rfl, rfl⟩
  | none =>
    refine ⟨_, rfl, ?_, rfl, rfl, rfl⟩
    intro other rows hmem
    rcases List.mem_cons.mp hmem with heq | hmem
    · obtain ⟨rfl, rfl⟩ := Prod.mk.inj heq
      rfl
    · exact hcached other rows hmem

/-- A look at the rows of the state in front. -/
theorem Searched.look (h : Searched db target limits direction source s) (hqueue : s.queue = state :: queue)
    (hroom : s.paths.length < limits.pathLimit) (hshort : state.edgeIds.length < limits.maxHops)
    {before s' : Searching} (hbefore : Cached db limits before ∧ before.queue = queue ∧ before.paths = s.paths ∧
      before.truncated = s.truncated)
    (hvisit : visit target limits direction state
      (loadEdgesForAddress db limits.perAddressLimit state.current) before = s') :
    Searched db target limits direction source s' ∧ ∃ kids, s'.queue = queue ++ kids ∧
      kids.length ≤ limits.perAddressLimit ∧ ∀ k ∈ kids, k.edgeIds.length = state.edgeIds.length + 1 := by
  obtain ⟨hbeforeCached, hbeforeQueue, hbeforePaths, hbeforeFlag⟩ := hbefore
  have htracks := h.tracks
  have hleveled := h.leveled
  rw [hqueue, List.map_cons] at htracks hleveled
  obtain ⟨out, kids, hvisited⟩ := visit_visited target limits direction state
    (fun e he => loaded_mem he) before
  rw [hvisit] at hvisited
  obtain ⟨hpaths, hkids, hcached, hcounts, ⟨hpart, hopened⟩, hdeep, hwhole, hbounded⟩ := hvisited
  rw [hbeforePaths] at hpaths hbounded
  rw [hbeforeQueue] at hkids
  have hlt : (stateOf state).walk.edges.length < (pathSearch db target limits direction).bound := hshort
  have hout : (pathSearch db target limits direction).tree.out (stateOf state) =
      (pathSearch db target limits direction).found (stateOf state)
        ((loadEdgesForAddress db limits.perAddressLimit state.current).map FlowEdge.id) := if_pos hlt
  have hnext : (pathSearch db target limits direction).tree.kids (stateOf state) =
      (pathSearch db target limits direction).opened (stateOf state)
        ((loadEdgesForAddress db limits.perAddressLimit state.current).map FlowEdge.id) := if_pos hlt
  have htracks' : Tracks (pathSearch db target limits direction).tree [State.start source]
      (s'.paths.map walkOf) (s'.queue.map stateOf) (stopped limits s') := by
    rw [hpaths, hkids, List.map_append, List.map_append]
    refine htracks.expand_all (hout ▸ hpart.subperm) (hnext ▸ flatMap_subperm hopened.subperm) fun hf => ?_
    obtain ⟨hflag, hbelow⟩ := stopped_eq_false.mp hf
    obtain ⟨hbeforeFalse, hall, hallOpened⟩ := hwhole hflag hbelow
    refine ⟨stopped_eq_false.mpr ⟨hbeforeFlag ▸ hbeforeFalse, hroom⟩, ?_, ?_⟩
    · rw [hout, hall]
    · rw [hnext]
      by_cases hmore : state.edgeIds.length + 1 < limits.maxHops
      · rw [hallOpened hmore]
      · -- the paths that are left out have no edge to spare
        have hnone : ∀ k ∈ (pathSearch db target limits direction).opened (stateOf state)
            ((loadEdgesForAddress db limits.perAddressLimit state.current).map FlowEdge.id),
            (pathSearch db target limits direction).tree.all k = [] := by
          intro k hk
          refine SimplePaths.Search.all_deep _ ?_
          rw [SimplePaths.Search.opened_length _ hk]
          exact Nat.le_of_not_lt hmore
        rw [hdeep hmore, List.flatMap_eq_nil_iff.mpr hnone]
        exact List.Perm.refl _
  have hleveled' : Leveled (fun p : State String String => p.walk.edges.length)
      (fun w : Walk String String => w.edges.length) (s'.paths.map walkOf) (s'.queue.map stateOf) := by
    rw [hpaths, hkids, List.map_append, List.map_append]
    exact hleveled.expand (fun w hw => SimplePaths.Search.found_length _ (hpart.subset hw))
      fun k hk => SimplePaths.Search.opened_length _ (hopened.subset hk)
  refine ⟨⟨hbounded hroom, ?_, ?_, htracks', hleveled'⟩, kids, hkids, ?_, ?_⟩
  · intro p hp
    rw [hpaths] at hp
    exact (List.mem_append.mp hp).elim (h.counts p) (hcounts p)
  · intro address rows hmem
    rw [hcached] at hmem
    exact hbeforeCached address rows hmem
  · have hlength := hopened.length_le
    have hopen := SimplePaths.Search.opened_length_le (pathSearch db target limits direction) (stateOf state)
      ((loadEdgesForAddress db limits.perAddressLimit state.current).map FlowEdge.id)
    have htake : (loadEdgesForAddress db limits.perAddressLimit state.current).length ≤ limits.perAddressLimit := by
      rw [loadEdgesForAddress, List.length_take]
      exact Nat.min_le_left _ _
    rw [List.length_map] at hlength hopen
    exact hlength.trans (hopen.trans htake)
  · intro k hk
    exact SimplePaths.Search.opened_length _ (hopened.subset (List.mem_map_of_mem hk))

theorem Searched.sorted (h : Searched db target limits direction source s) :
    s.paths.Pairwise fun p q => p.edgeIds.length ≤ q.edgeIds.length :=
  (List.pairwise_map (R := fun p q : Walk String String => p.edges.length ≤ q.edges.length)).mp h.leveled.sorted

theorem Searched.finished (h : Searched db target limits direction source s) (hqueue : s.queue = []) :
    Finished db target limits direction source s := by
  have htracks := h.tracks
  rw [hqueue, List.map_nil] at htracks
  refine ⟨h.bounded, h.counts, h.sorted, ?_, fun hf hlt => ?_⟩
  · simpa using htracks.results_subperm
  · rw [stopped_eq_false.mpr ⟨hf, hlt⟩] at htracks
    simpa using htracks.results_perm

/-- Whatever is left in the queue, the search may stop with the flag or at the limit. -/
theorem Searched.stop (h : Searched db target limits direction source s) {s' : Searching}
    (hpaths : s'.paths = s.paths) (hstop : stopped limits s' = true) :
    Finished db target limits direction source s' := by
  refine ⟨hpaths ▸ h.bounded, hpaths ▸ h.counts, hpaths ▸ h.sorted, ?_, fun hf hlt => ?_⟩
  · rw [hpaths]
    simpa using h.tracks.results_subperm
  · rw [stopped_eq_false.mpr ⟨hf, hlt⟩] at hstop
    cases hstop

/-- The rounds that a queued path may still take. -/
def weight (limits : PathLimits) (p : PathState) : Nat :=
  (limits.perAddressLimit + 1) ^ (limits.maxHops - p.edgeIds.length)

def remaining (limits : PathLimits) (s : Searching) : Nat := (s.queue.map (weight limits)).sum

theorem weight_pos (p : PathState) : 0 < weight limits p := Nat.pow_pos (Nat.succ_pos _)

/-- What a path opens takes fewer rounds than the path itself. -/
theorem weight_kids {kids : List PathState} (hshort : state.edgeIds.length < limits.maxHops)
    (hlength : kids.length ≤ limits.perAddressLimit)
    (hkids : ∀ k ∈ kids, k.edgeIds.length = state.edgeIds.length + 1) :
    (kids.map (weight limits)).sum < weight limits state := by
  have hone : ∀ k ∈ kids, weight limits k =
      (limits.perAddressLimit + 1) ^ (limits.maxHops - state.edgeIds.length - 1) := by
    intro k hk
    unfold weight
    rw [hkids k hk, Nat.sub_sub]
  have hsum : (kids.map (weight limits)).sum =
      kids.length * (limits.perAddressLimit + 1) ^ (limits.maxHops - state.edgeIds.length - 1) := by
    rw [List.map_congr_left hone, List.map_const', List.sum_replicate_nat]
  obtain ⟨left, hleft⟩ : ∃ left, limits.maxHops - state.edgeIds.length = left + 1 :=
    ⟨limits.maxHops - state.edgeIds.length - 1, by omega⟩
  have hpos : 0 < (limits.perAddressLimit + 1) ^ left := Nat.pow_pos (Nat.succ_pos _)
  rw [hsum, weight, hleft, Nat.add_sub_cancel, Nat.pow_succ, Nat.mul_succ,
    Nat.mul_comm ((limits.perAddressLimit + 1) ^ left)]
  have := Nat.mul_le_mul_right ((limits.perAddressLimit + 1) ^ left) hlength
  omega

theorem search_finished (fuel : Nat) (h : Searched db target limits direction source s)
    (hfuel : remaining limits s < fuel) : ∃ s', search db target limits direction fuel s = some s' ∧
      Finished db target limits direction source s' := by
  induction fuel generalizing s with
  | zero => omega
  | succ fuel ih =>
    unfold search
    split
    · rename_i hqueue
      exact ⟨s, rfl, h.finished hqueue⟩
    · rename_i state queue hqueue
      have hremaining : remaining limits s = weight limits state + (queue.map (weight limits)).sum := by
        unfold remaining
        rw [hqueue, List.map_cons, List.sum_cons]
      by_cases hfull : s.paths.length ≥ limits.pathLimit
      · refine ⟨_, if_pos hfull, h.stop rfl ?_⟩
        unfold stopped
        rw [decide_eq_true hfull, Bool.or_true]
      have hroom : s.paths.length < limits.pathLimit := Nat.lt_of_not_le hfull
      simp only [if_neg hfull]
      by_cases hdeep : state.edgeIds.length ≥ limits.maxHops
      · rw [if_pos hdeep]
        refine ih (h.skip hqueue hdeep) ?_
        have hpos : 0 < weight limits state := weight_pos state
        show (queue.map (weight limits)).sum < fuel
        omega
      · rw [if_neg hdeep]
        by_cases hcut : s.expanded.length ≥ maxExpanded ∨ s.discoveredEdges.length ≥ limits.graphMaxEdges
        · exact ⟨_, if_pos hcut, h.stop rfl rfl⟩
        · simp only [if_neg hcut]
          have hpopped : Cached db limits { s with queue := queue } := h.cached
          obtain ⟨before, hload, hbefore⟩ := load_rows hpopped state.current
          rw [hload]
          generalize hvisit : visit target limits direction state
            (loadEdgesForAddress db limits.perAddressLimit state.current) before = s'
          obtain ⟨hsearched, kids, hqueue', hlength, hkids⟩ :=
            h.look hqueue hroom (Nat.lt_of_not_le hdeep) hbefore hvisit
          have hless := weight_kids (Nat.lt_of_not_le hdeep) hlength hkids
          have hrest : remaining limits s' =
              (queue.map (weight limits)).sum + (kids.map (weight limits)).sum := by
            unfold remaining
            rw [hqueue', List.map_append, List.sum_append]
          exact ih hsearched (by omega)

/-! ## Results -/

/-- The path search ends; it lists paths of the kind that was asked for, none twice and shorter ones
first. A list without the flag holds all of them exactly when every edge of theirs is among the rows
of the address that it leaves and there are no more of them than the limit of paths. -/
theorem find_paths_exact_iff (db : Relationships) (source target : String) (limits : PathLimits)
    (direction : PathDirection) (hends : source ≠ target) :
    ∃ r, findPaths db source target limits direction = .ok (some r) ∧
      (∀ p ∈ r.paths, PathTo db direction source target limits.maxHops p ∧ 1 ≤ p.hopCount) ∧ r.paths.Nodup ∧
      (r.paths.Pairwise fun p q => p.hopCount ≤ q.hopCount) ∧
      (r.truncated = false →
        ((∀ p, p ∈ r.paths ↔ PathTo db direction source target limits.maxHops p) ↔
          (∀ p, PathTo db direction source target limits.maxHops p → ServedPath db limits.perAddressLimit p) ∧
          ∃ all : List WalletPath, all.Nodup ∧
            (∀ p, p ∈ all ↔ PathTo db direction source target limits.maxHops p) ∧
            all.length ≤ limits.pathLimit)) := by
  have hstart : Searched db target limits direction source (Searching.start source) := .start
  obtain ⟨s, hs, hfinished⟩ := search_finished (rounds limits) hstart (by
    show weight limits ⟨source, [source], []⟩ + 0 < rounds limits
    unfold weight rounds
    simp)
  have hmem : ∀ p ∈ s.paths, PathTo db direction source target limits.maxHops p ∧
      ServedPath db limits.perAddressLimit p := by
    intro p hp
    obtain ⟨q, hq, hpath, hserved⟩ := (mem_pathSearch hends).mp
      (hfinished.sound.subset (List.mem_map_of_mem hp))
    obtain rfl := walkOf_injective hpath.count (hfinished.counts p hp) hq
    exact ⟨hpath, hserved⟩
  have hover : (pathSearch db target limits direction).Over fun id a b =>
      Served db limits.perAddressLimit id a ∧ Hop db direction id a b := pathSearch_over
  have htree := (SimplePaths.Search.tree_traced hover).nodup (State.start source)
  have hnodup : s.paths.Nodup := by
    obtain ⟨walks, hperm, hsublist⟩ := hfinished.sound
    exact List.Nodup.of_map _ (hperm.nodup_iff.mp (htree.sublist hsublist))
  refine ⟨⟨s.paths, selectedEdges s, s.expanded.length, s.truncated⟩, ?_, ?_, hnodup, ?_, ?_⟩
  · unfold findPaths
    rw [if_neg hends, hs]
    rfl
  · intro p hp
    exact ⟨(hmem p hp).1, (hmem p hp).1.pos hends⟩
  · refine hfinished.sorted.imp_of_mem ?_
    intro p q hp hq hle
    rw [hfinished.counts p hp, hfinished.counts q hq]
    exact hle
  · intro hflag
    constructor
    · intro hexact
      exact ⟨fun p hp => (hmem p ((hexact p).mpr hp)).2, s.paths, hnodup, hexact, hfinished.bounded⟩
    · rintro ⟨hserved, all, _, hall, hlength⟩ p
      refine ⟨fun hp => (hmem p hp).1, fun hpath => ?_⟩
      have hsubset : (pathSearch db target limits direction).tree.all (State.start source) ⊆ all.map walkOf := by
        intro w hw
        obtain ⟨q, rfl, hq, _⟩ := (mem_pathSearch hends).mp hw
        exact List.mem_map_of_mem ((hall q).mpr hq)
      have hsize := (List.subperm_of_subset htree hsubset).length_le
      rw [List.length_map] at hsize
      have hperm : (s.paths.map walkOf).Perm
          ((pathSearch db target limits direction).tree.all (State.start source)) := by
        by_cases hroom : s.paths.length < limits.pathLimit
        · exact hfinished.complete hflag hroom
        · refine hfinished.sound.perm_of_length_le ?_
          rw [List.length_map]
          omega
      have hwalk := hperm.mem_iff.mpr ((mem_pathSearch hends).mpr ⟨p, rfl, hpath, hserved p hpath⟩)
      obtain ⟨q, hq, heq⟩ := List.mem_map.mp hwalk
      rw [← walkOf_injective (hfinished.counts q hq) hpath.count heq]
      exact hq

end

/-- Two transfers of one wallet, the newer to another. -/
def sampleRelationships : Relationships where
  rows := [⟨"r1", "eip155:1", "x1", 1, 1000, "a", "b", "native", "", "1", "native"⟩,
    ⟨"r2", "eip155:1", "x2", 2, 2000, "a", "c", "native", "", "1", "native"⟩]
  ids := by decide

theorem sample_find_paths : ∃ r, findPaths sampleRelationships "a" "b"
      (PathLimits.ofRequest none none none 20000) .outbound = .ok (some r) ∧ r.paths.Nodup ∧
      ∀ p ∈ r.paths, PathTo sampleRelationships .outbound "a" "b" 6 p ∧ 1 ≤ p.hopCount := by
  obtain ⟨r, hr, hpaths, hnodup, _⟩ := find_paths_exact_iff sampleRelationships "a" "b"
    (PathLimits.ofRequest none none none 20000) .outbound (by decide)
  exact ⟨r, hr, hnodup, hpaths⟩

/-- The newest row of the wallet fills the limit of rows, and the path over the older one is missed
without the flag. -/
theorem older_row_missed : ¬ ∀ (db : Relationships) (source target : String) (limits : PathLimits)
    (direction : PathDirection), source ≠ target → ∀ r,
    findPaths db source target limits direction = .ok (some r) → r.truncated = false →
    ∀ p, p ∈ r.paths ↔ PathTo db direction source target limits.maxHops p := by
  intro hclaim
  have hrun : findPaths sampleRelationships "a" "b" (PathLimits.ofRequest none none (some 1) 20000) .outbound =
      .ok (some ⟨[], [⟨"r2", "eip155:1", "x2", 2, 2000, "a", "c", "native", "", "1", "native"⟩], 2, false⟩) := by
    rfl
  have hpath : PathTo sampleRelationships .outbound "a" "b" 6 ⟨1, ["a", "b"], ["r1"]⟩ := by
    refine ⟨⟨rfl, ⟨?_, trivial⟩, by decide⟩, rfl, by decide, rfl⟩
    exact ⟨_, List.mem_cons_self, rfl, rfl, rfl⟩
  exact absurd ((hclaim _ _ _ _ _ (by decide) _ hrun rfl _).mpr hpath) List.not_mem_nil

end AmlReal.Ethereum.WalletPaths
