import AmlReal.Foundations.EntryList
import AmlReal.Bsc.PathTree

/-! # The path search

`paths` of `investigation/graph.rs`. Five cut-offs can leave something out, each
of which sets `truncated`: without it the reply lists every path. -/

namespace AmlReal.Bsc.Paths
open AmlReal.Foundations.Checks AmlReal.Foundations.EntryList AmlReal.Foundations.TreeSearch
open AmlReal.Bsc.Model AmlReal.Bsc.Investigation AmlReal.Bsc.PathTree

structure PathOptions where
  maxHops : Nat
  maxPaths : Nat
  perAddressLimit : Nat
  direction : Direction
  fromMs : Nat
  toMs : Nat
  assetId : String

def readDirection (value : String) : Except String Direction :=
  match value with
  | "outbound" => .ok .outgoing
  | "outgoing" => .ok .outgoing
  | "inbound" => .ok .incoming
  | "incoming" => .ok .incoming
  | "both" => .ok .both
  | _ => .error "direction must be outgoing, incoming or both"

namespace PathOptions

def default : PathOptions := ⟨10, 25, 200, .outgoing, 0, 2 ^ 64 - 1, ""⟩

def filters (options : PathOptions) : SearchOptions :=
  { SearchOptions.default with
    fromMs := options.fromMs, toMs := options.toMs, assetId := options.assetId }

/-- The direction is one of the three once it is read. -/
def validate (options : PathOptions) : Except String Unit := do
  ensure ((1 ≤ options.maxHops ∧ options.maxHops ≤ 10) ∧
      (1 ≤ options.maxPaths ∧ options.maxPaths ≤ 100) ∧
      (1 ≤ options.perAddressLimit ∧ options.perAddressLimit ≤ 500)) "path limits out of range"
  options.filters.validate

theorem validate_hops {options : PathOptions} (h : options.validate = .ok ()) : 1 ≤ options.maxHops := by
  obtain ⟨_, hlimits, _⟩ := bind_ok h
  exact (ensure_ok hlimits).1.1

end PathOptions

structure PathResult where
  hopCount : Nat
  addresses : List String
  edgeIds : List String
  deriving DecidableEq

def Node.result (n : Node) : PathResult := ⟨n.path.length, n.addresses, n.path.map Edge.id⟩

structure Searching where
  cache : List (String × List Edge)
  queue : List Node
  results : List PathResult
  used : List Edge
  states : Nat
  truncated : Bool

def Searching.start (source : String) : Searching := ⟨[], [Node.start source], [], [], 0, false⟩

structure PathReply where
  graph : Graph
  networkId : String
  source : String
  target : String
  direction : Direction
  maxHops : Nat
  paths : List PathResult
  expandedAddresses : Nat
  asOfBlock : Nat
  continuityType : String
  limitations : List String
  projected : Bool
  owner : String
  nodeCount : Nat
  edgeCount : Nat

section
variable (db : Transfers) (target : String) (options : PathOptions) (height : Nat)

def Searching.fetched (s : Searching) (cache : List (String × List Edge)) (cut : Bool) : Searching :=
  { s with cache := cache, truncated := s.truncated || cut }

def Searching.record (s : Searching) (k : Node) : Searching :=
  { s with
    results := s.results ++ [Node.result k]
    used := k.path.foldl (fun used e => insertById e used) s.used }

/-- The loop over the rows of one address. -/
def visit (n : Node) : List Edge → Searching → Searching
  | [], s => s
  | e :: rest, s =>
    match follow options.direction n e with
    | none => visit n rest s
    | some k =>
      if k.current = target then
        if options.maxPaths ≤ (s.record k).results.length then { s.record k with truncated := true }
        else visit n rest (s.record k)
      else if k.path.length < options.maxHops then
        if 10000 ≤ s.queue.length then visit n rest { s with truncated := true }
        else visit n rest { s with queue := s.queue ++ [k] }
      else visit n rest s

/-- The loop over the queue, for so many states. -/
def search : Nat → Searching → Option Searching
  | 0, _ => none
  | fuel + 1, s =>
    match s.queue with
    | [] => some s
    | n :: rest =>
      let s := { s with queue := rest, states := s.states + 1 }
      if 10000 < s.states ∨ 100 ≤ s.cache.length ∨ options.maxPaths ≤ s.results.length then
        some { s with truncated := true }
      else if options.maxHops ≤ n.path.length then search fuel s
      else
        let (rows, cache, cut) := fetch db options.filters height options.perAddressLimit s.cache n.current
        search fuel (visit target options n rows (s.fetched cache cut))

def reply (source : String) (s : Searching) : PathReply :=
  let data := graph s.used [source, target] s.truncated
  { graph := data, networkId := BSC_NETWORK_ID, source := source, target := target
    direction := options.direction, maxHops := options.maxHops, paths := s.results
    expandedAddresses := s.cache.length, asOfBlock := height
    continuityType :=
      if options.direction = .both then "topology_only" else "same_asset_ordered_transactions"
    limitations :=
      ["Bounded search, not exhaustive. No cross-asset swap/bridge continuity is inferred.",
        "Account-based connectivity does not prove that the same funds moved along a path."]
    projected := false, owner := "main_vm"
    nodeCount := data.nodes.length, edgeCount := data.edges.length }

/-- The state after the first 10000 ends the search. -/
def paths (source : String) : Except String PathReply := do
  options.validate
  ensure (source ≠ target ∧ source ≠ ZERO_ADDRESS ∧ target ≠ ZERO_ADDRESS)
    "source and target must be distinct nonzero wallets"
  let s ← context (search db target options height 10001 (Searching.start source)) "unfinished"
  pure (reply target options height source s)

/-! ## The paths there are -/

/-- A path from `source` to `target` that the search is for. -/
structure PathTo (source : String) (n : Node) : Prop where
  simple : SimplePath (known db options.filters height) options.direction source n
  reaches : n.current = target
  nonzero : ZERO_ADDRESS ∉ n.addresses
  nonempty : n.path ≠ []
  short : n.path.length ≤ options.maxHops

/-- The search as one over the tree of paths: it does not go on at the target. -/
def pathSearch : Search Node where
  incident := incident db options.filters height
  blocked a := a = target
  maxHops := options.maxHops
  emit _ k := if k.current = target then [k] else []

theorem pathSearch_over :
    (pathSearch db target options height).Over (known db options.filters height) where
  mem _ _ := mem_incident
  once a := incident_nodup a
  positions _ he _ hf h := known_position he hf h

variable {db target options height}

theorem between_ne_current {n : Node} (h : n.addresses.Nodup) {a : String}
    (ha : a ∈ Search.between n) : a ≠ n.current := by
  have hne : n.addresses.tail ≠ [] := fun he => by rw [Search.between, he] at ha; cases ha
  have hsplit := List.dropLast_append_getLast hne
  have hcurrent : n.addresses.tail.getLast hne = n.current := by
    rw [List.getLast_tail, Node.current, List.getLast?_eq_some_getLast]; rfl
  rw [hcurrent] at hsplit
  have htail := h.tail
  rw [← hsplit] at htail
  exact (List.nodup_append.mp htail).2.2 a ha _ (List.mem_singleton_self _)

/-- The tree lists the paths that the search is for. -/
theorem mem_pathSearch {source : String} (hsource : source ≠ ZERO_ADDRESS) (hhops : 1 ≤ options.maxHops)
    {n : Node} : n ∈ (pathSearch db target options height).tree.all (options.direction, Node.start source) ↔
      PathTo db target options height source n := by
  rw [Search.mem_tree (pathSearch_over db target options height) hhops]
  constructor
  · rintro ⟨k, hk, hne, hlength, _, hmem⟩
    by_cases hreach : k.current = target
    · simp only [pathSearch, if_pos hreach, List.mem_singleton] at hmem
      subst hmem
      refine ⟨hk, hreach, fun hzero => ?_, hne, hlength⟩
      obtain ⟨a, as, haddresses⟩ := List.exists_cons_of_ne_nil hk.addresses_ne_nil
      have hstart := hk.starts
      have htail := hk.nonzero
      rw [haddresses] at hstart htail hzero
      rcases List.mem_cons.mp hzero with rfl | hin
      · exact hsource (Option.some.inj hstart).symm
      · exact htail hin
    · simp [pathSearch, if_neg hreach] at hmem
  · intro h
    refine ⟨n, h.simple, h.nonempty, h.short, fun a ha => ?_, ?_⟩
    · have hne := between_ne_current h.simple.simple ha
      rw [h.reaches] at hne
      exact decide_eq_false hne
    · show n ∈ if n.current = target then [n] else []
      rw [if_pos h.reaches]
      exact List.mem_singleton_self n

/-! ## What the loops do -/

/-- From `s` to `s'` the search has looked at the given rows of a state. -/
def Visited (db : Transfers) (target : String) (options : PathOptions) (height : Nat) (n : Node)
    (rows : List Edge) (s s' : Searching) : Prop :=
  ∃ out kids, s'.results = s.results ++ out.map Node.result ∧ s'.queue = s.queue ++ kids ∧
    s'.cache = s.cache ∧ s'.states = s.states ∧
    (pathSearch db target options height).Looked options.direction n rows s.truncated s'.truncated out kids

namespace Visited
variable {n : Node} {rows more : List Edge} {s s' s'' : Searching}

theorem append (h : Visited db target options height n rows s s')
    (h' : Visited db target options height n more s' s'') :
    Visited db target options height n (rows ++ more) s s'' := by
  obtain ⟨out, kids, hresults, hqueue, hcache, hstates, hlook⟩ := h
  obtain ⟨out', kids', hresults', hqueue', hcache', hstates', hlook'⟩ := h'
  refine ⟨out ++ out', kids ++ kids', ?_, ?_, hcache'.trans hcache, hstates'.trans hstates,
    hlook.append hlook'⟩
  · rw [hresults', hresults, List.map_append, List.append_assoc]
  · rw [hqueue', hqueue, List.append_assoc]

/-- A transfer that reaches the target. -/
theorem reached {e : Edge} {k : Node} (hf : follow options.direction n e = some k)
    (hreach : k.current = target) : Visited db target options height n [e] s (s.record k) := by
  have htake : (pathSearch db target options height).Looked options.direction n [e] s.truncated
      s.truncated _ _ := Search.Looked.take hf
  simp only [pathSearch, hreach, if_true, decide_true, Bool.true_eq_false, false_and, if_false] at htake
  exact ⟨[k], [], rfl, (List.append_nil _).symm, rfl, rfl, htake⟩

/-- A transfer that leads elsewhere reports nothing and is followed while it is short enough. -/
theorem onward {e : Edge} {k : Node} (hf : follow options.direction n e = some k)
    (hreach : k.current ≠ target) : Visited db target options height n [e] s
      { s with queue := s.queue ++ if k.path.length < options.maxHops then [k] else [] } := by
  have htake : (pathSearch db target options height).Looked options.direction n [e] s.truncated
      s.truncated _ _ := Search.Looked.take hf
  simp only [pathSearch, hreach, if_false, decide_false, true_and] at htake
  exact ⟨[], _, (List.append_nil _).symm, rfl, rfl, rfl, htake⟩

/-- Leaving rows out, with the flag set. -/
theorem cut (h : Visited db target options height n rows s s') (hsub : rows.Sublist more) :
    Visited db target options height n more s { s' with truncated := true } := by
  obtain ⟨out, kids, hresults, hqueue, hcache, hstates, hlook⟩ := h
  exact ⟨out, kids, hresults, hqueue, hcache, hstates, hlook.cut hsub⟩

end Visited

variable (db target options height) in
theorem visit_visited (n : Node) (rows : List Edge) (s : Searching) :
    Visited db target options height n rows s (visit target options n rows s) := by
  induction rows generalizing s with
  | nil =>
    exact ⟨[], [], (List.append_nil _).symm, (List.append_nil _).symm, rfl, rfl, Search.Looked.nil _ n _⟩
  | cons e rest ih =>
    cases hf : follow options.direction n e with
    | none =>
      have hstep : visit target options n (e :: rest) s = visit target options n rest s := by
        simp only [visit, hf]
      obtain ⟨out, kids, hresults, hqueue, hcache, hstates, hlook⟩ := ih s
      rw [hstep]
      exact ⟨out, kids, hresults, hqueue, hcache, hstates, (Search.Looked.skip hf).append hlook⟩
    | some k =>
      by_cases hreach : k.current = target
      · have hone : Visited db target options height n [e] s (s.record k) := .reached hf hreach
        by_cases hfull : options.maxPaths ≤ (s.record k).results.length
        · have hstep : visit target options n (e :: rest) s = { s.record k with truncated := true } := by
            simp only [visit, hf, if_pos hreach, if_pos hfull]
          rw [hstep]
          exact hone.cut (List.singleton_sublist.mpr (List.mem_cons_self ..))
        · have hstep : visit target options n (e :: rest) s = visit target options n rest (s.record k) := by
            simp only [visit, hf, if_pos hreach, if_neg hfull]
          rw [hstep]
          exact hone.append (ih _)
      · have hone : Visited db target options height n [e] s _ := .onward hf hreach
        by_cases hshort : k.path.length < options.maxHops
        · rw [if_pos hshort] at hone
          by_cases hlong : 10000 ≤ s.queue.length
          · -- the state is not queued
            have hstep : visit target options n (e :: rest) s =
                visit target options n rest { s with truncated := true } := by
              simp only [visit, hf, if_neg hreach, if_pos hshort, if_pos hlong]
            have hnone : Visited db target options height n [e] s { s with truncated := true } :=
              ⟨[], [], (List.append_nil _).symm, (List.append_nil _).symm, rfl, rfl,
                (Search.Looked.nil _ n _).cut (List.nil_sublist _)⟩
            rw [hstep]
            exact hnone.append (ih _)
          · have hstep : visit target options n (e :: rest) s =
                visit target options n rest { s with queue := s.queue ++ [k] } := by
              simp only [visit, hf, if_neg hreach, if_pos hshort, if_neg hlong]
            rw [hstep]
            exact hone.append (ih _)
        · rw [if_neg hshort, List.append_nil] at hone
          have hstep : visit target options n (e :: rest) s = visit target options n rest s := by
            simp only [visit, hf, if_neg hreach, if_neg hshort]
          rw [hstep]
          exact hone.append (ih _)

/-! ## The whole search -/

/-- The search so far: what it found and what it still has to look at. -/
structure Searched (db : Transfers) (target : String) (options : PathOptions) (height : Nat)
    (source : String) (s : Searching) : Prop where
  cached : Cached db options.filters height s.cache s.truncated
  short : ∀ n ∈ s.queue, n.path.length < options.maxHops
  tracks : ∃ found, s.results = found.map Node.result ∧
    Tracks (pathSearch db target options height).tree [(options.direction, Node.start source)] found
      (s.queue.map (Prod.mk options.direction)) s.truncated

namespace Searched
variable {source : String} {s : Searching}

theorem start (hhops : 1 ≤ options.maxHops) :
    Searched db target options height source (Searching.start source) where
  cached := Cached.nil
  short n hn := by rw [List.mem_singleton.mp hn]; exact hhops
  tracks := ⟨[], rfl, Tracks.start _⟩

theorem look {n : Node} {rest : List Node} (h : Searched db target options height source s)
    (hqueue : s.queue = n :: rest) (states : Nat) {rows : List Edge} {cache : List (String × List Edge)}
    {cut : Bool}
    (hfetch : fetch db options.filters height options.perAddressLimit s.cache n.current = (rows, cache, cut)) :
    Searched db target options height source (visit target options n rows
      (Searching.fetched { s with queue := rest, states := states } cache cut)) := by
  obtain ⟨found, hfound, htracks⟩ := h.tracks
  obtain ⟨hcached, hpart, hwhole⟩ := fetch_cached h.cached hfetch
  obtain ⟨out, kids, hresults, hvqueue, hcache, _, hlook⟩ :=
    visit_visited db target options height n rows (Searching.fetched { s with queue := rest, states := states } cache cut)
  generalize visit target options n rows _ = s' at *
  rw [hqueue, List.map_cons] at htracks
  refine ⟨?_, fun k hk => ?_, found ++ out, ?_, ?_⟩
  · rw [hcache]; exact hcached.flagged _ fun hf => (hlook.whole hf).1
  · rw [hvqueue] at hk
    rcases List.mem_append.mp hk with hk | hk
    · exact h.short k (by rw [hqueue]; exact List.mem_cons_of_mem n hk)
    · exact (of_decide_eq_true (List.mem_filter.mp (hlook.queued.mem hk)).2).2
  · rw [hresults, List.map_append, ← hfound]; rfl
  · rw [hvqueue, List.map_append]
    exact Search.tracks_look htracks (hlook.of_rows hpart hwhole)

end Searched

theorem visit_states (n : Node) (rows : List Edge) (s : Searching) :
    (visit target options n rows s).states = s.states := by
  obtain ⟨_, _, _, _, _, hstates, _⟩ :=
    visit_visited ⟨[], List.nodup_nil, by simp⟩ target options 0 n rows s
  exact hstates

variable (db target options height) in
/-- The search ends after at most 10001 rounds. -/
theorem search_some {fuel : Nat} {s : Searching} (hstates : s.states ≤ 10000)
    (hfuel : 10001 ≤ fuel + s.states) : ∃ s', search db target options height fuel s = some s' := by
  induction fuel generalizing s with
  | zero => omega
  | succ fuel ih =>
    unfold search
    split
    · exact ⟨s, rfl⟩
    · rename_i n rest _
      simp only
      split
      · exact ⟨_, rfl⟩
      · rename_i hgo
        simp only [not_or, Nat.not_lt, Nat.not_le] at hgo
        split
        · exact ih hgo.1 (by show 10001 ≤ fuel + (s.states + 1); omega)
        · refine ih ?_ ?_
          · rw [visit_states]; exact hgo.1
          · rw [visit_states]; show 10001 ≤ fuel + (s.states + 1); omega

/-- What the search found are results of the tree, all of them where nothing was left out. -/
theorem search_found {source : String} {fuel : Nat} {s s' : Searching}
    (h : Searched db target options height source s)
    (hsearch : search db target options height fuel s = some s') : ∃ found : List Node,
      s'.results = found.map Node.result ∧
      found.Subperm ((pathSearch db target options height).tree.all
        (options.direction, Node.start source)) ∧
      (s'.truncated = false → found.Perm ((pathSearch db target options height).tree.all
        (options.direction, Node.start source))) := by
  induction fuel generalizing s with
  | zero => cases hsearch
  | succ fuel ih =>
    unfold search at hsearch
    split at hsearch
    · rename_i hempty
      obtain rfl := Option.some.inj hsearch
      obtain ⟨found, hfound, htracks⟩ := h.tracks
      rw [hempty, List.map_nil] at htracks
      refine ⟨found, hfound, ?_, fun hf => ?_⟩
      · simpa using htracks.results_subperm
      · rw [hf] at htracks
        simpa using htracks.results_perm
    · rename_i n rest hqueue
      simp only at hsearch
      split at hsearch
      · -- a cut-off ends the search with the flag set
        obtain rfl := Option.some.inj hsearch
        obtain ⟨found, hfound, htracks⟩ := h.tracks
        exact ⟨found, hfound, by simpa using htracks.results_subperm, fun hf => by cases hf⟩
      · split at hsearch
        · rename_i hlong
          have hshort := h.short n (by rw [hqueue]; exact List.mem_cons_self ..)
          omega
        · exact ih (h.look hqueue _ rfl) hsearch

/-! ## The reply -/

theorem path_eq_of_ids {es fs : List Edge} (hes : ∀ e ∈ es, e ∈ known db options.filters height)
    (hfs : ∀ f ∈ fs, f ∈ known db options.filters height) (h : es.map Edge.id = fs.map Edge.id) :
    es = fs := by
  induction es generalizing fs with
  | nil => exact (List.map_eq_nil_iff.mp h.symm).symm
  | cons e es ih =>
    cases fs with
    | nil => cases h
    | cons f fs =>
      obtain ⟨hid, hrest⟩ := List.cons.inj h
      rw [known_id (hes e (List.mem_cons_self ..)) (hfs f (List.mem_cons_self ..)) hid,
        ih (fun a ha => hes a (List.mem_cons_of_mem e ha)) (fun a ha => hfs a (List.mem_cons_of_mem f ha)) hrest]

/-- The ids of the transfers tell the paths apart. -/
theorem PathTo.eq_of_result {source : String} {n k : Node} (hn : PathTo db target options height source n)
    (hk : PathTo db target options height source k) (h : Node.result n = Node.result k) : n = k := by
  obtain ⟨as, es⟩ := n
  obtain ⟨bs, fs⟩ := k
  obtain ⟨_, haddresses, hids⟩ := PathResult.mk.inj h
  obtain rfl : as = bs := haddresses
  obtain rfl : es = fs := path_eq_of_ids hn.simple.known hk.simple.known hids
  rfl

/-- The path search, for every database and all valid options: it always ends, lists simple paths
of the kind that was asked for, none twice, and all of them unless the reply is truncated. -/
theorem paths_exact (db : Transfers) (source target : String) (options : PathOptions) (height : Nat)
    (hvalid : options.validate = .ok ())
    (hends : source ≠ target ∧ source ≠ ZERO_ADDRESS ∧ target ≠ ZERO_ADDRESS) :
    ∃ r, paths db target options height source = .ok r ∧ r.paths.Nodup ∧
      (∀ p ∈ r.paths, ∃ n, PathTo db target options height source n ∧ p = Node.result n) ∧
      (r.graph.truncated = false →
        ∀ n, PathTo db target options height source n → Node.result n ∈ r.paths) := by
  have hhops := PathOptions.validate_hops hvalid
  obtain ⟨s, hs⟩ := search_some db target options height (s := Searching.start source) (Nat.zero_le 10000) (Nat.le_refl 10001)
  have hpaths : paths db target options height source = .ok (reply target options height source s) := by
    unfold paths
    rw [hvalid, ok_bind, ensure_eq hends, ok_bind, hs]
    rfl
  obtain ⟨found, hfound, hsub, hperm⟩ := search_found (Searched.start hhops) hs
  have hmem : ∀ n ∈ found, PathTo db target options height source n := fun n hn =>
    (mem_pathSearch hends.2.1 hhops).mp (hsub.subset hn)
  have htraced := Search.tree_traced (pathSearch_over db target options height) Node.path
    (fun _ k r hr => by
      by_cases hreach : k.current = target <;> simp_all [pathSearch])
    (fun _ k => by
      by_cases hreach : k.current = target <;> simp [pathSearch, hreach])
  have hnodup : found.Nodup := by
    obtain ⟨zs, hzs, hsublist⟩ := hsub
    exact hzs.nodup_iff.mp ((htraced.nodup _).sublist hsublist)
  refine ⟨_, hpaths, ?_, fun p hp => ?_, fun hf n hn => ?_⟩
  · show s.results.Nodup
    rw [hfound]
    exact List.Nodup.map_on (fun n hn k hk h => (hmem n hn).eq_of_result (hmem k hk) h) hnodup
  · have hp : p ∈ s.results := hp
    rw [hfound] at hp
    obtain ⟨n, hn, rfl⟩ := List.mem_map.mp hp
    exact ⟨n, hmem n hn, rfl⟩
  · show Node.result n ∈ s.results
    rw [hfound]
    exact List.mem_map_of_mem ((hperm hf).mem_iff.mpr ((mem_pathSearch hends.2.1 hhops).mpr hn))

end

/-- Two transfers in a row. -/
def sampleTransfers : Transfers where
  rows :=
    [⟨"t1", BSC_NETWORK_ID, "x1", 1, 1000, 0, 0, "a", "b", "eip155:56/slip44:714", "", "5", "native"⟩,
      ⟨"t2", BSC_NETWORK_ID, "x2", 2, 2000, 0, 0, "b", "c", "eip155:56/slip44:714", "", "4", "native"⟩]
  ids := by decide
  positions := by decide

theorem sample_paths_exact :
    ∃ r, paths sampleTransfers "c" PathOptions.default 9 "a" = .ok r ∧ r.paths.Nodup ∧
      (∀ p ∈ r.paths, ∃ n, PathTo sampleTransfers "c" PathOptions.default 9 "a" n ∧ p = Node.result n) ∧
      (r.graph.truncated = false →
        ∀ n, PathTo sampleTransfers "c" PathOptions.default 9 "a" n → Node.result n ∈ r.paths) :=
  paths_exact sampleTransfers "a" "c" PathOptions.default 9 (by decide +kernel) (by decide)

example : (paths sampleTransfers "c" PathOptions.default 9 "a").toOption.map PathReply.paths =
    some [⟨2, ["a", "b", "c"], ["t1", "t2"]⟩] := by decide +kernel

end AmlReal.Bsc.Paths
