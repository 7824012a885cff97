import Mathlib.Data.List.Perm.Subperm
import AmlReal.Foundations.LevelSearch
import AmlReal.Bsc.Investigation

/-! # The graph around a wallet

`wallet_graph` of `investigation/graph.rs`: the transfers of the addresses within
a few hops of the wallet. The row limit holds for all queries together. -/

namespace AmlReal.Bsc.WalletGraph
open AmlReal.Foundations.Checks AmlReal.Foundations.SortedMap AmlReal.Foundations.LevelSearch
open AmlReal.Bsc.Model AmlReal.Bsc.Investigation

structure Walk where
  found : List Edge
  queue : List (String × Nat)
  visited : List String
  truncated : Bool

def Walk.start (address : String) : Walk := ⟨[], [(address, 0)], [], false⟩

section
variable (db : Transfers) (options : SearchOptions) (height : Nat)

/-- The loop over the rows of one address. -/
def takeRows (depth : Nat) : List Edge → Walk → Walk
  | [], w => w
  | e :: rest, w =>
    if options.limit ≤ w.found.length ∧ (find Edge.id e.id w.found).isNone then
      { w with truncated := true }
    else takeRows depth rest
      { w with
        queue := w.queue ++
          if depth + 1 < options.depth then [(e.fromAddress, depth + 1), (e.toAddress, depth + 1)] else []
        found := insertById e w.found }

/-- The loop over the queue, for so many rounds. -/
def walk : Nat → Walk → Option Walk
  | 0, _ => none
  | fuel + 1, w =>
    match w.queue with
    | [] => some w
    | (current, depth) :: rest =>
      if current ∈ w.visited then walk fuel { w with queue := rest }
      else
        let w := { w with queue := rest, visited := current :: w.visited }
        if current = ZERO_ADDRESS then walk fuel w
        else if 100 < w.visited.length then some { w with truncated := true }
        else
          let w := takeRows options depth (edges db current options height (options.limit + 1)) w
          if w.truncated then some w else walk fuel w

/-- An address adds at most twice the rows of its query to the queue. -/
def rounds : Nat := 102 * (2 * options.limit + 3) + 2

def walletGraph (address : String) : Except String Graph := do
  let w ← context (walk db options height (rounds options) (Walk.start address)) "unfinished"
  pure (graph w.found [address] w.truncated)

end

/-! ## What the graph is to show -/

/-- The transfer joins the two addresses, whichever way it goes. -/
def Joins (e : Edge) (a b : String) : Prop :=
  (e.fromAddress = a ∧ e.toAddress = b) ∨ (e.toAddress = a ∧ e.fromAddress = b)

/-- What so many hops from the wallet lead to without coming to the zero address. -/
inductive Reached (rows : List Edge) (wallet : String) : Nat → String → Prop
  | wallet : wallet ≠ ZERO_ADDRESS → Reached rows wallet 0 wallet
  | hop {k : Nat} {a b : String} {e : Edge} : Reached rows wallet k a → e ∈ rows → Joins e a b →
      b ≠ ZERO_ADDRESS → Reached rows wallet (k + 1) b

section
variable (db : Transfers) (options : SearchOptions) (height : Nat)

/-- The addresses that looking at an address leads to; the zero address is not looked at. -/
def neighbours (a : String) : List String :=
  if a = ZERO_ADDRESS then []
  else (incident db options height a).flatMap fun e => [e.fromAddress, e.toAddress]

variable {db options height}

theorem mem_neighbours {a b : String} : b ∈ neighbours db options height a ↔ a ≠ ZERO_ADDRESS ∧
    ∃ e ∈ known db options height, touches a e = true ∧ (b = e.fromAddress ∨ b = e.toAddress) := by
  unfold neighbours
  by_cases ha : a = ZERO_ADDRESS
  · simp [ha]
  · rw [if_neg ha, List.mem_flatMap]
    constructor
    · rintro ⟨e, he, hb⟩
      obtain ⟨hknown, ht⟩ := mem_incident.mp he
      exact ⟨ha, e, hknown, ht, by simpa using hb⟩
    · rintro ⟨_, e, hknown, ht, hb⟩
      exact ⟨e, mem_incident.mpr ⟨hknown, ht⟩, by simpa using hb⟩

theorem Joins.touches {e : Edge} {a b : String} (h : Joins e a b) : touches a e = true := by
  unfold Investigation.touches
  rcases h with ⟨h, _⟩ | ⟨h, _⟩
  · simp [h]
  · simp [h]

theorem Joins.end {e : Edge} {a b : String} (h : Joins e a b) : b = e.fromAddress ∨ b = e.toAddress := by
  rcases h with ⟨_, h⟩ | ⟨_, h⟩
  · exact Or.inr h.symm
  · exact Or.inl h.symm

theorem joins_or_eq {e : Edge} {a b : String} (h : Investigation.touches a e = true)
    (hb : b = e.fromAddress ∨ b = e.toAddress) : b = a ∨ Joins e a b := by
  have htouch : e.fromAddress = a ∨ e.toAddress = a := by simpa [Investigation.touches] using h
  rcases htouch with ha | ha <;> rcases hb with hb | hb
  · exact Or.inl (hb.trans ha)
  · exact Or.inr (Or.inl ⟨ha, hb.symm⟩)
  · exact Or.inr (Or.inr ⟨ha, hb.symm⟩)
  · exact Or.inl (hb.trans ha)

theorem Reached.nonzero {rows : List Edge} {wallet a : String} {k : Nat} (h : Reached rows wallet k a) :
    a ≠ ZERO_ADDRESS := by
  cases h with
  | wallet hw => exact hw
  | hop _ _ _ hb => exact hb

theorem Reached.reach {wallet a : String} {k : Nat} (h : Reached (known db options height) wallet k a) :
    Reach (neighbours db options height) wallet k a := by
  induction h with
  | wallet _ => exact .start
  | hop hreached he hjoin _ ih =>
    exact .step ih (mem_neighbours.mpr ⟨hreached.nonzero, _, he, hjoin.touches, hjoin.end⟩)

/-- A step of the search may lead back to the address itself; it is no hop then. -/
theorem reached_of_reach {wallet a : String} {k : Nat}
    (h : Reach (neighbours db options height) wallet k a) (ha : a ≠ ZERO_ADDRESS) :
    ∃ j, j ≤ k ∧ Reached (known db options height) wallet j a := by
  induction h with
  | start => exact ⟨0, Nat.le_refl 0, .wallet ha⟩
  | @step k a b _ hb ih =>
    obtain ⟨hne, e, he, ht, hend⟩ := mem_neighbours.mp hb
    obtain ⟨j, hj, hreached⟩ := ih hne
    rcases joins_or_eq ht hend with rfl | hjoin
    · exact ⟨j, Nat.le_succ_of_le hj, hreached⟩
    · exact ⟨j + 1, Nat.succ_le_succ hj, .hop hreached he hjoin ha⟩

end

/-! ## The rows of one address -/

section
variable {db : Transfers} {options : SearchOptions} {height : Nat}

/-- The transfers found so far, in order and within the limit. -/
structure Found (db : Transfers) (options : SearchOptions) (height : Nat) (found : List Edge) : Prop where
  sorted : Sorted Edge.id found
  known : ∀ e ∈ found, e ∈ known db options height
  few : found.length ≤ options.limit

theorem Found.mem_insertById {found : List Edge} (h : Found db options height found) {e f : Edge}
    (he : e ∈ Investigation.known db options height) : f ∈ insertById e found ↔ f = e ∨ f ∈ found := by
  rw [insertById, h.sorted.mem_insert]
  constructor
  · rintro (hf | ⟨hf, _⟩)
    · exact Or.inl hf
    · exact Or.inr hf
  · rintro (hf | hf)
    · exact Or.inl hf
    · by_cases hid : f.id = e.id
      · exact Or.inl (known_id (h.known f hf) he hid)
      · exact Or.inr ⟨hf, hid⟩

/-- Taking the rows of an address to the end: they are all among those found. -/
theorem takeRows_ok {depth : Nat} {rows : List Edge} {w : Walk} (h : Found db options height w.found)
    (hrows : ∀ e ∈ rows, e ∈ known db options height)
    (hwhole : (takeRows options depth rows w).truncated = false) :
    w.truncated = false ∧ Found db options height (takeRows options depth rows w).found ∧
      (∀ e, e ∈ (takeRows options depth rows w).found ↔ e ∈ w.found ∨ e ∈ rows) ∧
      (takeRows options depth rows w).visited = w.visited ∧
      (takeRows options depth rows w).queue = w.queue ++ if depth + 1 < options.depth then
        rows.flatMap (fun e => [(e.fromAddress, depth + 1), (e.toAddress, depth + 1)]) else [] := by
  induction rows generalizing w with
  | nil => exact ⟨hwhole, h, by simp [takeRows], rfl, by simp [takeRows]⟩
  | cons e rest ih =>
    obtain ⟨he, hrest⟩ := List.forall_mem_cons.mp hrows
    unfold takeRows at hwhole ⊢
    split at hwhole
    · cases hwhole
    · rename_i hroom
      rw [if_neg hroom]
      have hfound : Found db options height (insertById e w.found) := by
        refine ⟨h.sorted.upsert rfl fun _ _ => rfl, fun f hf => ?_, ?_⟩
        · rcases (h.mem_insertById he).mp hf with rfl | hf
          · exact he
          · exact h.known f hf
        · rw [insertById, h.sorted.length_upsert]
          have hfew := h.few
          split
          · exact hfew
          · rename_i hnew
            have hnone : (find Edge.id e.id w.found).isNone := by simpa using hnew
            have hlimit : ¬ options.limit ≤ w.found.length := fun hle => hroom ⟨hle, hnone⟩
            omega
      obtain ⟨htruncated, hall, hmem, hvisited, hqueue⟩ := ih hfound hrest hwhole
      refine ⟨htruncated, hall, fun f => ?_, hvisited, ?_⟩
      · rw [hmem f, h.mem_insertById he, List.mem_cons]
        tauto
      · rw [hqueue]
        split <;> simp

theorem edges_known {address : String} {limit : Nat} :
    ∀ e ∈ edges db address options height limit, e ∈ known db options height := fun _ he =>
  (mem_incident.mp ((List.take_sublist _ _).mem he)).1

/-- A query whose rows stay within the limit has returned all of them. -/
theorem edges_all {address : String} {found : List Edge} (hfew : found.length ≤ options.limit)
    (hmem : ∀ e ∈ edges db address options height (options.limit + 1), e ∈ found) :
    edges db address options height (options.limit + 1) = incident db options height address := by
  have hnodup : (edges db address options height (options.limit + 1)).Nodup :=
    (incident_nodup address).sublist (List.take_sublist _ _)
  have hlength := (List.Nodup.subperm hnodup hmem).length_le
  rw [edges, List.length_take] at hlength
  exact List.take_of_length_le (by omega)

/-! ## The whole search -/

/-- The search so far, when nothing has been cut off: the transfers found are those of the addresses
looked at. -/
structure Walked (db : Transfers) (options : SearchOptions) (height : Nat) (wallet : String) (w : Walk)
    (seen : List (String × Nat)) : Prop where
  whole : w.truncated = false
  visited : w.visited = seen.map Prod.fst
  found : Found db options height w.found
  rows : ∀ e, e ∈ w.found ↔ ∃ p ∈ seen, p.1 ≠ ZERO_ADDRESS ∧ e ∈ incident db options height p.1
  explored : Explored (neighbours db options height) options.depth wallet seen w.queue

namespace Walked
variable {wallet current : String} {w : Walk} {seen rest : List (String × Nat)} {depth : Nat}

theorem start (hdepth : 1 ≤ options.depth) : Walked db options height wallet (Walk.start wallet) [] where
  whole := rfl
  visited := rfl
  found := ⟨List.Pairwise.nil, by simp [Walk.start], Nat.zero_le _⟩
  rows := by simp [Walk.start]
  explored := Explored.init hdepth

theorem skip (h : Walked db options height wallet w seen) (hqueue : w.queue = (current, depth) :: rest)
    (hvisited : current ∈ w.visited) : Walked db options height wallet { w with queue := rest } seen := by
  rw [h.visited] at hvisited
  obtain ⟨⟨_, d⟩, hseen, rfl⟩ := List.mem_map.mp hvisited
  have hexplored := h.explored
  rw [hqueue] at hexplored
  exact { h with explored := hexplored.skip hseen }

/-- The zero address is passed over for good. -/
theorem zero (h : Walked db options height wallet w seen) (hqueue : w.queue = (ZERO_ADDRESS, depth) :: rest) :
    Walked db options height wallet { w with queue := rest, visited := ZERO_ADDRESS :: w.visited }
      ((ZERO_ADDRESS, depth) :: seen) := by
  have hexplored := h.explored
  rw [hqueue] at hexplored
  have hlook := hexplored.look
  have hahead : ahead (neighbours db options height) options.depth ZERO_ADDRESS depth = [] := by
    simp [ahead, neighbours]
  rw [hahead, List.append_nil] at hlook
  refine ⟨h.whole, by rw [h.visited]; rfl, h.found, fun e => ?_, hlook⟩
  rw [h.rows e]
  constructor
  · rintro ⟨p, hp, hne, he⟩
    exact ⟨p, List.mem_cons_of_mem _ hp, hne, he⟩
  · rintro ⟨p, hp, hne, he⟩
    rcases List.mem_cons.mp hp with rfl | hp
    · exact absurd rfl hne
    · exact ⟨p, hp, hne, he⟩

theorem look (h : Walked db options height wallet w seen) (hqueue : w.queue = (current, depth) :: rest)
    (hne : current ≠ ZERO_ADDRESS) {w' : Walk}
    (htake : takeRows options depth (edges db current options height (options.limit + 1))
      { w with queue := rest, visited := current :: w.visited } = w') (hwhole : w'.truncated = false) :
    Walked db options height wallet w' ((current, depth) :: seen) := by
  subst htake
  obtain ⟨_, hfound, hmem, hvisited, hnew⟩ :=
    takeRows_ok (w := { w with queue := rest, visited := current :: w.visited }) h.found edges_known hwhole
  have hall := edges_all hfound.few fun e he => (hmem e).mpr (Or.inr he)
  have hexplored := h.explored
  rw [hqueue] at hexplored
  refine ⟨hwhole, by rw [hvisited, h.visited]; rfl, hfound, fun e => ?_, ?_⟩
  · rw [hmem e, h.rows e, hall]
    constructor
    · rintro (⟨p, hp, hpne, he⟩ | he)
      · exact ⟨p, List.mem_cons_of_mem _ hp, hpne, he⟩
      · exact ⟨_, List.mem_cons_self .., hne, he⟩
    · rintro ⟨p, hp, hpne, he⟩
      rcases List.mem_cons.mp hp with rfl | hp
      · exact Or.inr he
      · exact Or.inl ⟨p, hp, hpne, he⟩
  · have hahead : ahead (neighbours db options height) options.depth current depth =
        if depth + 1 < options.depth then (incident db options height current).flatMap
          (fun e => [(e.fromAddress, depth + 1), (e.toAddress, depth + 1)]) else [] := by
      simp [ahead, neighbours, hne, List.map_flatMap]
    rw [hnew, hall, ← hahead]
    exact hexplored.look

end Walked

/-- A search that was not cut off ends with an empty queue. -/
theorem walk_walked {wallet : String} {fuel : Nat} {w w' : Walk} {seen : List (String × Nat)}
    (h : Walked db options height wallet w seen) (hwalk : walk db options height fuel w = some w')
    (hwhole : w'.truncated = false) :
    ∃ seen', Walked db options height wallet w' seen' ∧ w'.queue = [] := by
  induction fuel generalizing w seen with
  | zero => cases hwalk
  | succ fuel ih =>
    unfold walk at hwalk
    split at hwalk
    · rename_i hempty
      obtain rfl := Option.some.inj hwalk
      exact ⟨seen, h, hempty⟩
    · rename_i current depth rest hqueue
      split at hwalk
      · rename_i hvisited
        exact ih (h.skip hqueue hvisited) hwalk
      · simp only at hwalk
        split at hwalk
        · rename_i hzero
          subst hzero
          exact ih (h.zero hqueue) hwalk
        · rename_i hne
          split at hwalk
          · obtain rfl := Option.some.inj hwalk
            cases hwhole
          · split at hwalk
            · rename_i htruncated
              obtain rfl := Option.some.inj hwalk
              rw [htruncated] at hwhole
              cases hwhole
            · rename_i htruncated
              exact ih (h.look hqueue hne rfl (by simpa using htruncated)) hwalk

variable (options) in
theorem takeRows_frame (depth : Nat) (rows : List Edge) (w : Walk) :
    (takeRows options depth rows w).visited = w.visited ∧
      (takeRows options depth rows w).queue.length ≤ w.queue.length + 2 * rows.length := by
  induction rows generalizing w with
  | nil => exact ⟨rfl, Nat.le_refl _⟩
  | cons e rest ih =>
    unfold takeRows
    split
    · exact ⟨rfl, Nat.le_add_right _ _⟩
    · obtain ⟨hvisited, hlength⟩ := ih _
      refine ⟨hvisited, hlength.trans ?_⟩
      rw [List.length_append, List.length_cons]
      split
      · rw [List.length_cons, List.length_singleton]; omega
      · rw [List.length_nil]; omega

variable (db height) in
/-- Every round takes an entry from the queue; only a new address adds some. -/
theorem walk_some {fuel : Nat} {w : Walk}
    (hfuel : (102 - w.visited.length) * (2 * options.limit + 3) + w.queue.length < fuel) :
    ∃ w', walk db options height fuel w = some w' := by
  induction fuel generalizing w with
  | zero => omega
  | succ fuel ih =>
    unfold walk
    split
    · exact ⟨w, rfl⟩
    · rename_i current depth rest hqueue
      rw [hqueue, List.length_cons] at hfuel
      split
      · exact ih (by show (102 - w.visited.length) * _ + rest.length < fuel; omega)
      · simp only
        split
        · refine ih ?_
          show (102 - (w.visited.length + 1)) * _ + rest.length < fuel
          have hless : (102 - (w.visited.length + 1)) * (2 * options.limit + 3) ≤
              (102 - w.visited.length) * (2 * options.limit + 3) := Nat.mul_le_mul_right _ (by omega)
          omega
        · split
          · exact ⟨_, rfl⟩
          · rename_i hroom
            split
            · exact ⟨_, rfl⟩
            · refine ih ?_
              obtain ⟨hvisited, hlength⟩ := takeRows_frame options depth
                (edges db current options height (options.limit + 1))
                { w with queue := rest, visited := current :: w.visited }
              have hrows : (edges db current options height (options.limit + 1)).length ≤ options.limit + 1 :=
                List.length_take_le _ _
              rw [hvisited]
              show (102 - (w.visited.length + 1)) * _ + _ < fuel
              have hroom : w.visited.length + 1 ≤ 100 := Nat.not_lt.mp hroom
              have hone : 102 - w.visited.length = (102 - (w.visited.length + 1)) + 1 := by omega
              rw [hone, Nat.succ_mul] at hfuel
              simp only at hlength
              omega

theorem validate_depth {options : SearchOptions} (h : options.validate = .ok ()) : 1 ≤ options.depth := by
  obtain ⟨_, hlimits, _⟩ := bind_ok h
  exact (ensure_ok hlimits).2.1

/-- An untruncated search has found the transfers of all addresses within reach. -/
theorem Walked.mem_found {wallet : String} {w : Walk} {seen : List (String × Nat)}
    (h : Walked db options height wallet w seen) (hempty : w.queue = []) (e : Edge) :
    e ∈ w.found ↔ e ∈ known db options height ∧ ∃ k, k < options.depth ∧
      ∃ a, Reached (known db options height) wallet k a ∧ touches a e = true := by
  have hexplored := h.explored
  rw [hempty] at hexplored
  rw [h.rows e]
  constructor
  · rintro ⟨⟨a, d⟩, hseen, hne, he⟩
    obtain ⟨hreach, hbound⟩ := hexplored.sound _ (List.mem_append_left _ hseen)
    obtain ⟨j, hj, hreached⟩ := reached_of_reach hreach hne
    obtain ⟨hknown, htouch⟩ := mem_incident.mp he
    exact ⟨hknown, j, Nat.lt_of_le_of_lt hj hbound, a, hreached, htouch⟩
  · rintro ⟨hknown, k, hk, a, hreached, htouch⟩
    obtain ⟨d, _, hseen⟩ := hexplored.complete hreached.reach hk
    exact ⟨(a, d), hseen, hreached.nonzero, mem_incident.mpr ⟨hknown, htouch⟩⟩

/-- The wallet graph, for every database and all valid options: it always ends, its nodes count its
transfers, and unless it is truncated these are the transfers of all addresses within reach. -/
theorem wallet_graph_exact (db : Transfers) (address : String) (options : SearchOptions) (height : Nat)
    (hvalid : options.validate = .ok ()) :
    ∃ g, walletGraph db options height address = .ok g ∧
      (g.truncated = false → g.edges.Nodup ∧ ∀ e, e ∈ g.edges ↔ e ∈ known db options height ∧
        ∃ k, k < options.depth ∧ ∃ a, Reached (known db options height) address k a ∧ touches a e = true) ∧
      (∀ e ∈ g.edges, (∃ n ∈ g.nodes, n.address = e.fromAddress) ∧ ∃ n ∈ g.nodes, n.address = e.toAddress) ∧
      ∀ n ∈ g.nodes, n.inboundEdges = (g.edges.countP fun e => e.toAddress = n.address) ∧
        n.outboundEdges = g.edges.countP fun e => e.fromAddress = n.address := by
  have hrounds : (102 - (Walk.start address).visited.length) * (2 * options.limit + 3) +
      (Walk.start address).queue.length < rounds options := by
    show (102 - 0) * (2 * options.limit + 3) + 1 < 102 * (2 * options.limit + 3) + 2
    omega
  obtain ⟨w, hw⟩ := walk_some db height hrounds
  have hgraph : walletGraph db options height address = .ok (graph w.found [address] w.truncated) := by
    unfold walletGraph
    rw [hw]
    rfl
  obtain ⟨hends, hcounts⟩ := graph_nodes w.found [address] w.truncated
  refine ⟨_, hgraph, fun hwhole => ?_, hends, hcounts⟩
  obtain ⟨seen, hwalked, hempty⟩ := walk_walked (Walked.start (validate_depth hvalid)) hw hwhole
  exact ⟨List.Nodup.of_map _ hwalked.found.sorted.nodup, hwalked.mem_found hempty⟩

end

def sampleEdges : Transfers where
  rows :=
    [⟨"t1", BSC_NETWORK_ID, "x1", 1, 1000, 0, 0, "a", "b", "eip155:56/slip44:714", "", "5", "native"⟩,
      ⟨"t2", BSC_NETWORK_ID, "x2", 2, 2000, 0, 0, "c", "b", "eip155:56/slip44:714", "", "4", "native"⟩]
  ids := by decide
  positions := by decide

theorem sample_wallet_graph_exact :
    ∃ g, walletGraph sampleEdges { SearchOptions.default with depth := 2 } 9 "a" = .ok g ∧
      (g.truncated = false → g.edges.Nodup ∧ ∀ e, e ∈ g.edges ↔
        e ∈ known sampleEdges { SearchOptions.default with depth := 2 } 9 ∧ ∃ k, k < 2 ∧ ∃ a,
          Reached (known sampleEdges { SearchOptions.default with depth := 2 } 9) "a" k a ∧ touches a e = true) ∧
      (∀ e ∈ g.edges, (∃ n ∈ g.nodes, n.address = e.fromAddress) ∧ ∃ n ∈ g.nodes, n.address = e.toAddress) ∧
      ∀ n ∈ g.nodes, n.inboundEdges = (g.edges.countP fun e => e.toAddress = n.address) ∧
        n.outboundEdges = g.edges.countP fun e => e.fromAddress = n.address :=
  wallet_graph_exact sampleEdges "a" { SearchOptions.default with depth := 2 } 9 (by decide +kernel)

example : (walletGraph sampleEdges { SearchOptions.default with depth := 2 } 9 "a").toOption.map
    (fun g => (g.nodes, g.truncated)) =
    some ([⟨"a", true, 0, 1⟩, ⟨"b", false, 2, 0⟩, ⟨"c", false, 0, 1⟩], false) := by decide +kernel

end AmlReal.Bsc.WalletGraph
