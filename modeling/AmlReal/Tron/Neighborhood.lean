import AmlReal.Tron.FlowGraph

/-! # The neighbourhood of a wallet

Level after level, the rows of the addresses that were found last. The query of a
level asks for as many rows as there is room for, but rows of the level before
come again and take that room. -/

namespace AmlReal.Tron.Neighborhood
open AmlReal.Foundations AmlReal.Foundations.LimitBy AmlReal.Tron.FlowGraph

/-- The relationship joins the two addresses, whichever way it goes. -/
def Joins (edge : FlowEdge) (a b : String) : Prop :=
  (edge.fromAddress = a ∧ edge.toAddress = b) ∨ (edge.toAddress = a ∧ edge.fromAddress = b)

/-- The addresses within so many undirected hops of a wallet. -/
inductive Within (db : Relationships) (wallet : String) : Nat → String → Prop
  | wallet {n : Nat} : Within db wallet n wallet
  | hop {n : Nat} {a b : String} {edge : FlowEdge} : Within db wallet n a → edge ∈ db.rows →
      Joins edge a b → Within db wallet (n + 1) b

/-- The relationship has an end within so many hops. -/
def Incident (db : Relationships) (wallet : String) (n : Nat) (edge : FlowEdge) : Prop :=
  edge ∈ db.rows ∧ ∃ a, Within db wallet n a ∧ (edge.fromAddress = a ∨ edge.toAddress = a)

/-- What an analyst is to be shown: each relationship once, no more than asked for, none that is
further away, and when there was room for more, all of them. -/
structure NeighborhoodOf (db : Relationships) (wallet : String) (depth edgeLimit : Nat)
    (edges : List FlowEdge) : Prop where
  distinct : (edges.map FlowEdge.id).Nodup
  bounded : edges.length ≤ edgeLimit
  incident : ∀ edge ∈ edges, Incident db wallet (depth - 1) edge
  complete : edges.length < edgeLimit → ∀ edge, Incident db wallet (depth - 1) edge → edge ∈ edges

theorem Within.mono {db : Relationships} {wallet a : String} {m n : Nat} (h : Within db wallet m a)
    (hle : m ≤ n) : Within db wallet n a := by
  induction h generalizing n with
  | wallet => exact .wallet
  | hop _ hedge hjoin ih =>
    obtain ⟨n, rfl⟩ : ∃ k, n = k + 1 := ⟨n - 1, by omega⟩
    exact .hop (ih (by omega)) hedge hjoin

theorem Joins.touches {edge : FlowEdge} {a b : String} (h : Joins edge a b) :
    edge.fromAddress = a ∨ edge.toAddress = a := by
  rcases h with ⟨h, _⟩ | ⟨h, _⟩
  · exact Or.inl h
  · exact Or.inr h

theorem Within.ends {db : Relationships} {wallet a b : String} {n : Nat} {edge : FlowEdge}
    (h : Within db wallet n a) (hedge : edge ∈ db.rows)
    (ha : edge.fromAddress = a ∨ edge.toAddress = a)
    (hb : b = edge.fromAddress ∨ b = edge.toAddress) : Within db wallet (n + 1) b := by
  rcases ha with ha | ha <;> rcases hb with hb | hb
  · exact (hb.trans ha) ▸ h.mono (Nat.le_succ n)
  · exact .hop h hedge (Or.inl ⟨ha, hb.symm⟩)
  · exact .hop h hedge (Or.inr ⟨ha, hb.symm⟩)
  · exact (hb.trans ha) ▸ h.mono (Nat.le_succ n)

theorem mem_touches {addresses : List String} {edge : FlowEdge} :
    touches addresses edge = true ↔ ∃ a ∈ addresses, edge.fromAddress = a ∨ edge.toAddress = a := by
  simp only [touches, decide_eq_true_eq]
  constructor
  · rintro (h | h)
    · exact ⟨_, h, Or.inl rfl⟩
    · exact ⟨_, h, Or.inr rfl⟩
  · rintro ⟨a, ha, rfl | rfl⟩
    · exact Or.inl ha
    · exact Or.inr ha

/-! ## Levels of the graph -/

section
variable (db : Relationships) (wallet : String)

/-- The addresses within so many hops, as a list. -/
def ball : Nat → List String
  | 0 => [wallet]
  | n + 1 => ball n ++
    (db.rows.filter (touches (ball n))).flatMap fun edge => [edge.fromAddress, edge.toAddress]

/-- The addresses at just this distance. -/
def sphere : Nat → List String
  | 0 => [wallet]
  | n + 1 => (ball db wallet (n + 1)).filter fun a => a ∉ ball db wallet n

/-- The relationships that the levels before one lead to. -/
def earlier : Nat → List FlowEdge
  | 0 => []
  | n + 1 => db.rows.filter (touches (ball db wallet n))

/-- The rows of a level's query before it is cut. -/
def levelRows (arrange : Nat → Arrangement FlowEdge) (n : Nat) : List FlowEdge :=
  byBlock ((arrange n).order (db.rows.filter (touches (sphere db wallet n))))

/-- The query of a level returns a row of the levels before and drops one that is new. -/
def Wasteful (arrange : Nat → Arrangement FlowEdge) (edgeLimit n : Nat) : Prop :=
  let room := edgeLimit - (earlier db wallet n).length
  (∃ edge ∈ (levelRows db wallet arrange n).take room, edge ∈ earlier db wallet n) ∧
    ∃ edge ∈ (levelRows db wallet arrange n).drop room, edge ∉ earlier db wallet n

variable {db wallet}

theorem mem_ball {n : Nat} {a : String} : a ∈ ball db wallet n ↔ Within db wallet n a := by
  induction n generalizing a with
  | zero =>
    rw [ball, List.mem_singleton]
    constructor
    · rintro rfl
      exact .wallet
    · intro h
      cases h
      rfl
  | succ n ih =>
    simp only [ball, List.mem_append, List.mem_flatMap, List.mem_filter, mem_touches]
    constructor
    · rintro (h | ⟨edge, ⟨hedge, b, hb, htouch⟩, hend⟩)
      · exact (ih.mp h).mono (Nat.le_succ n)
      · exact (ih.mp hb).ends hedge htouch (by simpa using hend)
    · intro h
      cases h with
      | wallet => exact Or.inl (ih.mpr .wallet)
      | hop hwithin hedge hjoin =>
        refine Or.inr ⟨_, ⟨hedge, _, ih.mpr hwithin, hjoin.touches⟩, ?_⟩
        rcases hjoin with ⟨_, rfl⟩ | ⟨_, rfl⟩ <;> simp

theorem mem_sphere_succ {n : Nat} {a : String} : a ∈ sphere db wallet (n + 1) ↔
    a ∈ ball db wallet (n + 1) ∧ a ∉ ball db wallet n := by
  simp [sphere]

theorem sphere_subset_ball (n : Nat) : sphere db wallet n ⊆ ball db wallet n := by
  cases n with
  | zero => exact List.Subset.refl _
  | succ n => exact fun _ h => (mem_sphere_succ.mp h).1

theorem mem_earlier_succ {n : Nat} {edge : FlowEdge} :
    edge ∈ earlier db wallet (n + 1) ↔ Incident db wallet n edge := by
  simp only [earlier, List.mem_filter, mem_touches, mem_ball, Incident]

theorem earlier_mono {m n : Nat} (h : m ≤ n) {edge : FlowEdge} (hedge : edge ∈ earlier db wallet m) :
    edge ∈ earlier db wallet n := by
  cases m with
  | zero => exact absurd hedge List.not_mem_nil
  | succ m =>
    obtain ⟨n, rfl⟩ : ∃ k, n = k + 1 := ⟨n - 1, by omega⟩
    obtain ⟨hrow, a, ha, htouch⟩ := mem_earlier_succ.mp hedge
    exact mem_earlier_succ.mpr ⟨hrow, a, ha.mono (by omega), htouch⟩

/-- Beyond the levels before, a level adds the rows of its own addresses. -/
theorem mem_earlier_step {n : Nat} {edge : FlowEdge} : edge ∈ earlier db wallet (n + 1) ↔
    edge ∈ earlier db wallet n ∨ (edge ∈ db.rows ∧ touches (sphere db wallet n) edge = true) := by
  constructor
  · intro h
    obtain ⟨hrow, a, ha, htouch⟩ := mem_earlier_succ.mp h
    cases n with
    | zero => exact Or.inr ⟨hrow, mem_touches.mpr ⟨a, mem_ball.mpr ha, htouch⟩⟩
    | succ n =>
      by_cases hball : a ∈ ball db wallet n
      · exact Or.inl (mem_earlier_succ.mpr ⟨hrow, a, mem_ball.mp hball, htouch⟩)
      · exact Or.inr ⟨hrow, mem_touches.mpr ⟨a, mem_sphere_succ.mpr ⟨mem_ball.mpr ha, hball⟩, htouch⟩⟩
  · rintro (h | ⟨hrow, htouch⟩)
    · exact earlier_mono (Nat.le_succ n) h
    · obtain ⟨a, ha, htouch⟩ := mem_touches.mp htouch
      exact mem_earlier_succ.mpr ⟨hrow, a, mem_ball.mp (sphere_subset_ball n ha), htouch⟩

theorem mem_levelRows {arrange : Nat → Arrangement FlowEdge} {n : Nat} {edge : FlowEdge} :
    edge ∈ levelRows db wallet arrange n ↔
      edge ∈ db.rows ∧ touches (sphere db wallet n) edge = true := by
  have hperm := (byBlock_perm ((arrange n).order (db.rows.filter (touches (sphere db wallet n))))).trans
    ((arrange n).perm _)
  rw [levelRows, hperm.mem_iff, List.mem_filter]

/-- When one distance has no address, larger ones have none. -/
theorem sphere_nil_succ {n : Nat} (h : sphere db wallet n = []) : sphere db wallet (n + 1) = [] := by
  cases n with
  | zero => cases h
  | succ n =>
    have hball : ∀ a, a ∈ ball db wallet (n + 1) → a ∈ ball db wallet n := by
      intro a ha
      by_contra hn
      have hmem := mem_sphere_succ.mpr ⟨ha, hn⟩
      rw [h] at hmem
      exact List.not_mem_nil hmem
    refine List.eq_nil_iff_forall_not_mem.mpr fun b hb => ?_
    obtain ⟨hin, hout⟩ := mem_sphere_succ.mp hb
    cases mem_ball.mp hin with
    | wallet => exact hout (mem_ball.mpr .wallet)
    | hop hwithin hedge hjoin =>
      have hback := mem_ball.mp (hball _ (mem_ball.mpr hwithin))
      exact hout (mem_ball.mpr (.hop hback hedge hjoin))

theorem earlier_nil_step {n : Nat} (h : sphere db wallet n = []) {edge : FlowEdge}
    (hedge : edge ∈ earlier db wallet (n + 1)) : edge ∈ earlier db wallet n := by
  rcases mem_earlier_step.mp hedge with hedge | ⟨_, htouch⟩
  · exact hedge
  · rw [h] at htouch
    simp [touches] at htouch

end

/-! ## One level of the search -/

theorem mem_discover {visited : List String} {edge : FlowEdge} {nextFrontier : List String} {a : String} :
    a ∈ discover visited edge nextFrontier ↔ a ∈ nextFrontier ∨
      ((a = edge.fromAddress ∨ a = edge.toAddress) ∧ a ∉ visited) := by
  unfold discover
  split_ifs <;> simp only [List.mem_append, List.mem_singleton] <;> grind

/-- The rows that were not collected before. -/
def fresh (edges rows : List FlowEdge) : List FlowEdge :=
  rows.filter fun edge => edge.id ∉ edges.map FlowEdge.id

/-- The frontier after a level whose rows are all looked at. -/
def ahead (visited : List String) (rows : List FlowEdge) (nextFrontier : List String) : List String :=
  rows.foldl (fun next edge => discover visited edge next) nextFrontier

theorem mem_ahead {visited : List String} {rows : List FlowEdge} {nextFrontier : List String}
    {a : String} : a ∈ ahead visited rows nextFrontier ↔ a ∈ nextFrontier ∨
      ((∃ edge ∈ rows, a = edge.fromAddress ∨ a = edge.toAddress) ∧ a ∉ visited) := by
  induction rows generalizing nextFrontier with
  | nil => simp [ahead]
  | cons edge rest ih =>
    show a ∈ ahead visited rest (discover visited edge nextFrontier) ↔ _
    rw [ih, mem_discover]
    simp only [List.mem_cons, exists_eq_or_imp]
    rw [or_assoc, ← or_and_right]

/-- When the rows are no more than there is room for, all the new ones are collected. -/
theorem collect_eq {edgeLimit : Nat} {last : Bool} {visited : List String} {rows : List FlowEdge}
    (hids : (rows.map FlowEdge.id).Nodup) {c : Collecting}
    (hroom : c.edges.length + rows.length ≤ edgeLimit) :
    collect edgeLimit last visited rows c = ⟨c.edges ++ fresh c.edges rows,
      if last then c.nextFrontier else ahead visited (fresh c.edges rows) c.nextFrontier⟩ := by
  induction rows generalizing c with
  | nil => cases last <;> simp [collect, fresh, ahead]
  | cons edge rest ih =>
    rw [List.map_cons, List.nodup_cons] at hids
    obtain ⟨hnew, hids⟩ := hids
    rw [List.length_cons] at hroom
    by_cases hseen : edge.id ∈ c.edges.map FlowEdge.id
    · have hfresh : fresh c.edges (edge :: rest) = fresh c.edges rest := by
        rw [fresh, List.filter_cons_of_neg (by simpa using hseen)]
        rfl
      rw [collect, if_pos hseen, hfresh]
      exact ih hids (by omega)
    · have hfresh : fresh c.edges (edge :: rest) = edge :: fresh c.edges rest := by
        rw [fresh, List.filter_cons_of_pos (by simpa using hseen)]
        rfl
      -- the ids of the other rows are not this one's
      have hrest : fresh (c.edges ++ [edge]) rest = fresh c.edges rest := by
        refine List.filter_congr fun e he => ?_
        have hne : e.id ≠ edge.id := fun heq => hnew (heq ▸ List.mem_map_of_mem he)
        simp [hne]
      rw [collect, if_neg hseen, hfresh]
      simp only [List.length_append, List.length_singleton]
      by_cases hfull : edgeLimit ≤ c.edges.length + 1
      · obtain rfl : rest = [] := List.length_eq_zero_iff.mp (by omega)
        rw [if_pos hfull]
        cases last <;> rfl
      · rw [if_neg hfull, ih hids (by simp only [List.length_append, List.length_singleton]; omega)]
        show Collecting.mk (c.edges ++ [edge] ++ fresh (c.edges ++ [edge]) rest) _ = _
        rw [hrest, List.append_assoc]
        cases last <;> rfl

theorem retain_foldl (frontier kept visited : List String) (a : String) :
    let r := frontier.foldl (fun (kept, visited) address =>
      if address ∈ visited then (kept, visited) else (kept ++ [address], visited ++ [address]))
      ((kept, visited) : List String × List String)
    (a ∈ r.1 ↔ a ∈ kept ∨ (a ∈ frontier ∧ a ∉ visited)) ∧ (a ∈ r.2 ↔ a ∈ visited ∨ a ∈ frontier) := by
  induction frontier generalizing kept visited with
  | nil => simp
  | cons address rest ih =>
    by_cases hseen : address ∈ visited
    · simp only [List.foldl_cons, if_pos hseen]
      refine ⟨(ih kept visited).1.trans ?_, (ih kept visited).2.trans ?_⟩
      · grind
      · grind
    · simp only [List.foldl_cons, if_neg hseen]
      refine ⟨(ih _ _).1.trans ?_, (ih _ _).2.trans ?_⟩
      · grind
      · grind

theorem mem_retain (frontier visited : List String) (a : String) :
    (a ∈ (retain frontier visited).1 ↔ a ∈ frontier ∧ a ∉ visited) ∧
      (a ∈ (retain frontier visited).2 ↔ a ∈ visited ∨ a ∈ frontier) := by
  have h := retain_foldl frontier [] visited a
  simpa [retain] using h

theorem fresh_sublist (edges rows : List FlowEdge) : (fresh edges rows).Sublist rows :=
  List.filter_sublist

theorem mem_fresh (db : Relationships) {edges rows : List FlowEdge} (hedges : ∀ e ∈ edges, e ∈ db.rows)
    (hrows : ∀ e ∈ rows, e ∈ db.rows) {edge : FlowEdge} :
    edge ∈ fresh edges rows ↔ edge ∈ rows ∧ edge ∉ edges := by
  rw [fresh, List.mem_filter]
  refine and_congr_right fun hedge => ?_
  simp only [decide_eq_true_eq]
  refine not_congr ⟨fun hid => ?_, List.mem_map_of_mem⟩
  obtain ⟨other, hother, heq⟩ := List.mem_map.mp hid
  have hsame := List.inj_on_of_nodup_map db.ids (hedges _ hother) (hrows _ hedge) heq
  exact hsame ▸ hother

/-! ## Runs -/

section
variable {db : Relationships} {wallet : String} {arrange : Nat → Arrangement FlowEdge}
  {depth edgeLimit : Nat}

/-- The rows of a query are rows of the view that the addresses take part in. -/
theorem mem_load {query limit : Nat} {addresses : List String} {edge : FlowEdge}
    (h : edge ∈ loadRelationshipsForAddresses db arrange query addresses limit) :
    edge ∈ db.rows ∧ touches addresses edge = true := by
  unfold loadRelationshipsForAddresses at h
  split_ifs at h with hnone
  · cases h
  · have hperm := (byBlock_perm ((arrange query).order (db.rows.filter (touches addresses)))).trans
      ((arrange query).perm _)
    exact List.mem_filter.mp (hperm.mem_iff.mp (List.mem_of_mem_take h))

theorem load_ids (query limit : Nat) (addresses : List String) :
    ((loadRelationshipsForAddresses db arrange query addresses limit).map FlowEdge.id).Nodup := by
  unfold loadRelationshipsForAddresses
  split_ifs
  · exact List.nodup_nil
  · have hperm := (byBlock_perm ((arrange query).order (db.rows.filter (touches addresses)))).trans
      ((arrange query).perm _)
    have hwhole : ((db.rows.filter (touches addresses)).map FlowEdge.id).Nodup :=
      db.ids.sublist ((List.filter_sublist).map _)
    exact ((hperm.map FlowEdge.id).nodup_iff.mpr hwhole).sublist ((List.take_sublist _ _).map _)

variable (db arrange) in
theorem load_length (query limit : Nat) (addresses : List String) :
    (loadRelationshipsForAddresses db arrange query addresses limit).length ≤ limit := by
  unfold loadRelationshipsForAddresses
  split_ifs
  · exact Nat.zero_le _
  · rw [List.length_take]
    exact Nat.min_le_left _ _

/-- What holds of a search before its level, whatever was lost. -/
structure Sound (db : Relationships) (wallet : String) (depth edgeLimit n : Nat) (s : Exploring) :
    Prop where
  distinct : (s.edges.map FlowEdge.id).Nodup
  bounded : s.edges.length ≤ edgeLimit
  incident : ∀ edge ∈ s.edges, Incident db wallet (depth - 1) edge
  near : ∀ a ∈ s.frontier, Within db wallet n a

/-- The state after a level. -/
def nextLevel (db : Relationships) (arrange : Nat → Arrangement FlowEdge) (edgeLimit : Nat) (last : Bool)
    (n : Nat) (s : Exploring) : Exploring :=
  let (frontier, visited) := retain s.frontier s.visited
  let rows := loadRelationshipsForAddresses db arrange n frontier (edgeLimit - s.edges.length)
  let new := fresh s.edges rows
  ⟨if last then [] else ahead visited new [], visited, s.edges ++ new⟩

theorem explore_succ (levels n : Nat) (s : Exploring) :
    explore db arrange edgeLimit (levels + 1) n s =
      if (retain s.frontier s.visited).1 = [] ∨ edgeLimit ≤ s.edges.length then s.edges
      else explore db arrange edgeLimit levels (n + 1)
        (nextLevel db arrange edgeLimit (levels = 0) n s) := by
  rw [explore]
  rcases hretain : retain s.frontier s.visited with ⟨frontier, visited⟩
  simp only
  split_ifs with hstop
  · rfl
  · have hlength := load_length db arrange n (edgeLimit - s.edges.length) frontier
    rw [collect_eq (load_ids n _ frontier) (by
      show s.edges.length + _ ≤ edgeLimit
      omega)]
    simp only [nextLevel, hretain]

theorem Sound.next {n : Nat} {s : Exploring} (h : Sound db wallet depth edgeLimit n s) (hn : n < depth)
    (last : Bool) : Sound db wallet depth edgeLimit (n + 1) (nextLevel db arrange edgeLimit last n s) := by
  have hbounded := h.bounded
  have hfrontier : ∀ a ∈ (retain s.frontier s.visited).1, Within db wallet n a := fun a ha =>
    h.near a ((mem_retain _ _ a).1.mp ha).1
  unfold nextLevel
  generalize retain s.frontier s.visited = kept at hfrontier ⊢
  obtain ⟨frontier, visited⟩ := kept
  simp only at hfrontier ⊢
  generalize hrows : loadRelationshipsForAddresses db arrange n frontier (edgeLimit - s.edges.length) = rows
  have hincident : ∀ edge ∈ rows, Incident db wallet n edge := by
    intro edge hedge
    obtain ⟨hrow, htouch⟩ := mem_load (hrows ▸ hedge)
    obtain ⟨a, ha, hend⟩ := mem_touches.mp htouch
    exact ⟨hrow, a, hfrontier a ha, hend⟩
  have hids : (rows.map FlowEdge.id).Nodup := hrows ▸ load_ids n _ frontier
  have hlength : rows.length ≤ edgeLimit - s.edges.length := hrows ▸ load_length db arrange n _ frontier
  have hfresh := (fresh_sublist s.edges rows).length_le
  refine ⟨?_, ?_, fun edge hedge => ?_, fun a ha => ?_⟩
  · rw [List.map_append, List.nodup_append']
    refine ⟨h.distinct, hids.sublist ((fresh_sublist _ _).map _), fun id hold hnew => ?_⟩
    obtain ⟨edge, hedge, rfl⟩ := List.mem_map.mp hnew
    have hout := (List.mem_filter.mp hedge).2
    exact (of_decide_eq_true hout) hold
  · rw [List.length_append]
    omega
  · rcases List.mem_append.mp hedge with hedge | hedge
    · exact h.incident edge hedge
    · obtain ⟨hrow, a, ha, hend⟩ := hincident edge ((fresh_sublist _ _).subset hedge)
      exact ⟨hrow, a, ha.mono (by omega), hend⟩
  · cases last with
    | true => cases ha
    | false =>
      rcases mem_ahead.mp ha with ha | ⟨⟨edge, hedge, hend⟩, _⟩
      · cases ha
      · obtain ⟨hrow, b, hb, htouch⟩ := hincident edge ((fresh_sublist _ _).subset hedge)
        exact hb.ends hrow htouch hend

variable (arrange) in
/-- Whatever is lost, what comes back is sound. -/
theorem Sound.explore {levels n : Nat} {s : Exploring} (h : Sound db wallet depth edgeLimit n s)
    (hdepth : n + levels = depth) :
    let edges := explore db arrange edgeLimit levels n s
    (edges.map FlowEdge.id).Nodup ∧ edges.length ≤ edgeLimit ∧
      ∀ edge ∈ edges, Incident db wallet (depth - 1) edge := by
  induction levels generalizing n s with
  | zero => exact ⟨h.distinct, h.bounded, h.incident⟩
  | succ levels ih =>
    rw [explore_succ levels n s]
    split_ifs
    · exact ⟨h.distinct, h.bounded, h.incident⟩
    · exact ih (h.next (by omega) _) (by omega)

/-! ## Runs that lose nothing -/

/-- What holds before a level when nothing was lost so far. -/
structure Intact (db : Relationships) (wallet : String) (n : Nat) (s : Exploring) : Prop where
  edges : s.edges.Perm (earlier db wallet n)
  frontier : ∀ a, a ∈ (retain s.frontier s.visited).1 ↔ a ∈ sphere db wallet n
  visited : ∀ a, a ∈ (retain s.frontier s.visited).2 ↔ a ∈ ball db wallet n

theorem Intact.start : Intact db wallet 0 ⟨[wallet], [], []⟩ where
  edges := List.Perm.refl _
  frontier a := by simp [(mem_retain _ _ a).1, sphere]
  visited a := by simp [(mem_retain _ _ a).2, ball]

theorem earlier_nodup (n : Nat) : (earlier db wallet n).Nodup := by
  cases n with
  | zero => exact List.nodup_nil
  | succ n => exact (List.Nodup.of_map _ db.ids).filter _

theorem earlier_rows {n : Nat} {edge : FlowEdge} (h : edge ∈ earlier db wallet n) : edge ∈ db.rows := by
  cases n with
  | zero => cases h
  | succ n => exact (List.mem_filter.mp h).1

variable (db wallet arrange) in
theorem levelRows_nodup (n : Nat) : (levelRows db wallet arrange n).Nodup := by
  have hperm := (byBlock_perm ((arrange n).order (db.rows.filter (touches (sphere db wallet n))))).trans
    ((arrange n).perm _)
  exact hperm.nodup_iff.mpr ((List.Nodup.of_map _ db.ids).filter _)

theorem touches_congr {addresses others : List String} (h : ∀ a, a ∈ addresses ↔ a ∈ others) :
    touches addresses = touches others := by
  funext edge
  simp only [touches, h]

variable (arrange) in
/-- A level that is not stopped collects the new ones of the first rows there is room for. -/
theorem Intact.nextLevel_edges {n : Nat} {s : Exploring} (h : Intact db wallet n s)
    (hgo : ¬ ((retain s.frontier s.visited).1 = [] ∨ edgeLimit ≤ s.edges.length)) (last : Bool) :
    (nextLevel db arrange edgeLimit last n s).edges = s.edges ++ fresh s.edges
      ((levelRows db wallet arrange n).take (edgeLimit - (earlier db wallet n).length)) := by
  unfold nextLevel
  have hfrontier := h.frontier
  generalize retain s.frontier s.visited = kept at hgo hfrontier ⊢
  obtain ⟨frontier, visited⟩ := kept
  simp only at hgo hfrontier ⊢
  have hlength := h.edges.length_eq
  have hasked : ¬ (frontier = [] ∨ edgeLimit - s.edges.length = 0) := fun hstop =>
    hgo (hstop.imp_right fun hzero => by omega)
  rw [loadRelationshipsForAddresses, if_neg hasked, touches_congr hfrontier, hlength]
  rfl

variable (arrange) in
theorem Intact.mem_new {n : Nat} {s : Exploring} (h : Intact db wallet n s) (room : Nat)
    {edge : FlowEdge} :
    edge ∈ fresh s.edges ((levelRows db wallet arrange n).take room) ↔
      edge ∈ (levelRows db wallet arrange n).take room ∧ edge ∉ earlier db wallet n := by
  rw [mem_fresh db (fun e he => earlier_rows (h.edges.mem_iff.mp he))
    (fun e he => (mem_levelRows.mp (List.mem_of_mem_take he)).1), h.edges.mem_iff]

variable (arrange) in
/-- What a level collects is at most what its distance leads to. -/
theorem Intact.next_subperm {n : Nat} {s : Exploring} (h : Intact db wallet n s) (room : Nat) :
    (s.edges ++ fresh s.edges ((levelRows db wallet arrange n).take room)).Subperm
      (earlier db wallet (n + 1)) := by
  refine List.subperm_of_subset ?_ fun edge hedge => ?_
  · refine List.nodup_append'.mpr ⟨h.edges.nodup_iff.mpr (earlier_nodup n), ?_, fun edge hold hedge => ?_⟩
    · exact (levelRows_nodup db wallet arrange n).sublist ((fresh_sublist _ _).trans (List.take_sublist _ _))
    · exact ((h.mem_new arrange room).mp hedge).2 (h.edges.mem_iff.mp hold)
  · rcases List.mem_append.mp hedge with hedge | hedge
    · exact earlier_mono (Nat.le_succ n) (h.edges.mem_iff.mp hedge)
    · exact mem_earlier_step.mpr (Or.inr (mem_levelRows.mp
        (List.mem_of_mem_take ((h.mem_new arrange room).mp hedge).1)))

/-- When every row that the cut drops is known already, the level leaves nothing out. -/
theorem Intact.whole {n : Nat} {s : Exploring} (h : Intact db wallet n s) {room : Nat}
    (hdrop : ∀ edge ∈ (levelRows db wallet arrange n).drop room, edge ∈ earlier db wallet n) :
    (s.edges ++ fresh s.edges ((levelRows db wallet arrange n).take room)).Perm
      (earlier db wallet (n + 1)) := by
  have hsub := h.next_subperm arrange room
  refine hsub.antisymm ?_
  refine List.subperm_of_subset (earlier_nodup _) fun edge hedge => ?_
  by_cases hold : edge ∈ earlier db wallet n
  · exact List.mem_append_left _ (h.edges.mem_iff.mpr hold)
  · have hrow : edge ∈ levelRows db wallet arrange n :=
      mem_levelRows.mpr ((mem_earlier_step.mp hedge).resolve_left hold)
    rw [← List.take_append_drop room (levelRows db wallet arrange n), List.mem_append] at hrow
    have htake := hrow.resolve_right fun hd => hold (hdrop edge hd)
    exact List.mem_append_right _ ((h.mem_new arrange room).mpr ⟨htake, hold⟩)

/-- The ends of a relationship that an earlier level led to are no news. -/
theorem earlier_ends {n : Nat} {edge : FlowEdge} (h : edge ∈ earlier db wallet n) {a : String}
    (ha : a = edge.fromAddress ∨ a = edge.toAddress) : a ∈ ball db wallet n := by
  cases n with
  | zero => cases h
  | succ n =>
    obtain ⟨hrow, b, hb, htouch⟩ := mem_earlier_succ.mp h
    exact mem_ball.mpr (hb.ends hrow htouch ha)

/-- The next frontier is the next distance. -/
theorem mem_ahead_sphere {n : Nat} {edges new : List FlowEdge} {visited : List String}
    (hedges : ∀ edge ∈ edges, edge ∈ earlier db wallet n)
    (hwhole : (edges ++ new).Perm (earlier db wallet (n + 1)))
    (hvisited : ∀ a, a ∈ visited ↔ a ∈ ball db wallet n) (a : String) :
    a ∈ ahead visited new [] ↔ a ∈ sphere db wallet (n + 1) := by
  rw [mem_ahead, mem_sphere_succ, hvisited]
  constructor
  · rintro (hnone | ⟨⟨edge, hedge, hend⟩, hout⟩)
    · cases hnone
    · exact ⟨earlier_ends (hwhole.mem_iff.mp (List.mem_append_right _ hedge)) hend, hout⟩
  · rintro ⟨hin, hout⟩
    refine Or.inr ⟨?_, hout⟩
    cases mem_ball.mp hin with
    | wallet => exact absurd (mem_ball.mpr .wallet) hout
    | @hop _ b _ edge hwithin hedge hjoin =>
      have hend : a = edge.fromAddress ∨ a = edge.toAddress := by
        rcases hjoin with ⟨_, h⟩ | ⟨_, h⟩
        · exact Or.inr h.symm
        · exact Or.inl h.symm
      have hmem : edge ∈ edges ++ new :=
        hwhole.mem_iff.mpr (mem_earlier_succ.mpr ⟨hedge, b, hwithin, hjoin.touches⟩)
      rcases List.mem_append.mp hmem with hold | hnew
      · exact absurd (earlier_ends (hedges edge hold) hend) hout
      · exact ⟨edge, hnew, hend⟩

/-- A level that is not wasteful fills the limit or leaves nothing out. -/
theorem Intact.next {n : Nat} {s : Exploring} (h : Intact db wallet n s)
    (hgo : ¬ ((retain s.frontier s.visited).1 = [] ∨ edgeLimit ≤ s.edges.length))
    (hclean : ¬ Wasteful db wallet arrange edgeLimit n) (last : Bool) :
    edgeLimit ≤ (nextLevel db arrange edgeLimit last n s).edges.length ∨
      ((nextLevel db arrange edgeLimit last n s).edges.Perm (earlier db wallet (n + 1)) ∧
        (last = false → Intact db wallet (n + 1) (nextLevel db arrange edgeLimit last n s))) := by
  have hedges := h.nextLevel_edges arrange hgo last
  have hlength := h.edges.length_eq
  rw [not_or, Nat.not_le] at hgo
  have hwhole : (∀ edge ∈ (levelRows db wallet arrange n).drop
      (edgeLimit - (earlier db wallet n).length), edge ∈ earlier db wallet n) →
      (nextLevel db arrange edgeLimit last n s).edges.Perm (earlier db wallet (n + 1)) ∧
        (last = false → Intact db wallet (n + 1) (nextLevel db arrange edgeLimit last n s)) := by
    intro hdrop
    have hperm := h.whole hdrop
    rw [← hedges] at hperm
    refine ⟨hperm, fun hlast => ?_⟩
    subst hlast
    have hahead := mem_ahead_sphere (fun e he => h.edges.mem_iff.mp he) (h.whole hdrop) h.visited
    have hnext : nextLevel db arrange edgeLimit false n s = ⟨ahead (retain s.frontier s.visited).2
        (fresh s.edges ((levelRows db wallet arrange n).take
          (edgeLimit - (earlier db wallet n).length))) [], (retain s.frontier s.visited).2,
        (nextLevel db arrange edgeLimit false n s).edges⟩ := by
      have hnew := List.append_cancel_left hedges
      rw [← hnew]
      rfl
    rw [hnext]
    refine ⟨hperm, fun a => ?_, fun a => ?_⟩
    · rw [(mem_retain _ _ a).1]
      show a ∈ ahead _ _ _ ∧ a ∉ (retain s.frontier s.visited).2 ↔ _
      rw [hahead, h.visited, mem_sphere_succ]
      tauto
    · rw [(mem_retain _ _ a).2]
      show a ∈ (retain s.frontier s.visited).2 ∨ a ∈ ahead _ _ _ ↔ _
      rw [hahead, h.visited, mem_sphere_succ, ball, List.mem_append]
      tauto
  by_cases hshort : (levelRows db wallet arrange n).length ≤ edgeLimit - (earlier db wallet n).length
  · refine Or.inr (hwhole fun edge hedge => ?_)
    rw [List.drop_eq_nil_of_le hshort] at hedge
    cases hedge
  · by_cases hnews : ∃ edge ∈ (levelRows db wallet arrange n).take
        (edgeLimit - (earlier db wallet n).length), edge ∈ earlier db wallet n
    · refine Or.inr (hwhole fun edge hedge => ?_)
      by_contra hout
      exact hclean ⟨hnews, edge, hedge, hout⟩
    · -- every row of the cut is new
      refine Or.inl ?_
      have hall : fresh s.edges ((levelRows db wallet arrange n).take
          (edgeLimit - (earlier db wallet n).length)) = (levelRows db wallet arrange n).take
          (edgeLimit - (earlier db wallet n).length) := by
        refine List.filter_eq_self.mpr fun edge hedge => ?_
        have hmem := (h.mem_new arrange _).mpr ⟨hedge, fun hold => hnews ⟨edge, hedge, hold⟩⟩
        exact (List.mem_filter.mp hmem).2
      rw [hedges, hall, List.length_append, List.length_take]
      omega

/-- A wasteful level ends below the limit without a relationship of its distance. -/
theorem Intact.lost {n : Nat} {s : Exploring} (h : Intact db wallet n s)
    (hwaste : Wasteful db wallet arrange edgeLimit n) (last : Bool) :
    ¬ ((retain s.frontier s.visited).1 = [] ∨ edgeLimit ≤ s.edges.length) ∧
      (nextLevel db arrange edgeLimit last n s).edges.length < edgeLimit ∧
      ∃ edge, Incident db wallet n edge ∧ edge ∉ (nextLevel db arrange edgeLimit last n s).edges := by
  obtain ⟨⟨old, hold, hknown⟩, dropped, hdropped, hnew⟩ := hwaste
  have hlength := h.edges.length_eq
  have hpos : 0 < ((levelRows db wallet arrange n).take
      (edgeLimit - (earlier db wallet n).length)).length := List.length_pos_of_mem hold
  have hgo : ¬ ((retain s.frontier s.visited).1 = [] ∨ edgeLimit ≤ s.edges.length) := by
    rintro (hnone | hfull)
    · obtain ⟨a, ha, _⟩ := mem_touches.mp (mem_levelRows.mp (List.mem_of_mem_take hold)).2
      rw [← h.frontier, hnone] at ha
      cases ha
    · rw [List.length_take] at hpos
      omega
  refine ⟨hgo, ?_, dropped, ?_, ?_⟩
  · rw [h.nextLevel_edges arrange hgo last, List.length_append]
    have hfewer : (fresh s.edges ((levelRows db wallet arrange n).take
        (edgeLimit - (earlier db wallet n).length))).length < ((levelRows db wallet arrange n).take
          (edgeLimit - (earlier db wallet n).length)).length :=
      List.length_filter_lt_length_iff_exists.mpr ⟨old, hold, by
        simpa using ⟨old, h.edges.mem_iff.mpr hknown, rfl⟩⟩
    rw [List.length_take] at hfewer
    omega
  · exact mem_earlier_succ.mp (mem_earlier_step.mpr
      (Or.inr (mem_levelRows.mp (List.mem_of_mem_drop hdropped))))
  · rw [h.nextLevel_edges arrange hgo last, List.mem_append, not_or]
    refine ⟨fun hmem => hnew (h.edges.mem_iff.mp hmem), fun hmem => ?_⟩
    have htake := (fresh_sublist _ _).subset hmem
    have hdisjoint := List.disjoint_take_drop (levelRows_nodup db wallet arrange n) (Nat.le_refl (edgeLimit - (earlier db wallet n).length))
    exact hdisjoint htake hdropped

/-- What the last level makes of a search that lost nothing before it. -/
structure Outcome (db : Relationships) (wallet : String) (arrange : Nat → Arrangement FlowEdge)
    (edgeLimit last : Nat) (edges : List FlowEdge) : Prop where
  clean : ¬ Wasteful db wallet arrange edgeLimit last → edges.length < edgeLimit →
    ∀ edge, Incident db wallet last edge → edge ∈ edges
  wasteful : Wasteful db wallet arrange edgeLimit last →
    edges.length < edgeLimit ∧ ∃ edge, Incident db wallet last edge ∧ edge ∉ edges

theorem earlier_subperm {m n : Nat} (h : m ≤ n) :
    (earlier db wallet m).Subperm (earlier db wallet n) :=
  List.subperm_of_subset (earlier_nodup m) fun _ hedge => earlier_mono h hedge

/-- A full search has nothing left to do, and no later level is asked for anything. -/
theorem outcome_full {last n : Nat} {edges : List FlowEdge} (hfull : edgeLimit ≤ edges.length)
    (hsub : edges.Subperm (earlier db wallet n)) (hn : n ≤ last) :
    Outcome db wallet arrange edgeLimit last edges where
  clean _ hshort := absurd hfull (Nat.not_le_of_lt hshort)
  wasteful hwaste := by
    obtain ⟨⟨old, hold, _⟩, _⟩ := hwaste
    have hpos := List.length_pos_of_mem hold
    rw [List.length_take] at hpos
    have hle := (hsub.trans (earlier_subperm hn)).length_le
    omega

theorem sphere_nil_of_le {n m : Nat} (h : sphere db wallet n = []) (hle : n ≤ m) :
    sphere db wallet m = [] ∧ ∀ edge ∈ earlier db wallet (m + 1), edge ∈ earlier db wallet n := by
  induction m, hle using Nat.le_induction with
  | base => exact ⟨h, fun _ => earlier_nil_step h⟩
  | succ m _ ih =>
    have hnil := sphere_nil_succ ih.1
    exact ⟨hnil, fun edge hedge => ih.2 edge (earlier_nil_step hnil hedge)⟩

/-- A search whose frontier runs dry has seen everything. -/
theorem Intact.dry {last n : Nat} {s : Exploring} (h : Intact db wallet n s)
    (hdry : (retain s.frontier s.visited).1 = []) (hn : n ≤ last) :
    Outcome db wallet arrange edgeLimit last s.edges := by
  have hnone : sphere db wallet n = [] := by
    refine List.eq_nil_iff_forall_not_mem.mpr fun a ha => ?_
    rw [← h.frontier, hdry] at ha
    cases ha
  obtain ⟨hlast, hback⟩ := sphere_nil_of_le hnone hn
  refine ⟨fun _ _ edge hedge => h.edges.mem_iff.mpr (hback edge (mem_earlier_succ.mpr hedge)),
    fun hwaste => ?_⟩
  obtain ⟨⟨old, hold, _⟩, _⟩ := hwaste
  obtain ⟨a, ha, _⟩ := mem_touches.mp (mem_levelRows.mp (List.mem_of_mem_take hold)).2
  rw [hlast] at ha
  cases ha

theorem Intact.explore {levels n : Nat} {s : Exploring} (h : Intact db wallet n s)
    (hclean : ∀ k, n ≤ k → k < n + levels → ¬ Wasteful db wallet arrange edgeLimit k) :
    Outcome db wallet arrange edgeLimit (n + levels)
      (explore db arrange edgeLimit (levels + 1) n s) := by
  induction levels generalizing n s with
  | zero =>
    rw [explore_succ 0 n s]
    by_cases hstop : (retain s.frontier s.visited).1 = [] ∨ edgeLimit ≤ s.edges.length
    · rw [if_pos hstop]
      rcases hstop with hdry | hfull
      · exact h.dry hdry (Nat.le_refl n)
      · exact outcome_full hfull h.edges.subperm (Nat.le_refl n)
    · rw [if_neg hstop]
      refine ⟨fun hlast hshort edge hedge => ?_, fun hwaste => (h.lost hwaste _).2⟩
      rcases h.next hstop hlast _ with hfull | ⟨hperm, _⟩
      · exact absurd hfull (Nat.not_le_of_lt hshort)
      · exact hperm.mem_iff.mpr (mem_earlier_succ.mpr hedge)
  | succ levels ih =>
    rw [explore_succ (levels + 1) n s]
    by_cases hstop : (retain s.frontier s.visited).1 = [] ∨ edgeLimit ≤ s.edges.length
    · rw [if_pos hstop]
      rcases hstop with hdry | hfull
      · exact h.dry hdry (Nat.le_add_right n _)
      · exact outcome_full hfull h.edges.subperm (Nat.le_add_right n _)
    · rw [if_neg hstop]
      have hsub : (nextLevel db arrange edgeLimit (levels + 1 = 0) n s).edges.Subperm
          (earlier db wallet (n + 1)) := by
        rw [h.nextLevel_edges arrange hstop]
        exact h.next_subperm arrange _
      rcases h.next hstop (hclean n (Nat.le_refl n) (by omega)) (levels + 1 = 0) with
        hfull | ⟨_, hintact⟩
      · -- the next level stops at once
        rw [explore_succ levels (n + 1), if_pos (Or.inr hfull)]
        exact outcome_full hfull hsub (by omega)
      · have hrun := ih (hintact (by simp)) fun k hk hlt => hclean k (by omega) (by omega)
        rwa [show n + 1 + levels = n + (levels + 1) by omega] at hrun

end

/-- The neighbourhood, for all relationships, wallets, depths and limits and whatever order the rows
come in: it is as it should be whenever no level is wasteful; and where only the last level may be,
it is so just when that level is not. -/
theorem neighborhood_exact (db : Relationships) (arrange : Nat → Arrangement FlowEdge) (wallet : String)
    (depth edgeLimit : Nat) (hdepth : 0 < depth) :
    ((∀ k < depth, ¬ Wasteful db wallet arrange edgeLimit k) → NeighborhoodOf db wallet depth edgeLimit
      (loadRelationshipNeighborhood db arrange wallet depth edgeLimit)) ∧
    ((∀ k < depth - 1, ¬ Wasteful db wallet arrange edgeLimit k) → (NeighborhoodOf db wallet depth edgeLimit
      (loadRelationshipNeighborhood db arrange wallet depth edgeLimit) ↔
        ¬ Wasteful db wallet arrange edgeLimit (depth - 1))) := by
  obtain ⟨last, rfl⟩ : ∃ last, depth = last + 1 := ⟨depth - 1, by omega⟩
  have hsound : Sound db wallet (last + 1) edgeLimit 0 ⟨[wallet], [], []⟩ :=
    ⟨List.nodup_nil, Nat.zero_le _, fun _ he => (by cases he),
      fun a ha => List.mem_singleton.mp ha ▸ .wallet⟩
  obtain ⟨hdistinct, hbounded, hincident⟩ := hsound.explore arrange (Nat.zero_add _)
  have hexact : (∀ k < last, ¬ Wasteful db wallet arrange edgeLimit k) →
      (NeighborhoodOf db wallet (last + 1) edgeLimit
        (loadRelationshipNeighborhood db arrange wallet (last + 1) edgeLimit) ↔
          ¬ Wasteful db wallet arrange edgeLimit last) := by
    intro hclean
    have houtcome : Outcome db wallet arrange edgeLimit (0 + last)
        (loadRelationshipNeighborhood db arrange wallet (last + 1) edgeLimit) :=
      Intact.start.explore fun k _ hk => hclean k (by omega)
    rw [Nat.zero_add] at houtcome
    constructor
    · rintro hall hwaste
      obtain ⟨hshort, edge, hedge, hout⟩ := houtcome.wasteful hwaste
      exact hout (hall.complete hshort edge hedge)
    · exact fun hlast => ⟨hdistinct, hbounded, hincident, houtcome.clean hlast⟩
  exact ⟨fun hclean => (hexact fun k hk => hclean k (by omega)).mpr (hclean last (by omega)), hexact⟩

/-- One relationship of the wallet and one that is a hop further and older. -/
def sampleRelationships : Relationships where
  rows := [⟨"r1", "w", "b", "TRX", "x1", 10⟩, ⟨"r2", "b", "c", "TRX", "x2", 1⟩]
  ids := by decide

def asStored : Nat → Arrangement FlowEdge := fun _ => Arrangement.asGiven FlowEdge

theorem sample_neighborhood_exact :
    ((∀ k < 2, ¬ Wasteful sampleRelationships "w" asStored 3 k) →
      NeighborhoodOf sampleRelationships "w" 2 3
        (loadRelationshipNeighborhood sampleRelationships asStored "w" 2 3)) ∧
    ((∀ k < 2 - 1, ¬ Wasteful sampleRelationships "w" asStored 3 k) →
      (NeighborhoodOf sampleRelationships "w" 2 3
        (loadRelationshipNeighborhood sampleRelationships asStored "w" 2 3) ↔
          ¬ Wasteful sampleRelationships "w" asStored 3 (2 - 1))) :=
  neighborhood_exact sampleRelationships asStored "w" 2 3 (by decide)

/-- With a limit of two the relationship of the wallet comes twice and the other one is lost. -/
theorem older_relationship_lost : ¬ ∀ (db : Relationships) (arrange : Nat → Arrangement FlowEdge)
    (wallet : String) (depth edgeLimit : Nat), 1 ≤ depth → depth ≤ 6 →
    NeighborhoodOf db wallet depth edgeLimit
      (loadRelationshipNeighborhood db arrange wallet depth edgeLimit) := by
  intro h
  have hall := h sampleRelationships asStored "w" 2 2 (by decide) (by decide)
  have hrun : loadRelationshipNeighborhood sampleRelationships asStored "w" 2 2 =
      [⟨"r1", "w", "b", "TRX", "x1", 10⟩] := by decide +kernel
  rw [hrun] at hall
  have hfirst : Within sampleRelationships "w" 1 "b" :=
    .hop .wallet (List.mem_cons_self ..) (Or.inl ⟨rfl, rfl⟩)
  have hmem := hall.complete (by decide) ⟨"r2", "b", "c", "TRX", "x2", 1⟩
    ⟨by decide, "b", hfirst, Or.inl rfl⟩
  exact absurd hmem (by decide)

end AmlReal.Tron.Neighborhood
